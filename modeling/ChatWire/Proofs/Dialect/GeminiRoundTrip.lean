import ChatWire.Proofs.Dialect.Basic
import ChatWire.Proofs.Dialect.GeminiSignatures

/-!
# Round trips in the Gemini format

Every block is one part, whether or not a signature is put on it, and comes back from this part
(`Gemini.decodePart_of_part`). Parts that are read one after the other give the blocks and the
signatures with their places (`Gemini.foldlM_add_signed`), so that the signatures of the metadata
come back where they were (`Gemini.roundTrip_signed`).
-/

namespace ChatWire.Gemini

open Dialect

/-! ## What can be written -/

/-- Whether a block can be written. -/
def Fits : Block → Prop
  | .toolResult r => r.name ≠ ""
  | .redactedThinking _ | .cacheControl _ | .usage _ => False
  | _ => True

/-- No standing instructions, no sealed reasoning, no annotations, and no result whose tool is not
known. -/
structure IsWritable (m : Message) : Prop where
  role : m.role ≠ .system
  sealed : ∀ data, .redactedThinking data ∉ m.content
  marks : ∀ lifetime, .cacheControl lifetime ∉ m.content
  usage : ∀ u, .usage u ∉ m.content
  named : ∀ r, .toolResult r ∈ m.content → r.name ≠ ""

theorem isWritable_iff {m : Message} :
    IsWritable m ↔ m.role ≠ .system ∧ ∀ b ∈ m.content, Fits b := by
  constructor
  · rintro ⟨hrole, hsealed, hmarks, husage, hnamed⟩
    refine ⟨hrole, fun b hb => ?_⟩
    cases b with
    | toolResult r => exact hnamed r hb
    | redactedThinking data => exact hsealed data hb
    | cacheControl lifetime => exact hmarks lifetime hb
    | usage u => exact husage u hb
    | _ => trivial
  · rintro ⟨hrole, hfits⟩
    exact ⟨hrole, fun _ => hfits _, fun _ => hfits _, fun _ => hfits _, fun _ => hfits _⟩

/-! ## Writing -/

/-- The part of a block. -/
def part : Block → Json
  | .text s => .object [("text", .string s)]
  | .thinking t => Json.ofMembers [some ("text", .string t.text), some ("thought", .bool true),
      if t.signature.isEmpty then none else some ("thought_signature", .string t.signature)]
  | .attachment a => encodeAttachment a
  | .toolCall c => .object [("function_call", .object [
      ("args", c.arguments), ("id", .string c.id), ("name", .string c.name)])]
  | .toolResult r => encodeToolResult r
  | .redactedThinking _ | .cacheControl _ | .usage _ => .null

theorem encodePart_eq_ok_iff (b : Block) (p : Json) :
    encodePart b = .ok p ↔ Fits b ∧ p = part b := by
  constructor
  · intro h
    cases b with
    | toolResult r =>
      rw [encodePart] at h
      split at h
      case isTrue => cases h
      case isFalse hname => exact ⟨mt String.isEmpty_iff.2 hname, (Except.ok.inj h).symm⟩
    | redactedThinking | cacheControl | usage => cases h
    | _ => exact ⟨trivial, (Except.ok.inj h).symm⟩
  · rintro ⟨hfits, rfl⟩
    cases b with
    | toolResult r =>
      rw [encodePart, if_neg (mt String.isEmpty_iff.1 hfits)]
      rfl
    | redactedThinking | cacheControl | usage => exact hfits.elim
    | _ => rfl

theorem exists_of_encodePart_eq_error {b : Block} {e : Error} (h : encodePart b = .error e) :
    ∃ what, e = .unsupported .gemini what := by
  cases b with
  | toolResult r =>
    rw [encodePart] at h
    split at h
    · exact ⟨_, (Except.error.inj h).symm⟩
    · cases h
  | redactedThinking | cacheControl | usage => exact ⟨_, (Except.error.inj h).symm⟩
  | _ => cases h

/-- What a message is written as. -/
def written (m : Message) : Json :=
  .object [("parts", .array (signParts m (m.content.map part))),
    ("role", .string (speakerName "model" m.role))]

theorem encodeMessage_eq_ok_iff {m : Message} {w : Json} :
    encodeMessage m = .ok w ↔ IsWritable m ∧ w = written m := by
  rw [encodeMessage, bind_eq_ok_iff, isWritable_iff]
  constructor
  · rintro ⟨name, hname, h⟩
    obtain ⟨hrole, rfl⟩ := encodeSpeaker_eq_ok_iff.1 hname
    obtain ⟨parts, hparts, hpure⟩ := bind_eq_ok_iff.1 h
    obtain ⟨hfits, rfl⟩ := (mapM_eq_ok_iff encodePart_eq_ok_iff).1 hparts
    exact ⟨⟨hrole, hfits⟩, (Except.ok.inj hpure).symm⟩
  · rintro ⟨⟨hrole, hfits⟩, rfl⟩
    refine ⟨_, encodeSpeaker_eq_ok_iff.2 ⟨hrole, rfl⟩,
      bind_eq_ok_iff.2 ⟨m.content.map part, ?_, rfl⟩⟩
    exact (mapM_eq_ok_iff encodePart_eq_ok_iff).2 ⟨hfits, rfl⟩

theorem exists_of_encodeMessage_eq_error {m : Message} {e : Error}
    (h : encodeMessage m = .error e) : ∃ what, e = .unsupported .gemini what := by
  rw [encodeMessage] at h
  rcases bind_eq_error_iff.1 h with hrole | ⟨name, -, h⟩
  · exact exists_of_encodeSpeaker_eq_error hrole
  · rcases bind_eq_error_iff.1 h with hparts | ⟨parts, -, hpure⟩
    · obtain ⟨b, -, hfail⟩ := exists_of_mapM_eq_error hparts
      exact exists_of_encodePart_eq_error hfail
    · cases hpure

/-! ## Reading back -/

/-- A block as it comes back. -/
def readBlock : Block → Block
  | .toolCall c => .toolCall (readCall c)
  | b => b

/-- A message as it comes back: the role is told by the content unless the model is the sender. -/
def readBack (m : Message) : Message where
  role :=
    if m.role = .assistant then .assistant
    else if m.content ≠ [] ∧ ∀ b ∈ m.content, b.isToolResult then .tool
    else .user
  content := m.content.map readBlock
  metadata := match readSignatures? m with
    | some signatures => Table.empty.insert signatureKey signatures
    | none => .empty

theorem decodeInline_inlineData (v : Json) (mediaType : String) (bytes : Bytes) :
    decodeInline v (.object [("data", .string (Base64.encodeText bytes)),
      ("mime_type", .string mediaType)]) = .ok ⟨mediaType, .inline bytes⟩ := by
  have hdata : requireText .gemini (.object [("data", .string (Base64.encodeText bytes)),
      ("mime_type", .string mediaType)]) "data" = .ok (Base64.encodeText bytes) :=
    requireText_eq_ok rfl
  show (requireText _ _ "data" >>= _) = _
  rw [hdata]
  show (requireBase64 .gemini (Base64.encodeText bytes) >>= _) = _
  rw [requireBase64_encodeText]
  rfl

theorem decodeCall_functionCall (freshId : String) (c : ToolCall) :
    decodeCall freshId (.object [("args", c.arguments), ("id", .string c.id),
      ("name", .string c.name)]) = .ok (readCall c) := by
  have hname : requireText .gemini (.object [("args", c.arguments), ("id", .string c.id),
      ("name", .string c.name)]) "name" = .ok c.name :=
    requireText_eq_ok rfl
  rw [decodeCall, hname]
  show Except.ok (ToolCall.mk c.id c.name (argumentsOf c.arguments)) = _
  rw [argumentsOf_eq]
  rfl

theorem decodeResponse_functionResponse (r : ToolResult) :
    decodeResponse (.object [("id", .string r.id), ("name", .string r.name),
      ("response", .object [(if r.isError then "error" else "content", .string r.content)])])
      = .ok r := by
  obtain ⟨id, name, content, isError⟩ := r
  have hname : requireText .gemini (.object [("id", .string id), ("name", .string name),
      ("response", .object [(if isError then "error" else "content", .string content)])]) "name"
        = .ok name :=
    requireText_eq_ok rfl
  rw [decodeResponse, hname]
  cases isError <;> rfl

/-- A value that has the members of a block's part, apart from a signature, is read as this block.
-/
theorem decodePart_of_part {b : Block} (hfits : Fits b) {v : Json}
    (hv : ∀ key, key ≠ "thought_signature" → v.get? key = (part b).get? key)
    (hthinking : b.isThinking = true → v = part b) (freshId : String) :
    decodePart freshId v = .ok (some (readBlock b)) := by
  have hfield {underscored camel : String} (h : underscored ≠ "thought_signature")
      (h' : camel ≠ "thought_signature") :
      field? v underscored camel = field? (part b) underscored camel := by
    rw [field?, field?, hv _ h, hv _ h']
  have htext := hv "text" (by decide)
  have hinline : field? v "inline_data" "inlineData" = _ := hfield (by decide) (by decide)
  have hfile : field? v "file_data" "fileData" = _ := hfield (by decide) (by decide)
  have hcall : field? v "function_call" "functionCall" = _ := hfield (by decide) (by decide)
  have hresponse : field? v "function_response" "functionResponse" = _ :=
    hfield (by decide) (by decide)
  rw [decodePart, htext, hinline, hfile, hcall, hresponse]
  cases b with
  | text s =>
    have hthought : isThought v = false := by
      rw [isThought, Json.get, hv "thought" (by decide)]
      rfl
    show (if isThought v then _ else _) = _
    rw [hthought]
    rfl
  | thinking t =>
    obtain rfl := hthinking rfl
    obtain ⟨text, signature⟩ := t
    have hseal : (signature? (part (.thinking ⟨text, signature⟩))).getD "" = signature := by
      rw [part]
      split
      case isTrue hempty => exact (String.isEmpty_iff.1 hempty).symm
      case isFalse => rfl
    have hpart : (part (.thinking ⟨text, signature⟩)).get? "text" = some (.string text) ∧
        isThought (part (.thinking ⟨text, signature⟩)) = true := by
      rw [part]
      split <;> exact ⟨rfl, rfl⟩
    rw [hpart.1]
    show (if isThought _ then Except.ok (some (Block.thinking ⟨text, _⟩)) else _) = _
    rw [if_pos hpart.2, hseal]
    rfl
  | attachment a =>
    obtain ⟨mediaType, source⟩ := a
    cases source with
    | inline bytes =>
      show (decodeInline v _ >>= _) = _
      rw [decodeInline_inlineData]
      rfl
    | address uri => rfl
  | toolCall c =>
    show (decodeCall freshId _ >>= _) = _
    rw [decodeCall_functionCall]
    rfl
  | toolResult r =>
    show (decodeResponse _ >>= _) = _
    rw [decodeResponse_functionResponse]
    rfl
  | redactedThinking | cacheControl | usage => exact hfits.elim

/-- The part of a block that is not reasoning is an object without signature. -/
theorem exists_part_eq {b : Block} (hfits : Fits b) (hb : b.isThinking = false) :
    (∃ members, part b = .object members) ∧ signature? (part b) = none := by
  cases b with
  | attachment a =>
    obtain ⟨mediaType, source⟩ := a
    cases source <;> exact ⟨⟨_, rfl⟩, rfl⟩
  | thinking => cases hb
  | redactedThinking | cacheControl | usage => exact hfits.elim
  | _ => exact ⟨⟨_, rfl⟩, rfl⟩

theorem signature?_signWith {b : Block} (hfits : Fits b) (hb : b.isThinking = false)
    (signature : Option String) : signature? (signWith signature (part b)) = signature := by
  obtain ⟨⟨members, hpart⟩, hnone⟩ := exists_part_eq hfits hb
  cases signature with
  | none => exact hnone
  | some s =>
    rw [signWith_some, hpart, sign, signature?, textField?, field?, Json.get?_set_self]
    rfl

theorem get?_signWith (signature : Option String) (p : Json) {key : String}
    (h : key ≠ "thought_signature") : (signWith signature p).get? key = p.get? key := by
  cases signature with
  | none => rfl
  | some s => exact Json.get?_set_of_ne p h _

theorem isThought_signWith {b : Block} (hfits : Fits b) (signature : Option String) :
    isThought (signWith signature (part b)) = b.isThinking := by
  rw [isThought, Json.get, get?_signWith signature (part b) (by decide)]
  cases b with
  | thinking t =>
    rw [part]
    split <;> rfl
  | attachment a =>
    obtain ⟨mediaType, source⟩ := a
    cases source <;> rfl
  | redactedThinking | cacheControl | usage => exact hfits.elim
  | _ => rfl

/-- One more part gives one more block, and its signature the place of this block. -/
theorem Contents.add_signWith {b : Block} (hfits : Fits b) {signature : Option String}
    (hthinking : b.isThinking = true → signature = none) (ids : CallIds) (c : Contents) :
    c.add ids (signWith signature (part b)) = .ok ⟨c.blocks ++ [readBlock b],
      c.signatures ++ signature.toList.map (c.blocks.length, ·)⟩ := by
  have hblock := decodePart_of_part hfits (fun _ hkey => get?_signWith signature (part b) hkey)
    (fun hb => by rw [hthinking hb]; rfl) (ids.ofPlace c.blocks.length)
  have hsignature : (if isThought (signWith signature (part b)) then none
      else signature? (signWith signature (part b))) = signature := by
    rw [isThought_signWith hfits]
    cases hb : b.isThinking with
    | true => exact (hthinking hb).symm
    | false => exact signature?_signWith hfits hb signature
  rw [add, hblock, hsignature]
  rfl

/-- The parts of blocks give these blocks again, and their signatures with the places where they
are. -/
theorem foldlM_add_signed {content : List Block} (hfits : ∀ b ∈ content, Fits b)
    {signatures : Nat → Option String}
    (hthinking : ∀ i b, content[i]? = some b → b.isThinking = true → signatures i = none)
    (ids : CallIds) :
    (signed signatures (content.map part)).foldlM (Contents.add ids) {}
      = .ok ⟨content.map readBlock, placedSignatures signatures content.length⟩ := by
  -- The place of a block is the number of blocks before it, so the last block is taken off.
  induction content using List.reverseRecOn with
  | nil => rfl
  | append_singleton content b ih =>
    have hbefore := ih (fun c hc => hfits c (List.mem_append_left _ hc)) fun i c hc =>
      hthinking i c (List.getElem?_append_left (List.getElem?_eq_some_iff.1 hc).1 ▸ hc)
    have hlast := Contents.add_signWith (hfits b (by simp))
      (hthinking content.length b (by simp)) ids
      ⟨content.map readBlock, placedSignatures signatures content.length⟩
    have hparts : signed signatures ((content ++ [b]).map part) = signed signatures
        (content.map part) ++ [signWith (signatures content.length) (part b)] := by
      rw [signed, List.map_append, List.mapIdx_append]
      simp [signed]
    rw [hparts, List.foldlM_append, hbefore]
    show (Contents.add ids _ _ >>= _) = _
    rw [hlast]
    simp [placedSignatures_succ, pure, Except.pure, bind, Except.bind]

theorem signaturePlace?_map_readBlock (content : List Block) :
    signaturePlace? (content.map readBlock) = signaturePlace? content := by
  have hcall : Block.isToolCall ∘ readBlock = Block.isToolCall := by
    funext b
    cases b <;> rfl
  have hother : (fun b => !b.isThinking) ∘ readBlock = fun b => !b.isThinking := by
    funext b
    cases b <;> rfl
  rw [signaturePlace?, List.findIdx?_map, List.findIdx?_map, hcall, hother, signaturePlace?]

theorem isToolResult_readBlock (b : Block) : (readBlock b).isToolResult = b.isToolResult := by
  cases b <;> rfl

theorem all_isToolResult_readBack (m : Message) :
    (!(m.content.map readBlock).isEmpty && (m.content.map readBlock).all Block.isToolResult) = true
      ↔ m.content ≠ [] ∧ ∀ b ∈ m.content, b.isToolResult := by
  rw [Bool.and_eq_true, Bool.not_eq_true', List.isEmpty_eq_false_iff, List.all_eq_true,
    List.forall_mem_map, ne_eq, List.map_eq_nil_iff]
  simp only [isToolResult_readBlock]

theorem decodeMessage_written {m : Message} (hm : IsWritable m) (h : IsPlaced m) (ids : CallIds) :
    decodeMessage ids (written m) = .ok (readBack m) := by
  obtain ⟨-, hfits⟩ := isWritable_iff.1 hm
  have hname : ((written m).get "role").text? = some (speakerName "model" m.role) := rfl
  have hparts : decodeParts ((written m).get "parts")
      = .ok (signed (signatureAt m) (m.content.map part)) :=
    congrArg Except.ok (signParts_eq h (List.length_map _))
  have hcontents := foldlM_add_signed hfits
    (fun _ _ hb hthinking => signatureAt_of_isThinking h hb hthinking) ids
  have hsignatures : signatureValue? (placedSignatures (signatureAt m) m.content.length)
      (signaturePlace? (m.content.map readBlock)) = readSignatures? m := by
    rw [signaturePlace?_map_readBlock, signatureValue?_placed h]
  rw [decodeMessage, decodeRole, hname]
  by_cases hassistant : m.role = .assistant
  · have hrole : (readBack m).role = .assistant := if_pos hassistant
    rw [speakerName, if_pos hassistant]
    simp only [bind, Except.bind, pure, Except.pure, hparts, hcontents, hsignatures]
    rw [if_neg (by simp), ← hrole]
    rfl
  · have hrole : (readBack m).role = if !(m.content.map readBlock).isEmpty
        && (m.content.map readBlock).all Block.isToolResult then .tool else .user := by
      simp only [all_isToolResult_readBack]
      exact if_neg hassistant
    rw [speakerName, if_neg hassistant]
    simp only [bind, Except.bind, pure, Except.pure, hparts, hcontents, hsignatures]
    rw [decide_true, Bool.true_and, ← hrole]
    rfl

/-- A message can be written exactly if it is not from the system and has no sealed reasoning, no
annotation and no result of an unknown tool; it fails otherwise because the format has no place for
it. If the signatures of its metadata are placed it comes back with its blocks in order and with
these signatures, but without token counts, stop reason and other metadata. -/
theorem roundTrip_signed (m : Message) :
    ((∃ w, encodeMessage m = .ok w) ↔ IsWritable m) ∧
    (∀ e, encodeMessage m = .error e → ∃ what, e = .unsupported .gemini what) ∧
    ∀ ids w, encodeMessage m = .ok w → IsPlaced m → decodeMessage ids w = .ok (readBack m) := by
  refine ⟨⟨?_, ?_⟩, fun e he => exists_of_encodeMessage_eq_error he, ?_⟩
  · rintro ⟨w, hw⟩
    exact (encodeMessage_eq_ok_iff.1 hw).1
  · intro hm
    exact ⟨_, encodeMessage_eq_ok_iff.2 ⟨hm, rfl⟩⟩
  · intro ids w hw h
    obtain ⟨hm, rfl⟩ := encodeMessage_eq_ok_iff.1 hw
    exact decodeMessage_written hm h ids

/-- The signatures of a call and of the text behind it. -/
def searchSignatures : Fields := Table.ofList [("1", .string "s1"), ("2", .string "s2")]

/-- A call without arguments between sealed reasoning and a text. -/
def searchMessage : Message where
  role := .assistant
  content := [.thinking ⟨"Look it up", "s0"⟩, .toolCall ⟨"c1", "search", .null⟩, .text "Searching"]
  metadata := Table.empty.insert signatureKey searchSignatures.toJson

theorem roundTrip_signed_searchMessage :
    IsPlaced searchMessage ∧ encodeMessage searchMessage = .ok (written searchMessage) ∧
      decodeMessage .numbered (written searchMessage) = .ok { searchMessage with
        content := [.thinking ⟨"Look it up", "s0"⟩, .toolCall ⟨"c1", "search", .emptyObject⟩,
          .text "Searching"] } := by
  have hentries : searchSignatures.entries = [("1", .string "s1"), ("2", .string "s2")] := by
    decide +kernel
  have hplaced : IsPlaced searchMessage := by
    refine .byPlace searchSignatures (Table.find?_insert_self _ _ _) (by simp [hentries]) ?_
    intro e he
    rw [hentries] at he
    rcases List.mem_cons.1 he with rfl | he
    · exact ⟨⟨1, by decide, rfl, _, rfl, rfl⟩, _, rfl⟩
    · obtain rfl := List.mem_singleton.1 he
      exact ⟨⟨2, by decide, rfl, _, rfl, rfl⟩, _, rfl⟩
  have hwritten : encodeMessage searchMessage = .ok (written searchMessage) := rfl
  have hback := (roundTrip_signed searchMessage).2.2 .numbered _ hwritten hplaced
  have hreadBack : readBack searchMessage = { searchMessage with
      content := [.thinking ⟨"Look it up", "s0"⟩, .toolCall ⟨"c1", "search", .emptyObject⟩,
        .text "Searching"] } := by
    decide +kernel
  rw [hreadBack] at hback
  exact ⟨hplaced, hwritten, hback⟩

end ChatWire.Gemini
