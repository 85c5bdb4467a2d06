import ChatWire.Proofs.Dialect.AnthropicGroups

/-!
# Round trips in the Anthropic format

Each group of blocks comes back from its part (`Anthropic.decodeBlocks_map`), and the cache counts
from beside the parts, so that they stand behind all other blocks (`Anthropic.roundTrip_annotated`).
-/

namespace ChatWire.Anthropic

open Dialect

/-! ## Reading back -/

/-- An attachment as it comes back: the type of media at an address is told by the address. -/
def readAttachment (a : Attachment) (fallback : String) : Attachment :=
  match a.source with
  | .inline _ => a
  | .address url => ⟨mediaTypeOfPath url fallback, .address url⟩

/-- A block as it comes back: a result does not name its tool. -/
def readBlock : Block → Block
  | .toolCall c => .toolCall (readCall c)
  | .toolResult r => .toolResult { r with name := "" }
  | .attachment a =>
    .attachment <|
      readAttachment a (if a.mediaClass = .image then "image/jpeg" else "application/pdf")
  | b => b

/-- A message as it comes back: cache counts stand at the end, and the role is told by the content
unless the model is the sender. -/
def readBack (m : Message) : Message where
  role :=
    if m.role = .assistant then .assistant
    else if m.hasContent ∧ ∀ b ∈ m.content, b.isAnnotation ∨ b.isToolResult then .tool
    else .user
  content :=
    ((m.content.filter fun b => !b.isUsage) ++ m.content.filter Block.isUsage).map readBlock

theorem decodeSource_encodeSource (a : Attachment) (fallback : String) :
    decodeSource (encodeSource a) fallback = .ok (readAttachment a fallback) := by
  obtain ⟨mediaType, source⟩ := a
  cases source with
  | inline bytes =>
    have htype : textOf (encodeSource ⟨mediaType, .inline bytes⟩) "type" = .ok "base64" :=
      requireText_eq_ok rfl
    have hdata : textOf (encodeSource ⟨mediaType, .inline bytes⟩) "data"
        = .ok (Base64.encodeText bytes) :=
      requireText_eq_ok rfl
    have hmedia : textOf (encodeSource ⟨mediaType, .inline bytes⟩) "media_type" = .ok mediaType :=
      requireText_eq_ok rfl
    simp only [decodeSource, htype, hdata, hmedia, bind, Except.bind, requireBase64_encodeText]
    rfl
  | address url =>
    have htype : textOf (encodeSource ⟨mediaType, .address url⟩) "type" = .ok "url" :=
      requireText_eq_ok rfl
    have hurl : textOf (encodeSource ⟨mediaType, .address url⟩) "url" = .ok url :=
      requireText_eq_ok rfl
    simp only [decodeSource, htype, hurl, bind, Except.bind]
    rfl

/-- The members of a result's part; that it failed is said only if it did. -/
theorem get_encodeToolResult (r : ToolResult) :
    (encodeToolResult r).get "type" = .string "tool_result" ∧
    (encodeToolResult r).get "tool_use_id" = .string r.id ∧
    (encodeToolResult r).get "content" = .string r.content ∧
    ((encodeToolResult r).get "is_error").flag?.getD false = r.isError := by
  rw [encodeToolResult]
  cases r.isError <;> exact ⟨rfl, rfl, rfl, rfl⟩

/-- A value that has the members of a block's part is read as this block, whatever its cache mark.
-/
theorem decodeBlock_of_part {b : Block} (hb : b.isAnnotation = false) {v : Json}
    (hv : ∀ key, key ≠ "cache_control" → v.get key = (part b).get key) :
    decodeBlock v = .ok (some (readBlock b)) := by
  have hmember {key s : String} (hkey : key ≠ "cache_control") (h : (part b).get key = .string s) :
      textOf v key = .ok s :=
    requireText_eq_ok ((hv key hkey).trans h)
  cases b with
  | text s =>
    have htype : textOf v "type" = .ok "text" := hmember (by decide) rfl
    have htext : textOf v "text" = .ok s := hmember (by decide) rfl
    rw [decodeBlock, htype]
    show (textOf v "text" >>= _) = _
    rw [htext]
    rfl
  | attachment a =>
    have hsource : v.get "source" = encodeSource a := hv "source" (by decide)
    by_cases himage : a.mediaClass = .image
    · have htype : textOf v "type" = .ok "image" := by
        refine hmember (by decide) ?_
        show Json.string (if _ then _ else _) = _
        rw [if_pos himage]
      rw [decodeBlock, htype]
      show (decodeSource (v.get "source") "image/jpeg" >>= _) = _
      rw [hsource, decodeSource_encodeSource, readBlock, if_pos himage]
      rfl
    · have htype : textOf v "type" = .ok "document" := by
        refine hmember (by decide) ?_
        show Json.string (if _ then _ else _) = _
        rw [if_neg himage]
      rw [decodeBlock, htype]
      show (decodeSource (v.get "source") "application/pdf" >>= _) = _
      rw [hsource, decodeSource_encodeSource, readBlock, if_neg himage]
      rfl
  | toolCall c =>
    have htype : textOf v "type" = .ok "tool_use" := hmember (by decide) rfl
    have hid : textOf v "id" = .ok c.id := hmember (by decide) rfl
    have hname : textOf v "name" = .ok c.name := hmember (by decide) rfl
    have hinput : v.get "input" = c.arguments := hv "input" (by decide)
    rw [decodeBlock, htype]
    show (textOf v "id" >>= _) = _
    rw [hid]
    show (textOf v "name" >>= _) = _
    rw [hname, hinput, argumentsOf_eq]
    rfl
  | toolResult r =>
    obtain ⟨hpartType, hpartId, hpartContent, hpartFailed⟩ := get_encodeToolResult r
    have htype : textOf v "type" = .ok "tool_result" := hmember (by decide) hpartType
    have hid : textOf v "tool_use_id" = .ok r.id := hmember (by decide) hpartId
    have hcontent : v.get "content" = .string r.content :=
      (hv "content" (by decide)).trans hpartContent
    have hfailed : (v.get "is_error").flag?.getD false = r.isError := by
      rw [hv "is_error" (by decide)]
      exact hpartFailed
    rw [decodeBlock, htype]
    show (textOf v "tool_use_id" >>= _) = _
    rw [hid, hcontent, hfailed]
    rfl
  | thinking t =>
    have htype : textOf v "type" = .ok "thinking" := hmember (by decide) rfl
    have htext : textOf v "thinking" = .ok t.text := hmember (by decide) rfl
    have hsignature : v.textOrEmpty "signature" = t.signature := by
      rw [Json.textOrEmpty, hv "signature" (by decide)]
      rfl
    rw [decodeBlock, htype]
    show (textOf v "thinking" >>= _) = _
    rw [htext, hsignature]
    rfl
  | redactedThinking data =>
    have htype : textOf v "type" = .ok "redacted_thinking" := hmember (by decide) rfl
    have hdata : textOf v "data" = .ok data := hmember (by decide) rfl
    rw [decodeBlock, htype]
    show (textOf v "data" >>= _) = _
    rw [hdata]
    rfl
  | cacheControl | usage => cases hb

theorem Group.decodeBlock_part {g : Group} (h : g.block.isAnnotation = false) :
    decodeBlock g.part = .ok (some (readBlock g.block)) := by
  refine decodeBlock_of_part h fun key hkey => ?_
  rw [part]
  cases g.mark with
  | none => rfl
  | some lifetime => exact congrArg (·.getD .null) (Json.get?_set_of_ne _ hkey _)

theorem decodeCacheControl_encodeCacheControl (lifetime : Option CacheLifetime) :
    decodeCacheControl (encodeCacheControl lifetime) = lifetime := by
  rcases lifetime with _ | _ | _ <;> rfl

theorem decodeBlocks_map {groups : List Group} (h : ∀ g ∈ groups, g.IsWritten) :
    decodeBlocks (groups.map Group.part) = .ok ((groups.flatMap Group.blocks).map readBlock) := by
  induction groups with
  | nil => rfl
  | cons g rest ih =>
    obtain ⟨hg, hrest⟩ := List.forall_mem_cons.1 h
    rw [List.map_cons, decodeBlocks, Group.decodeBlock_part hg.1]
    show (decodeBlocks (rest.map Group.part) >>= _) = _
    rw [ih hrest, Group.get?_part hg, List.flatMap_cons, List.map_append]
    obtain ⟨b, mark⟩ := g
    cases mark with
    | none => rfl
    | some lifetime =>
      show Except.ok (readBlock b :: ([.cacheControl (decodeCacheControl
        (encodeCacheControl lifetime))] ++ (rest.flatMap Group.blocks).map readBlock)) = _
      rw [decodeCacheControl_encodeCacheControl]
      rfl

theorem isAnnotation_readBlock (b : Block) :
    Block.isAnnotation (readBlock b) = b.isAnnotation := by
  cases b <;> rfl

theorem isToolResult_readBlock (b : Block) : (readBlock b).isToolResult = b.isToolResult := by
  cases b <;> rfl

theorem onlyToolResults_iff {content : List Block} :
    onlyToolResults content = true ↔
      (∃ b ∈ content, b.isAnnotation = false) ∧ ∀ b ∈ content, b.isAnnotation ∨ b.isToolResult := by
  have hempty : (content.filter fun b => !b.isAnnotation).isEmpty = false ↔
      ∃ b ∈ content, b.isAnnotation = false := by
    rw [Bool.eq_false_iff, ne_eq, List.isEmpty_iff, List.filter_eq_nil_iff]
    simp
  have hall : ((content.filter fun b => !b.isAnnotation).all Block.isToolResult) = true ↔
      ∀ b ∈ content, b.isAnnotation ∨ b.isToolResult := by
    rw [List.all_eq_true]
    constructor
    · intro h b hb
      cases hkind : b.isAnnotation with
      | true => exact .inl rfl
      | false => exact .inr (h b (List.mem_filter.2 ⟨hb, by rw [hkind]; rfl⟩))
    · intro h b hb
      obtain ⟨hb, hkind⟩ := List.mem_filter.1 hb
      exact (h b hb).resolve_left (by simpa using hkind)
  rw [onlyToolResults, Bool.and_eq_true, Bool.not_eq_true', hempty, hall]

/-- What comes back has content from tools only if what was written had. -/
theorem onlyToolResults_readBack (m : Message) :
    onlyToolResults (readBack m).content = true ↔
      m.hasContent ∧ ∀ b ∈ m.content, b.isAnnotation ∨ b.isToolResult := by
  have hmem (b : Block) : b ∈ (readBack m).content ↔ ∃ c ∈ m.content, readBlock c = b := by
    rw [readBack, List.mem_map]
    refine exists_congr fun c => and_congr_left fun _ => ?_
    rw [List.mem_append, List.mem_filter, List.mem_filter]
    cases c.isUsage <;> simp
  rw [onlyToolResults_iff, Message.hasContent, List.any_eq_true]
  refine and_congr ?_ ?_
  · constructor
    · rintro ⟨b, hb, hkind⟩
      obtain ⟨c, hc, rfl⟩ := (hmem b).1 hb
      rw [isAnnotation_readBlock] at hkind
      exact ⟨c, hc, by rw [hkind]; rfl⟩
    · rintro ⟨c, hc, hkind⟩
      refine ⟨readBlock c, (hmem _).2 ⟨c, hc, rfl⟩, ?_⟩
      rw [isAnnotation_readBlock]
      simpa using hkind
  · constructor
    · intro h c hc
      have hb := h (readBlock c) ((hmem _).2 ⟨c, hc, rfl⟩)
      rwa [isAnnotation_readBlock, isToolResult_readBlock] at hb
    · intro h b hb
      obtain ⟨c, hc, rfl⟩ := (hmem b).1 hb
      rw [isAnnotation_readBlock, isToolResult_readBlock]
      exact h c hc

theorem decodeMessage_written {m : Message} {d : Draft} {groups : List Group}
    (h : d.Holds m.content groups) : decodeMessage (d.written m.role) = .ok (readBack m) := by
  have hname : textOf (d.written m.role) "role" = .ok (speakerName "assistant" m.role) := by
    refine requireText_eq_ok ?_
    rw [Draft.written]
    cases d.usage <;> rfl
  have hblocks : decodeContent ((d.written m.role).get "content")
      = .ok ((m.content.filter fun b => !b.isUsage).map readBlock) := by
    have hget : (d.written m.role).get "content" = .array d.parts := by
      rw [Draft.written]
      cases d.usage <;> rfl
    rw [hget, h.blocks, ← decodeBlocks_map h.written, ← h.parts]
    rfl
  have husage : (decodeCacheUsage? (d.written m.role)).toList.map Block.usage
      = (m.content.filter Block.isUsage).map readBlock := by
    have hcounts : decodeCacheUsage? (d.written m.role) = d.usage := by
      rw [Draft.written]
      cases d.usage <;> rfl
    rw [hcounts, h.usage, List.map_map]
    rfl
  have hsequence : ((d.written m.role).get "stop_sequence").text? = none := by
    rw [Draft.written]
    cases d.usage <;> rfl
  have hreason : ((d.written m.role).get "stop_reason").text? = none := by
    rw [Draft.written]
    cases d.usage <;> rfl
  have hcontent : (m.content.filter fun b => !b.isUsage).map readBlock
      ++ (m.content.filter Block.isUsage).map readBlock = (readBack m).content :=
    List.map_append.symm
  rw [decodeMessage, hname]
  by_cases hassistant : m.role = .assistant
  · rw [speakerName, if_pos hassistant]
    simp only [bind, Except.bind, pure, Except.pure, hblocks, husage, hsequence, hreason, hcontent]
    have hrole : (readBack m).role = .assistant := if_pos hassistant
    rw [if_neg (by simp), ← hrole]
    rfl
  · rw [speakerName, if_neg hassistant]
    simp only [bind, Except.bind, pure, Except.pure, hblocks, husage, hsequence, hreason, hcontent]
    have hrole : (readBack m).role
        = if onlyToolResults (readBack m).content = true then .tool else .user := by
      simp only [onlyToolResults_readBack]
      exact if_neg hassistant
    rw [decide_true, Bool.true_and, ← hrole]
    rfl

/-- A message can be written exactly if it is not from the system, has no moving pictures and no
sound, has cache counts at most once, and has for each cache mark a block of its own; it fails
otherwise because the format has no place for it. It comes back without token counts, stop reason
and metadata, and with all its blocks in order but for the cache counts, which come last. -/
theorem roundTrip_annotated (m : Message) :
    ((∃ w, encodeMessage m = .ok w) ↔ IsWritable m) ∧
    (∀ e, encodeMessage m = .error e → ∃ what, e = .unsupported .anthropic what) ∧
    ∀ w, encodeMessage m = .ok w → decodeMessage w = .ok (readBack m) := by
  refine ⟨exists_encodeMessage_iff m, fun e he => exists_of_encodeMessage_eq_error he, ?_⟩
  intro w hw
  obtain ⟨-, d, hd, rfl⟩ := encodeMessage_eq_ok_iff.1 hw
  obtain ⟨-, groups, hgroups⟩ := Draft.holds_nil.of_foldlM hd
  exact decodeMessage_written hgroups

/-- A reply that a cache mark divides, with its cache counts in between. -/
def markedMessage : Message where
  role := .assistant
  content := [.text "Let me look", .usage ⟨2048, 0⟩, .cacheControl (some .oneHour),
    .toolCall ⟨"c1", "search", .null⟩]

/-- A question about a recording, whose type is written in large letters. -/
def recordingMessage : Message where
  role := .user
  content := [.text "Who speaks?", .attachment ⟨"AUDIO/ogg", .address "https://host.example/a.ogg"⟩]

theorem roundTrip_annotated_markedMessage :
    (∃ w, encodeMessage markedMessage = .ok w ∧ decodeMessage w = .ok {
      role := .assistant
      content := [.text "Let me look", .cacheControl (some .oneHour),
        .toolCall ⟨"c1", "search", .emptyObject⟩, .usage ⟨2048, 0⟩] }) ∧
      ¬ ∃ w, encodeMessage recordingMessage = .ok w := by
  constructor
  · obtain ⟨w, hw⟩ : ∃ w, encodeMessage markedMessage = .ok w := ⟨_, rfl⟩
    have hreadBack : readBack markedMessage = {
        role := .assistant
        content := [.text "Let me look", .cacheControl (some .oneHour),
          .toolCall ⟨"c1", "search", .emptyObject⟩, .usage ⟨2048, 0⟩] } := by
      decide +kernel
    have hback := (roundTrip_annotated markedMessage).2.2 w hw
    rw [hreadBack] at hback
    exact ⟨w, hw, hback⟩
  · rw [(roundTrip_annotated recordingMessage).1]
    intro hwritable
    obtain ⟨-, haudio⟩ := hwritable.media ⟨"AUDIO/ogg", .address "https://host.example/a.ogg"⟩
      (by simp [recordingMessage])
    exact haudio (by decide +kernel)

end ChatWire.Anthropic
