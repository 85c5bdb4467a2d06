import ChatWire.Dialect.OpenAI
import ChatWire.Proofs.Dialect.Basic
import ChatWire.Proofs.Json.Reprint

/-!
# Round trips in the chat-completions format

The mark of a failed result is read as what was marked, whatever the text
(`OpenAI.unmarkResult_markResult`). A message that is not from a tool is written as the parts of its
texts and images and, apart from them, its tool calls (`OpenAI.Draft.foldlM_add_eq_ok_iff`), and
comes back in this order (`OpenAI.roundTrip_collapsed`).
-/

namespace ChatWire.OpenAI

open Dialect

/-! ## Marked results -/

/-- A text that begins with the mark reads as marked, and so does one with backslashes in front. -/
theorem readsAsMarked_of_isPrefixOf {text : List Char} (h : errorMark.isPrefixOf text = true) :
    readsAsMarked text = true := by
  obtain ⟨rest, rfl⟩ := List.isPrefixOf_iff_prefix.1 h
  rw [readsAsMarked, errorMark, List.cons_append, List.dropWhile_cons_of_neg (by decide)]
  exact List.isPrefixOf_iff_prefix.2 ⟨rest, rfl⟩

theorem readsAsMarked_cons (text : List Char) :
    readsAsMarked ('\\' :: text) = readsAsMarked text := by
  rw [readsAsMarked, readsAsMarked, List.dropWhile_cons_of_pos (by decide)]

theorem unmarkResult_markResult (content : List Char) (isError : Bool) :
    unmarkResult (markResult content isError) = (content, isError) := by
  cases isError with
  | true =>
    have hprefix : errorMark.isPrefixOf (errorMark ++ content) = true :=
      List.isPrefixOf_iff_prefix.2 ⟨content, rfl⟩
    rw [markResult, if_pos rfl, unmarkResult, if_pos hprefix, List.drop_left]
  | false =>
    rw [markResult, if_neg Bool.false_ne_true]
    cases hmarked : readsAsMarked content with
    | true =>
      have hplain : errorMark.isPrefixOf ('\\' :: content) = false := rfl
      rw [if_pos rfl, unmarkResult, hplain, readsAsMarked_cons, hmarked]
      rfl
    | false =>
      have hplain : errorMark.isPrefixOf content = false := by
        rw [Bool.eq_false_iff]
        intro hprefix
        rw [readsAsMarked_of_isPrefixOf hprefix] at hmarked
        cases hmarked
      rw [if_neg Bool.false_ne_true, unmarkResult, hplain, hmarked]
      rfl

/-! ## What can be written -/

/-- A block that a message of a role can hold beside others. -/
def Fits (role : Role) (b : Block) : Prop :=
  (∃ s, b = .text s) ∨ (∃ a, a.mediaClass = .image ∧ b = .attachment a) ∨
    role = .assistant ∧ ∃ c, b = .toolCall c

/-- One result of a tool in a message from a tool; texts, images and calls of the model in any
other. -/
structure IsWritable (m : Message) : Prop where
  ofTool : m.role = .tool → ∃ r, m.content = [.toolResult r]
  ofOthers : m.role ≠ .tool → ∀ b ∈ m.content, Fits m.role b

/-! ## Writing -/

/-- The address of an image; bytes are an address of their own. -/
def imageUrl (a : Attachment) : String :=
  match a.source with
  | .inline bytes => "data:" ++ a.mediaType ++ ";base64," ++ Base64.encodeText bytes
  | .address uri => uri

/-- The part that shows an image. -/
def imagePart (a : Attachment) : Json :=
  .object [("image_url", .object [("url", .string (imageUrl a))]), ("type", .string "image_url")]

theorem encodeImage_eq (a : Attachment) :
    encodeImage a = if a.mediaClass = .image then .ok (imagePart a)
      else unsupported (.attachments a.mediaType) :=
  rfl

/-- Whether a block is a text or an attachment. -/
def isPart : Block → Bool
  | .text _ | .attachment _ => true
  | _ => false

/-- The part of a text or an attachment. -/
def part : Block → Json
  | .text s => textPart s
  | .attachment a => imagePart a
  | _ => .null

/-- The draft with the parts and the calls of more blocks. -/
def Draft.extend (d : Draft) (content : List Block) : Draft :=
  ⟨d.parts ++ (content.filter isPart).map part,
    d.calls ++ (content.filterMap Block.toolCall?).map encodeToolCall⟩

theorem Draft.extend_extend (d : Draft) (front back : List Block) :
    (d.extend front).extend back = d.extend (front ++ back) := by
  simp [extend]

theorem Draft.extend_text (d : Draft) (s : String) :
    d.extend [.text s] = ⟨d.parts ++ [textPart s], d.calls⟩ := by
  simp [extend, List.filter, isPart, part, Block.toolCall?]

theorem Draft.extend_attachment (d : Draft) (a : Attachment) :
    d.extend [.attachment a] = ⟨d.parts ++ [imagePart a], d.calls⟩ := by
  simp [extend, List.filter, isPart, part, Block.toolCall?]

theorem Draft.extend_toolCall (d : Draft) (c : ToolCall) :
    d.extend [.toolCall c] = ⟨d.parts, d.calls ++ [encodeToolCall c]⟩ := by
  simp [extend, List.filter, isPart, Block.toolCall?]

theorem Draft.add_eq_ok_iff {role : Role} {d d' : Draft} {b : Block} :
    d.add role b = .ok d' ↔ Fits role b ∧ d' = d.extend [b] := by
  constructor
  · intro h
    cases b with
    | text s =>
      obtain rfl := Except.ok.inj h
      exact ⟨.inl ⟨s, rfl⟩, (extend_text d s).symm⟩
    | attachment a =>
      rw [add, encodeImage_eq] at h
      split at h
      case isTrue himage =>
        obtain rfl := Except.ok.inj h
        exact ⟨.inr (.inl ⟨a, himage, rfl⟩), (extend_attachment d a).symm⟩
      case isFalse => cases h
    | toolCall c =>
      rw [add] at h
      split at h
      case isTrue hrole =>
        obtain rfl := Except.ok.inj h
        exact ⟨.inr (.inr ⟨hrole, c, rfl⟩), (extend_toolCall d c).symm⟩
      case isFalse => cases h
    | _ => cases h
  · rintro ⟨⟨s, rfl⟩ | ⟨a, himage, rfl⟩ | ⟨hrole, c, rfl⟩, rfl⟩
    · rw [add, extend_text]
    · rw [add, encodeImage_eq, if_pos himage, extend_attachment]
      rfl
    · rw [add, if_pos hrole, extend_toolCall]

theorem Draft.exists_of_add_eq_error {role : Role} {d : Draft} {b : Block} {e : Error}
    (h : d.add role b = .error e) : ∃ what, e = .unsupported .openai what := by
  cases b with
  | text s => cases h
  | attachment a =>
    rw [add, encodeImage_eq] at h
    split at h
    · cases h
    · exact ⟨_, (Except.error.inj h).symm⟩
  | toolCall c =>
    rw [add] at h
    split at h
    · cases h
    · exact ⟨_, (Except.error.inj h).symm⟩
  | _ => exact ⟨_, (Except.error.inj h).symm⟩

/-- Parts and calls are collected apart from each other, each in order. -/
theorem Draft.foldlM_add_eq_ok_iff {role : Role} {content : List Block} {d d' : Draft} :
    content.foldlM (Draft.add role) d = .ok d' ↔
      (∀ b ∈ content, Fits role b) ∧ d' = d.extend content := by
  induction content generalizing d with
  | nil => simp [extend, pure, Except.pure, eq_comm]
  | cons b rest ih =>
    rw [foldlM_cons_eq_ok_iff, List.forall_mem_cons]
    constructor
    · rintro ⟨next, hadd, hrest⟩
      obtain ⟨hb, rfl⟩ := add_eq_ok_iff.1 hadd
      obtain ⟨hfit, rfl⟩ := ih.1 hrest
      exact ⟨⟨hb, hfit⟩, extend_extend d [b] rest⟩
    · rintro ⟨⟨hb, hfit⟩, rfl⟩
      exact ⟨d.extend [b], add_eq_ok_iff.2 ⟨hb, rfl⟩, ih.2 ⟨hfit, (extend_extend d [b] rest).symm⟩⟩

/-- What a message from a tool is written as. -/
def writtenResult (r : ToolResult) : Json :=
  Json.ofMembers [
    some ("content", .string (String.ofList (markResult r.content.toList r.isError))),
    if r.name.isEmpty then none else some ("name", .string r.name),
    some ("role", .string "tool"), some ("tool_call_id", .string r.id)]

/-- What any other message is written as. -/
def written (m : Message) : Json :=
  let d := ({} : Draft).extend m.content
  Json.ofMembers [some ("content", d.content), some ("role", .string m.role.name),
    if d.calls.isEmpty then none else some ("tool_calls", .array d.calls)]

theorem encodeMessage_of_tool {m : Message} (hrole : m.role = .tool) {w : Json} :
    encodeMessage m = .ok w ↔ ∃ r, m.content = [.toolResult r] ∧ w = writtenResult r := by
  rw [encodeMessage, if_pos hrole, encodeToolMessage]
  constructor
  · intro h
    split at h
    case h_1 r hcontent => exact ⟨r, hcontent, (Except.ok.inj h).symm⟩
    case h_2 => cases h
  · rintro ⟨r, hcontent, rfl⟩
    rw [hcontent]
    rfl

theorem encodeMessage_of_other {m : Message} (hrole : m.role ≠ .tool) {w : Json} :
    encodeMessage m = .ok w ↔ (∀ b ∈ m.content, Fits m.role b) ∧ w = written m := by
  rw [encodeMessage, if_neg hrole, bind_eq_ok_iff]
  constructor
  · rintro ⟨d, hdraft, hpure⟩
    obtain ⟨hfit, rfl⟩ := Draft.foldlM_add_eq_ok_iff.1 hdraft
    exact ⟨hfit, (Except.ok.inj hpure).symm⟩
  · rintro ⟨hfit, rfl⟩
    exact ⟨_, Draft.foldlM_add_eq_ok_iff.2 ⟨hfit, rfl⟩, rfl⟩

/-- The messages that can be written are told by their role and their blocks. -/
theorem exists_encodeMessage_iff (m : Message) :
    (∃ w, encodeMessage m = .ok w) ↔ IsWritable m := by
  by_cases hrole : m.role = .tool
  · constructor
    · rintro ⟨w, hw⟩
      obtain ⟨r, hcontent, -⟩ := (encodeMessage_of_tool hrole).1 hw
      exact ⟨fun _ => ⟨r, hcontent⟩, fun hother => absurd hrole hother⟩
    · intro hm
      obtain ⟨r, hcontent⟩ := hm.ofTool hrole
      exact ⟨_, (encodeMessage_of_tool hrole).2 ⟨r, hcontent, rfl⟩⟩
  · constructor
    · rintro ⟨w, hw⟩
      exact ⟨fun htool => absurd htool hrole, fun _ => ((encodeMessage_of_other hrole).1 hw).1⟩
    · intro hm
      exact ⟨_, (encodeMessage_of_other hrole).2 ⟨hm.ofOthers hrole, rfl⟩⟩

theorem exists_of_encodeMessage_eq_error {m : Message} {e : Error}
    (h : encodeMessage m = .error e) : ∃ what, e = .unsupported .openai what := by
  rw [encodeMessage] at h
  split at h
  case isTrue =>
    rw [encodeToolMessage] at h
    split at h
    · cases h
    · exact ⟨_, (Except.error.inj h).symm⟩
  case isFalse =>
    rcases bind_eq_error_iff.1 h with hdraft | ⟨d, -, hpure⟩
    · obtain ⟨d, b, -, hfail⟩ := exists_of_foldlM_eq_error hdraft
      exact Draft.exists_of_add_eq_error hfail
    · cases hpure

/-! ## Reading back -/

/-- What a message has to meet in order to come back: addresses and types of images are not taken
for one another, and arguments are within the reader's depth and read as what was printed. -/
structure IsRecoverable (m : Message) : Prop where
  types : ∀ mediaType bytes, .attachment ⟨mediaType, .inline bytes⟩ ∈ m.content →
    ',' ∉ mediaType.toList
  addresses : ∀ mediaType uri, .attachment ⟨mediaType, .address uri⟩ ∈ m.content →
    ¬ "data:".toList <+: uri.toList
  depths : ∀ c ∈ m.toolCalls, c.arguments.depth ≤ Json.maxDepth
  printed : ∀ c ∈ m.toolCalls, ∀ v, Json.read? c.arguments.toText = some v → v = c.arguments

/-- A text or an attachment as it comes back. The type of an image at an address is told by the
address. -/
def readPart : Block → Block
  | .attachment ⟨_, .address uri⟩ =>
    .attachment ⟨mediaTypeOfPath uri "image/jpeg", .address uri⟩
  | b => b

/-- The texts and attachments that come back: all of them, unless there is but an empty text. -/
def readParts (content : List Block) : List Block :=
  let blocks := (content.filter isPart).map readPart
  if blocks = [.text ""] then [] else blocks

/-- A message as it comes back: tool calls stand behind texts and attachments. -/
def readBack (m : Message) : Message where
  role := m.role
  content := if m.role = .tool then m.content
    else readParts m.content ++ m.toolCalls.map .toolCall

theorem splitDataUrl_of_notMem (part : Json) {mediaType : List Char} (h : ',' ∉ mediaType)
    (data : List Char) :
    splitDataUrl part (mediaType ++ (";base64".toList ++ ',' :: data))
      = .ok (String.ofList mediaType, String.ofList data) := by
  have hcoding : ∀ c ∈ ";base64".toList, (c != ',') = true := List.all_eq_true.1 rfl
  have hheader : ∀ c ∈ mediaType ++ ";base64".toList, (c != ',') = true := by
    intro c hc
    rcases List.mem_append.1 hc with hc | hc
    · exact bne_iff_ne.2 fun hcomma => h (hcomma ▸ hc)
    · exact hcoding c hc
  have htake : (mediaType ++ ";base64".toList ++ ',' :: data).takeWhile (· != ',')
      = mediaType ++ ";base64".toList := by
    rw [List.takeWhile_append_of_pos hheader, List.takeWhile_cons_of_neg (by decide),
      List.append_nil]
  have hsuffix : ";base64".toList.isSuffixOf (mediaType ++ ";base64".toList) = true :=
    List.isSuffixOf_iff_suffix.2 (List.suffix_append _ _)
  have hlength : (mediaType ++ ";base64".toList).length
      ≠ (mediaType ++ ";base64".toList ++ ',' :: data).length := by
    simp only [List.length_append, List.length_cons]
    omega
  have hdrop : (mediaType ++ ";base64".toList ++ ',' :: data).drop
      ((mediaType ++ ";base64".toList).length + 1) = data := by
    rw [List.drop_length_add_append]
    rfl
  rw [← List.append_assoc, splitDataUrl, htake, if_neg hlength, if_pos hsuffix, hdrop,
    List.length_append, Nat.add_sub_cancel, List.take_left]

/-- Bytes come back from the address that they were made. -/
theorem decodeImage_inline {mediaType : String} (h : ',' ∉ mediaType.toList) (bytes : Bytes) :
    decodeImage (imagePart ⟨mediaType, .inline bytes⟩) = .ok ⟨mediaType, .inline bytes⟩ := by
  have hurl : (imageUrl ⟨mediaType, .inline bytes⟩).toList = "data:".toList
      ++ (mediaType.toList ++ (";base64".toList ++ ',' :: (Base64.encodeText bytes).toList)) := by
    simp [imageUrl]
  have hscheme : "data:".toList.isPrefixOf (imageUrl ⟨mediaType, .inline bytes⟩).toList = true := by
    rw [hurl]
    exact List.isPrefixOf_iff_prefix.2 (List.prefix_append _ _)
  have hget : textOf ((imagePart ⟨mediaType, .inline bytes⟩).get "image_url") "url"
      = .ok (imageUrl ⟨mediaType, .inline bytes⟩) :=
    requireText_eq_ok rfl
  rw [decodeImage]
  show (textOf ((imagePart ⟨mediaType, .inline bytes⟩).get "image_url") "url" >>= _) = _
  rw [hget]
  show (if _ then _ else _) = _
  rw [if_pos hscheme, hurl, List.drop_left, splitDataUrl_of_notMem _ h, String.ofList_toList,
    String.ofList_toList]
  show (requireBase64 .openai (Base64.encodeText bytes) >>= _) = _
  rw [requireBase64_encodeText]
  rfl

theorem decodeImage_address {uri : String} (h : ¬ "data:".toList <+: uri.toList)
    (mediaType : String) :
    decodeImage (imagePart ⟨mediaType, .address uri⟩)
      = .ok ⟨mediaTypeOfPath uri "image/jpeg", .address uri⟩ := by
  have hget : textOf ((imagePart ⟨mediaType, .address uri⟩).get "image_url") "url" = .ok uri :=
    requireText_eq_ok rfl
  rw [decodeImage]
  show (textOf ((imagePart ⟨mediaType, .address uri⟩).get "image_url") "url" >>= _) = _
  rw [hget]
  show (if _ then _ else _) = _
  rw [if_neg (mt List.isPrefixOf_iff_prefix.1 h)]
  rfl

theorem decodeParts_map {m : Message} (hm : IsRecoverable m) {blocks : List Block}
    (hblocks : blocks ⊆ m.content.filter isPart) :
    decodeParts (blocks.map part) = .ok (blocks.map readPart) := by
  induction blocks with
  | nil => rfl
  | cons b rest ih =>
    obtain ⟨hb, hrest⟩ := List.cons_subset.1 hblocks
    obtain ⟨hmem, hpart⟩ := List.mem_filter.1 hb
    rw [List.map_cons, List.map_cons]
    cases b with
    | text s =>
      have htext : textOf (textPart s) "text" = .ok s := requireText_eq_ok rfl
      show (textOf (textPart s) "text" >>= _) = _
      rw [htext]
      show (decodeParts (rest.map part) >>= _) = _
      rw [ih hrest]
      rfl
    | attachment a =>
      obtain ⟨mediaType, source⟩ := a
      have himage : decodeImage (imagePart ⟨mediaType, source⟩)
          = .ok (match source with
            | .inline bytes => ⟨mediaType, .inline bytes⟩
            | .address uri => ⟨mediaTypeOfPath uri "image/jpeg", .address uri⟩) := by
        cases source with
        | inline bytes => exact decodeImage_inline (hm.types _ _ hmem) bytes
        | address uri => exact decodeImage_address (hm.addresses _ _ hmem) mediaType
      show (decodeImage (imagePart ⟨mediaType, source⟩) >>= _) = _
      rw [himage]
      show (decodeParts (rest.map part) >>= _) = _
      rw [ih hrest]
      cases source <;> rfl
    | _ => cases hpart

theorem decodeContent_content {m : Message} (hm : IsRecoverable m) :
    decodeContent (({} : Draft).extend m.content).content = .ok (readParts m.content) := by
  have hparts : (({} : Draft).extend m.content).parts = (m.content.filter isPart).map part := rfl
  have hread := decodeParts_map hm (List.Subset.refl (m.content.filter isPart))
  have hkinds : ∀ b ∈ m.content.filter isPart, isPart b = true :=
    fun b hb => (List.mem_filter.1 hb).2
  rw [Draft.content, hparts, readParts]
  generalize m.content.filter isPart = blocks at hread hkinds
  -- The form of the content is told by the number of parts.
  match blocks, hread, hkinds with
  | [], _, _ =>
    show decodeContent (if _ then _ else _) = _
    split <;> rfl
  | [.text s], _, _ =>
    show Except.ok (if s.isEmpty then [] else [Block.text s]) = _
    by_cases hs : s = "" <;> simp [readPart, hs]
  | [.attachment a], hread, _ =>
    have hne : [Block.attachment a].map readPart ≠ [.text ""] := by
      obtain ⟨mediaType, source⟩ := a
      cases source <;> simp [readPart]
    show decodeParts [imagePart a] = Except.ok (if _ then _ else _)
    rw [if_neg hne]
    exact hread
  | b :: c :: rest, hread, _ =>
    show decodeParts _ = Except.ok (if _ then _ else _)
    rw [if_neg (by simp)]
    exact hread
  | [.toolCall _], _, hkinds | [.toolResult _], _, hkinds | [.thinking _], _, hkinds
  | [.redactedThinking _], _, hkinds | [.cacheControl _], _, hkinds | [.usage _], _, hkinds =>
    exact absurd (hkinds _ List.mem_cons_self) Bool.false_ne_true

theorem decodeToolCall_encodeToolCall {c : ToolCall} (hdepth : c.arguments.depth ≤ Json.maxDepth)
    (hprinted : ∀ v, Json.read? c.arguments.toText = some v → v = c.arguments) :
    decodeToolCall (encodeToolCall c) = .ok c := by
  have hread : Json.read? c.arguments.toText = some c.arguments := by
    have hsome := Json.read?_toText hdepth
    rw [hsome, hprinted _ hsome]
  have hne : c.arguments.toText ≠ "" := by
    obtain ⟨first, rest, hchars, -⟩ := c.arguments.exists_chars_eq_cons
    intro hempty
    rw [Json.toText, hchars, String.ofList_eq_empty_iff] at hempty
    cases hempty
  have harguments : (((encodeToolCall c).get "function").get "arguments").text?
      = some c.arguments.toText := rfl
  have hname : textOf ((encodeToolCall c).get "function") "name" = .ok c.name :=
    requireText_eq_ok rfl
  have hid : textOf (encodeToolCall c) "id" = .ok c.id := requireText_eq_ok rfl
  rw [decodeToolCall]
  simp only [harguments, hread, hname, hid]
  rfl

theorem decodeMessage_writtenResult (r : ToolResult) :
    decodeMessage (writtenResult r) = .ok { role := .tool, content := [.toolResult r] } := by
  have hrole : textOf (writtenResult r) "role" = .ok "tool" := by
    refine requireText_eq_ok ?_
    rw [writtenResult]
    split <;> rfl
  have hcontent : (writtenResult r).get "content"
      = .string (String.ofList (markResult r.content.toList r.isError)) := by
    rw [writtenResult]
    split <;> rfl
  have hid : textOf (writtenResult r) "tool_call_id" = .ok r.id := by
    refine requireText_eq_ok ?_
    rw [writtenResult]
    split <;> rfl
  have hname : (writtenResult r).textOrEmpty "name" = r.name := by
    rw [writtenResult]
    split
    case isTrue hempty => exact (String.isEmpty_iff.1 hempty).symm
    case isFalse => rfl
  have hdecodeRole : decodeRole (writtenResult r) = .ok .tool := by
    rw [decodeRole, hrole]
    rfl
  rw [decodeMessage, hdecodeRole]
  show decodeToolMessage (writtenResult r) = _
  rw [decodeToolMessage, hcontent, hid, hname]
  simp only [resultText, bind, Except.bind, String.toList_ofList, unmarkResult_markResult,
    String.ofList_toList]
  rfl

theorem decodeMessage_written {m : Message} (hrole : m.role ≠ .tool)
    (hfit : ∀ b ∈ m.content, Fits m.role b) (hm : IsRecoverable m) :
    decodeMessage (written m) = .ok (readBack m) := by
  have hcalls : m.toolCalls ≠ [] → m.role = .assistant := by
    intro hne
    obtain ⟨c, hc⟩ := List.exists_mem_of_ne_nil _ hne
    obtain ⟨b, hb, hcall⟩ := List.mem_filterMap.1 hc
    rcases hfit b hb with ⟨s, rfl⟩ | ⟨a, -, rfl⟩ | ⟨hassistant, -⟩
    · cases hcall
    · cases hcall
    · exact hassistant
  have hname : textOf (written m) "role" = .ok m.role.name := by
    refine requireText_eq_ok ?_
    rw [written]
    split <;> rfl
  have hdecodeRole : decodeRole (written m) = .ok m.role := by
    rw [decodeRole, hname]
    cases m.role <;> rfl
  have hid : (written m).present? "tool_call_id" = none := by
    rw [written]
    split <;> rfl
  have hrefusal : ((written m).get "refusal").text? = none := by
    rw [written]
    split <;> rfl
  have hcontent : decodeContent ((written m).get "content") = .ok (readParts m.content) := by
    have hget : (written m).get "content" = (({} : Draft).extend m.content).content := by
      rw [written]
      split <;> rfl
    rw [hget, decodeContent_content hm]
  have hdecodeCalls : decodeToolCalls m.role (written m) = .ok m.toolCalls := by
    have hcollected : (({} : Draft).extend m.content).calls = m.toolCalls.map encodeToolCall := rfl
    rw [written, hcollected]
    split
    case isTrue hempty =>
      have hnil : m.toolCalls = [] := by simpa using hempty
      rw [hnil]
      rfl
    case isFalse hsome =>
      have hne : m.toolCalls ≠ [] := by simpa using hsome
      have hread := mapM_map_eq_ok (k := fun c => c) m.toolCalls fun c hc =>
        decodeToolCall_encodeToolCall (hm.depths c hc) (hm.printed c hc)
      rw [List.map_id'] at hread
      rw [hcalls hne]
      exact hread
  rw [decodeMessage, hdecodeRole]
  show (if _ then _ else _) = _
  rw [if_neg hrole, hid, hcontent, hdecodeCalls, hrefusal, readBack, if_neg hrole]
  rfl

/-- A message from a tool can be written exactly if it is one result, and any other one exactly if
it has texts, images and the model's calls only; all else fails because the format has no place for
it. A recoverable message comes back with its role: a result as it was, whatever its text and
whether or not the tool failed, and otherwise texts and attachments in order, unless there is but an
empty text, and behind them the tool calls in order. -/
theorem roundTrip_collapsed (m : Message) :
    ((∃ w, encodeMessage m = .ok w) ↔ IsWritable m) ∧
    (∀ e, encodeMessage m = .error e → ∃ what, e = .unsupported .openai what) ∧
    ∀ w, encodeMessage m = .ok w → IsRecoverable m → decodeMessage w = .ok (readBack m) := by
  refine ⟨exists_encodeMessage_iff m, fun e he => exists_of_encodeMessage_eq_error he, ?_⟩
  intro w hw hm
  by_cases hrole : m.role = .tool
  · obtain ⟨r, hcontent, rfl⟩ := (encodeMessage_of_tool hrole).1 hw
    rw [decodeMessage_writtenResult, readBack, if_pos hrole, hrole, hcontent]
  · obtain ⟨hfit, rfl⟩ := (encodeMessage_of_other hrole).1 hw
    exact decodeMessage_written hrole hfit hm

/-- A search for places near a third one. -/
def searchCall : ToolCall :=
  ⟨"c1", "search", .object [("near", .array [.number (.whole 3), .null])]⟩

/-- A call of it between images, one with its bytes and one at an address. -/
def searchMessage : Message where
  role := .assistant
  content := [.text "Compare", .attachment ⟨"image/png", .inline [137, 80, 78, 71]⟩,
    .toolCall searchCall, .attachment ⟨"image/png", .address "https://maps.example/tile.GIF?z=3"⟩]

/-- A document, which no message of this format holds. -/
def documentMessage : Message where
  role := .user
  content := [.text "Sum it up", .attachment ⟨"application/pdf", .inline [37, 80, 68, 70]⟩]

theorem roundTrip_collapsed_searchMessage :
    (IsRecoverable searchMessage ∧ encodeMessage searchMessage = .ok (written searchMessage) ∧
      decodeMessage (written searchMessage) = .ok {
        role := .assistant
        content := [.text "Compare", .attachment ⟨"image/png", .inline [137, 80, 78, 71]⟩,
          .attachment ⟨"image/gif", .address "https://maps.example/tile.GIF?z=3"⟩,
          .toolCall searchCall] }) ∧
      ¬ ∃ w, encodeMessage documentMessage = .ok w := by
  constructor
  · have hprinted : Json.read? searchCall.arguments.toText = some searchCall.arguments := by
      decide +kernel
    have hrecoverable : IsRecoverable searchMessage := by
      refine ⟨?_, ?_, ?_, ?_⟩
      · intro mediaType bytes h
        obtain ⟨rfl, -⟩ : mediaType = "image/png" ∧ bytes = [137, 80, 78, 71] := by
          simpa [searchMessage] using h
        decide
      · intro mediaType uri h
        obtain ⟨-, rfl⟩ : mediaType = "image/png" ∧ uri = "https://maps.example/tile.GIF?z=3" := by
          simpa [searchMessage] using h
        decide
      · intro c hc
        obtain rfl := List.mem_singleton.1 hc
        decide
      · intro c hc v hv
        obtain rfl := List.mem_singleton.1 hc
        exact Option.some.inj (hv.symm.trans hprinted)
    have hwritten : encodeMessage searchMessage = .ok (written searchMessage) := rfl
    have hback := (roundTrip_collapsed searchMessage).2.2 _ hwritten hrecoverable
    have hreadBack : readBack searchMessage = {
        role := .assistant
        content := [.text "Compare", .attachment ⟨"image/png", .inline [137, 80, 78, 71]⟩,
          .attachment ⟨"image/gif", .address "https://maps.example/tile.GIF?z=3"⟩,
          .toolCall searchCall] } := by
      decide +kernel
    rw [hreadBack] at hback
    exact ⟨hrecoverable, hwritten, hback⟩
  · rw [(roundTrip_collapsed documentMessage).1]
    intro hwritable
    rcases hwritable.ofOthers (by decide)
      (.attachment ⟨"application/pdf", .inline [37, 80, 68, 70]⟩) (by simp [documentMessage]) with
      ⟨s, hs⟩ | ⟨a, himage, ha⟩ | ⟨-, c, hc⟩
    · cases hs
    · obtain rfl := Block.attachment.inj ha
      exact absurd himage (by decide +kernel)
    · cases hc

end ChatWire.OpenAI
