import ChatWire.Conversation
import ChatWire.Proofs.Text.Base64

/-!
# Reading what was saved

Every message comes back from its stored form as it was, and so does every conversation
(`saved_comes_back`). Each kind of record has its own lemma; what a record leaves out is what the
reader takes for missing.
-/

namespace ChatWire

open Json

/-! ## Names -/

theorem Role.ofName?_name (r : Role) : Role.ofName? r.name = some r := by
  cases r <;> rfl

theorem StopReason.ofName?_name (r : StopReason) : StopReason.ofName? r.name = some r := by
  cases r <;> rfl

theorem CacheLifetime.ofName?_name (l : CacheLifetime) : CacheLifetime.ofName? l.name = some l := by
  cases l <;> rfl

/-! ## Parts of a message -/

theorem listOf?_map {α : Type} {write : α → Json} {read : Json → Option α}
    (h : ∀ x, read (write x) = some x) (xs : List α) :
    listOf? read (.array (xs.map write)) = some xs := by
  rw [listOf?]
  induction xs with
  | nil => rfl
  | cons x rest ih =>
    rw [List.map_cons, List.mapM_cons, h, ih]
    rfl

theorem MediaSource.ofSaved?_saved (s : MediaSource) : MediaSource.ofSaved? s.saved = some s := by
  cases s with
  | inline bytes =>
    rw [saved, ofSaved?, Base64.decodeText?_encodeText]
    rfl
  | address uri => rfl

theorem Attachment.ofSaved?_saved (a : Attachment) : Attachment.ofSaved? a.saved = some a := by
  have hsource := a.source.ofSaved?_saved
  show ((MediaSource.ofSaved? a.source.saved).bind fun s => some (Attachment.mk a.mediaType s)) = _
  rw [hsource]
  rfl

theorem ToolCall.ofSaved?_saved (c : ToolCall) : ToolCall.ofSaved? c.saved = some c := rfl

theorem ToolResult.ofSaved?_saved (r : ToolResult) : ToolResult.ofSaved? r.saved = some r := rfl

theorem Thinking.ofSaved?_saved (t : Thinking) : Thinking.ofSaved? t.saved = some t := rfl

theorem CacheUsage.ofSaved?_saved (u : CacheUsage) : CacheUsage.ofSaved? u.saved = some u := rfl

theorem cacheControlOfSaved?_saved (l : Option CacheLifetime) :
    cacheControlOfSaved? laxName? (Block.cacheControl l).savedData = some l := by
  cases l with
  | none => rfl
  | some l =>
    show ((CacheLifetime.ofName? l.name).map some) = _
    rw [CacheLifetime.ofName?_name]
    rfl

theorem Block.ofSavedData?_savedData (b : Block) :
    Block.ofSavedData? laxName? b.savedKind b.savedData = some b := by
  cases b with
  | text s => rfl
  | attachment a => exact congrArg (Option.map Block.attachment) a.ofSaved?_saved
  | toolCall c => rfl
  | toolResult r => rfl
  | thinking t => rfl
  | redactedThinking s => rfl
  | cacheControl l => exact congrArg (Option.map Block.cacheControl) (cacheControlOfSaved?_saved l)
  | usage u => rfl

theorem Block.ofSaved?_saved (b : Block) : Block.ofSaved? b.saved = some b := by
  show Block.ofSavedData? laxName? b.savedKind b.savedData = _
  exact b.ofSavedData?_savedData

/-! ## Messages -/

theorem Fields.ofSaved?_toJson (fields : Fields) : Fields.ofSaved? fields.toJson = some fields := by
  rw [Fields.toJson, Fields.ofSaved?, Table.ofList_entries]

/-- What is read of a message's record of which the metadata and the stop reason may be left out. -/
theorem Message.ofSaved?_ofMembers (content role count : Json) (metadata stop : Option Json) :
    Message.ofSaved? (ofMembers [some ("content", content), member? "metadata" metadata,
      some ("role", role), member? "stop_reason" stop, some ("token_count", count)]) = do
    let role ← role.name?.bind Role.ofName?
    let content ← listOf? Block.ofSaved? content
    let tokenCount ← count.count?
    let stopReason ← stop.elim (some none) (nullable fun r => r.name?.bind StopReason.ofName?)
    let metadata ← metadata.elim (some .empty) Fields.ofSaved?
    return { role, content, tokenCount, stopReason, metadata } := by
  cases metadata <;> cases stop <;> rfl

theorem Message.saved_eq (m : Message) :
    m.saved = ofMembers [some ("content", .array (m.content.map Block.saved)),
      member? "metadata" (if m.metadata.isEmpty then none else some m.metadata.toJson),
      some ("role", .string m.role.name),
      member? "stop_reason" (m.stopReason.map fun r => .string r.name),
      some ("token_count", ofCount m.tokenCount)] := by
  rw [saved]
  split <;> rfl

theorem Message.ofSaved?_saved (m : Message) : Message.ofSaved? m.saved = some m := by
  have hrole : (Json.string m.role.name).name?.bind Role.ofName? = some m.role :=
    m.role.ofName?_name
  have hcontent := listOf?_map Block.ofSaved?_saved m.content
  have hstop : (m.stopReason.map fun r => Json.string r.name).elim (some none)
      (nullable fun r => r.name?.bind StopReason.ofName?) = some m.stopReason := by
    cases m.stopReason with
    | none => rfl
    | some r => exact congrArg (Option.map some) r.ofName?_name
  have hmetadata : (if m.metadata.isEmpty then none else some m.metadata.toJson).elim
      (some .empty) Fields.ofSaved? = some m.metadata := by
    split
    case isTrue hempty => exact congrArg some (Table.ext (List.isEmpty_iff.1 hempty).symm)
    case isFalse => exact m.metadata.ofSaved?_toJson
  rw [saved_eq, ofSaved?_ofMembers, hrole, hcontent, hstop, hmetadata]
  rfl

/-- Every message is read from its stored form as it was, with the bytes of its attachments, its
token count, its stop reason and its metadata, and so is every conversation. -/
theorem saved_comes_back :
    (∀ m : Message, Message.ofSaved? m.saved = some m) ∧
    ∀ c : Conversation, Conversation.ofSaved? c.saved = some c := by
  refine ⟨Message.ofSaved?_saved, fun c => ?_⟩
  rw [Conversation.saved, Conversation.ofSaved?, listOf?_map Message.ofSaved?_saved]
  rfl

end ChatWire
