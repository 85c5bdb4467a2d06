import ChatWire.Proofs.Dialect.OpenAIRoundTrip

/-!
# Results of tools, read and written again in the chat-completions format

Reading a marked text takes away the mark or one backslash, whatever stands behind, and writing puts
back what was taken (`OpenAI.markResult_unmarkResult`). So every message from a tool is written
again as it was sent, and no two texts are read as one result (`OpenAI.rewriting_keeps_results`).
-/

namespace ChatWire.OpenAI

open Dialect

/-- A text that reads as marked and does not begin with the mark begins with a backslash. -/
theorem exists_cons_of_readsAsMarked {text : List Char} (hmarked : readsAsMarked text = true)
    (hplain : ¬ errorMark.isPrefixOf text = true) :
    ∃ rest, text = '\\' :: rest ∧ readsAsMarked rest = true := by
  cases text with
  | nil => cases hmarked
  | cons first rest =>
    by_cases hfirst : first = '\\'
    · subst hfirst
      exact ⟨rest, rfl, (readsAsMarked_cons rest).symm.trans hmarked⟩
    · rw [readsAsMarked, List.dropWhile_cons_of_neg (by simpa using hfirst)] at hmarked
      exact absurd hmarked hplain

theorem markResult_unmarkResult (text : List Char) :
    markResult (unmarkResult text).1 (unmarkResult text).2 = text := by
  rw [unmarkResult]
  split
  case isTrue hprefix =>
    obtain ⟨rest, rfl⟩ := List.isPrefixOf_iff_prefix.1 hprefix
    rw [List.drop_left, markResult, if_pos rfl]
  case isFalse hplain =>
    split
    case isTrue hmarked =>
      obtain ⟨rest, rfl, hrest⟩ := exists_cons_of_readsAsMarked hmarked hplain
      rw [List.drop_one, List.tail_cons, markResult, if_neg Bool.false_ne_true, if_pos hrest]
    case isFalse hmarked => rw [markResult, if_neg Bool.false_ne_true, if_neg hmarked]

theorem unmarkResult_injective : Function.Injective unmarkResult := by
  intro text text' h
  rw [← markResult_unmarkResult text, h, markResult_unmarkResult]

/-- A message from a tool with a text for its content. A name that is no string is none, and other
members do not matter. -/
structure IsToolMessage (value : Json) (id : String) (name : Option String) (text : String) :
    Prop where
  role : value.get "role" = .string "tool"
  id : value.get "tool_call_id" = .string id
  name : (value.get "name").text? = name
  content : value.get "content" = .string text

/-- A message from a tool as it is written. -/
def toolMessage (id : String) (name : Option String) (text : String) : Json :=
  Json.ofMembers [some ("content", .string text), Json.member? "name" (name.map .string),
    some ("role", .string "tool"), some ("tool_call_id", .string id)]

/-- The result that is read of a message from a tool. -/
def readResult (id : String) (name : Option String) (text : String) : ToolResult where
  id := id
  name := name.getD ""
  content := String.ofList (unmarkResult text.toList).1
  isError := (unmarkResult text.toList).2

theorem ofToolResult_injective : Function.Injective Message.ofToolResult := by
  intro r r' h
  have hcontent : [Block.toolResult r] = [.toolResult r'] := congrArg Message.content h
  exact Block.toolResult.inj (List.cons.inj hcontent).1

variable {value : Json} {id text : String} {name : Option String}

theorem IsToolMessage.decodeMessage_eq (h : IsToolMessage value id name text) :
    decodeMessage value = .ok (.ofToolResult (readResult id name text)) := by
  have hrole : decodeRole value = .ok .tool := by
    have hname : textOf value "role" = .ok "tool" := requireText_eq_ok h.role
    rw [decodeRole, hname]
    rfl
  have hid : textOf value "tool_call_id" = .ok id := requireText_eq_ok h.id
  have hname : value.textOrEmpty "name" = name.getD "" := by rw [Json.textOrEmpty, h.name]
  rw [decodeMessage, hrole]
  show decodeToolMessage value = _
  rw [decodeToolMessage, h.content, hid, hname]
  rfl

theorem encodeMessage_readResult (id : String) (name : Option String) (text : String) :
    encodeMessage (.ofToolResult (readResult id name text))
      = .ok (toolMessage id (name.filter (· ≠ "")) text) := by
  have hmark : markResult (readResult id name text).content.toList
      (readResult id name text).isError = text.toList := by
    rw [readResult, String.toList_ofList, markResult_unmarkResult]
  have hname : (if (name.getD "").isEmpty then none else some ("name", Json.string (name.getD "")))
      = Json.member? "name" ((name.filter (· ≠ "")).map .string) := by
    cases name with
    | none => rfl
    | some n => by_cases hn : n = "" <;> simp [hn, Json.member?, Option.filter_some]
  refine (encodeMessage_of_tool rfl).2 ⟨_, rfl, ?_⟩
  rw [writtenResult, hmark, String.ofList_toList, toolMessage, ← hname]
  rfl

/-- A message from a tool is read whatever its text is, and is written again with the same text, the
same id and the same name, where an empty name is none. Messages with different texts are read as
results that differ in their content or in whether they failed. -/
theorem rewriting_keeps_results (h : IsToolMessage value id name text) :
    ∃ r, decodeMessage value = .ok (.ofToolResult r) ∧ r.id = id ∧ r.name = name.getD "" ∧
      encodeMessage (.ofToolResult r) = .ok (toolMessage id (name.filter (· ≠ "")) text) ∧
      ∀ value' id' name' text' r', IsToolMessage value' id' name' text' →
        decodeMessage value' = .ok (.ofToolResult r') →
        text ≠ text' → (r.content, r.isError) ≠ (r'.content, r'.isError) := by
  refine ⟨readResult id name text, h.decodeMessage_eq, rfl, rfl, encodeMessage_readResult .., ?_⟩
  intro value' id' name' text' r' h' hread' hne hsame
  obtain rfl := ofToolResult_injective (Except.ok.inj (h'.decodeMessage_eq.symm.trans hread'))
  obtain ⟨hcontent, hfailed⟩ := Prod.mk.inj hsame
  have hunmark : unmarkResult text.toList = unmarkResult text'.toList :=
    Prod.ext (String.ofList_injective hcontent) hfailed
  exact hne (String.toList_injective (unmarkResult_injective hunmark))

/-- A log that begins with the mark behind two backslashes, under an empty name. -/
def loggedMessage : Json :=
  .object [("content", .string "\\\\[error] [error] down"), ("name", .string ""),
    ("role", .string "tool"), ("tool_call_id", .string "c1")]

theorem rewriting_keeps_results_logged :
    IsToolMessage loggedMessage "c1" (some "") "\\\\[error] [error] down" ∧
      ∃ r, r = ⟨"c1", "", "\\[error] [error] down", false⟩ ∧
        decodeMessage loggedMessage = .ok (.ofToolResult r) ∧
        encodeMessage (.ofToolResult r)
          = .ok (toolMessage "c1" none "\\\\[error] [error] down") := by
  have hlogged : IsToolMessage loggedMessage "c1" (some "") "\\\\[error] [error] down" :=
    ⟨rfl, rfl, rfl, rfl⟩
  obtain ⟨r, hread, hid, hname, hwritten, -⟩ := rewriting_keeps_results hlogged
  have hsame := ofToolResult_injective (Except.ok.inj (hread.symm.trans hlogged.decodeMessage_eq))
  exact ⟨hlogged, r, hsame.trans (by decide), hread, hwritten⟩

end ChatWire.OpenAI
