import ChatWire.Dialect.Basic
import ChatWire.Message.Outcome

/-!
# The chat-completions format

Text and images are the content of a message, tool calls stand beside it with their arguments as
JSON text, and every result of a tool is a message of its own. Such a message has no place for
failure, so a failed result is marked in its text; a successful one that would read as marked gets
one more backslash in front, which reading takes away again.
-/

namespace ChatWire.OpenAI

open Dialect

/-! ## Marked results -/

/-- The mark of a failed result. -/
def errorMark : List Char := ['[', 'e', 'r', 'r', 'o', 'r', ']', ' ']

/-- Whether a text is the mark behind any number of backslashes. -/
def readsAsMarked (text : List Char) : Bool :=
  errorMark.isPrefixOf (text.dropWhile (· == '\\'))

/-- The text of a result with its failure marked. -/
def markResult (content : List Char) (isError : Bool) : List Char :=
  if isError then errorMark ++ content
  else if readsAsMarked content then '\\' :: content
  else content

/-- The content and the failure of a marked text. -/
def unmarkResult (text : List Char) : List Char × Bool :=
  if errorMark.isPrefixOf text then (text.drop errorMark.length, true)
  else if readsAsMarked text then (text.drop 1, false)
  else (text, false)

/-! ## Writing -/

/-- An error about something that the format cannot say. -/
def unsupported {α : Type} (what : Unsupported) : Except Error α :=
  .error (.unsupported .openai what)

/-- The part that shows an image. -/
def encodeImage (a : Attachment) : Except Error Json :=
  if a.mediaClass = .image then
    let url := match a.source with
      | .inline bytes => "data:" ++ a.mediaType ++ ";base64," ++ Base64.encodeText bytes
      | .address uri => uri
    .ok (.object [("image_url", .object [("url", .string url)]), ("type", .string "image_url")])
  else unsupported (.attachments a.mediaType)

/-- The part that holds a text. -/
def textPart (s : String) : Json := .object [("text", .string s), ("type", .string "text")]

/-- A tool call; its arguments are JSON text. -/
def encodeToolCall (c : ToolCall) : Json :=
  .object [
    ("function", .object [("arguments", .string c.arguments.toText), ("name", .string c.name)]),
    ("id", .string c.id), ("type", .string "function")]

/-- A message while it is written. -/
structure Draft where
  /-- The parts of the content so far. -/
  parts : List Json := []
  /-- The tool calls so far. -/
  calls : List Json := []

/-- Writes one more block into a draft for a message of a role. -/
def Draft.add (role : Role) (d : Draft) : Block → Except Error Draft
  | .text s => .ok { d with parts := d.parts ++ [textPart s] }
  | .attachment a => do return { d with parts := d.parts ++ [← encodeImage a] }
  | .toolCall c =>
    if role = .assistant then .ok { d with calls := d.calls ++ [encodeToolCall c] }
    else unsupported (.toolCallsOn role)
  | .toolResult _ => unsupported (.toolResultsOn role)
  | block => unsupported (.blocks block.kindName)

/-- The content of a message: nothing beside tool calls, a lone text as a string, anything else as
parts. -/
def Draft.content (d : Draft) : Json :=
  match d.parts with
  | [] => if d.calls.isEmpty then .string "" else .null
  | [part] => if part.get "type" = .string "text" then part.get "text" else .array [part]
  | parts => .array parts

/-- Writes a message from a tool, which has to be one result and nothing else. -/
def encodeToolMessage (m : Message) : Except Error Json :=
  match m.content with
  | [.toolResult r] =>
    .ok (Json.ofMembers [
      some ("content", .string (String.ofList (markResult r.content.toList r.isError))),
      if r.name.isEmpty then none else some ("name", .string r.name),
      some ("role", .string "tool"), some ("tool_call_id", .string r.id)])
  | _ => unsupported .notOneToolResult

/-- Writes a message. -/
def encodeMessage (m : Message) : Except Error Json :=
  if m.role = .tool then encodeToolMessage m
  else do
    let draft ← m.content.foldlM (Draft.add m.role) {}
    return Json.ofMembers [some ("content", draft.content), some ("role", .string m.role.name),
      if draft.calls.isEmpty then none else some ("tool_calls", .array draft.calls)]

/-! ## Reading -/

/-- A member that has to be a string. -/
def textOf (value : Json) (key : String) : Except Error String := requireText .openai value key

/-- An error about a value. -/
def bad {α : Type} (value : Json) (description : String) : Except Error α :=
  .error (.malformedValue .openai (.other description) value)

/-- The media type and the payload of a data address, behind its scheme. -/
def splitDataUrl (part : Json) (rest : List Char) : Except Error (String × String) :=
  let header := rest.takeWhile (· != ',')
  let coding := ";base64".toList
  if header.length = rest.length then bad part "data URL without payload"
  else if coding.isSuffixOf header then
    .ok (String.ofList (header.take (header.length - coding.length)),
      String.ofList (rest.drop (header.length + 1)))
  else bad part "only base64 data URLs are supported"

/-- The attachment of a part that shows an image. -/
def decodeImage (part : Json) : Except Error Attachment := do
  let url ← match part.get "image_url" with
    | .string url => pure url
    | object => textOf object "url"
  let scheme := "data:".toList
  if scheme.isPrefixOf url.toList then
    let (mediaType, data) ← splitDataUrl part (url.toList.drop scheme.length)
    return ⟨mediaType, .inline (← requireBase64 .openai data)⟩
  else return ⟨mediaTypeOfPath url "image/jpeg", .address url⟩

/-- The blocks of content parts; parts of other types are passed over. -/
def decodeParts : List Json → Except Error (List Block)
  | [] => .ok []
  | part :: rest => do
    match (part.get "type").text? with
    | some "text" =>
      let text ← textOf part "text"
      return .text text :: (← decodeParts rest)
    | some "image_url" =>
      let image ← decodeImage part
      return .attachment image :: (← decodeParts rest)
    | _ => decodeParts rest

/-- The blocks of the content. -/
def decodeContent : Json → Except Error (List Block)
  | .null => .ok []
  | .string s => .ok (if s.isEmpty then [] else [.text s])
  | .array parts => decodeParts parts
  | other => bad other "content must be a string or array"

/-- A tool call. Arguments that are missing or empty stand for none. -/
def decodeToolCall (call : Json) : Except Error ToolCall := do
  let function := call.get "function"
  let arguments ← match (function.get "arguments").text? with
    | none | some "" => pure Json.emptyObject
    | some raw => match Json.read? raw with
      | some arguments => pure arguments
      | none => .error (.malformed .openai .arguments raw)
  let id ← textOf call "id"
  let name ← textOf function "name"
  return ⟨id, name, arguments⟩

/-- The text of a tool's result. -/
def resultText : Json → Except Error String
  | .string s => .ok s
  | .array parts => .ok ("\n".intercalate (parts.filterMap fun part => (part.get "text").text?))
  | .null => .ok ""
  | other => bad other "invalid tool content"

/-- Reads a message from a tool. -/
def decodeToolMessage (value : Json) : Except Error Message := do
  let raw ← resultText (value.get "content")
  let (content, isError) := unmarkResult raw.toList
  let id ← textOf value "tool_call_id"
  return .ofToolResult ⟨id, value.textOrEmpty "name", String.ofList content, isError⟩

/-- The tool calls of a message, which only the model makes. -/
def decodeToolCalls (role : Role) (value : Json) : Except Error (List ToolCall) :=
  match value.present? "tool_calls" with
  | none => .ok []
  | some calls =>
    if role != .assistant then bad value "tool_calls on a non-assistant message"
    else match calls with
      | .array calls => calls.mapM decodeToolCall
      | _ => bad value "tool_calls must be an array"

/-- The role of a name. -/
def decodeRole (value : Json) : Except Error Role := do
  match ← textOf value "role" with
  | "system" | "developer" => return .system
  | "user" => return .user
  | "assistant" => return .assistant
  | "tool" => return .tool
  | name => .error (.malformedValue .openai (.unknownRole name) value)

/-- Reads a message. -/
def decodeMessage (value : Json) : Except Error Message := do
  let role ← decodeRole value
  if role = .tool then decodeToolMessage value
  else if (value.present? "tool_call_id").isSome then
    bad value "tool_call_id on a non-tool message"
  else
    let blocks ← decodeContent (value.get "content")
    let calls ← decodeToolCalls role value
    let metadata : Fields := match (value.get "refusal").text? with
      | some refusal => Table.empty.insert "refusal" (.string refusal)
      | none => .empty
    return { role, content := blocks ++ calls.map .toolCall, metadata }

/-- The token counts of a reply. Cached tokens are part of the prompt. -/
def decodeUsage (usage : Json) : TokenUsage :=
  let cached := (usage.get "prompt_tokens_details").countOrZero "cached_tokens"
  { input := saturatingSub (usage.countOrZero "prompt_tokens") cached
    output := usage.countOrZero "completion_tokens"
    cacheRead := cached }

/-- Reads a reply. -/
def decodeReply (body : Bytes) : Except Error Reply := do
  let value ← parseBody .openai body
  if let some error := value.present? "error" then
    throw (.reported ((error.get "type").text?.getD "error") (error.textOrEmpty "message"))
  match (value.get "choices").first? with
  | none => bad value "response has no choices"
  | some choice =>
    let message ← decodeMessage (choice.get "message")
    let stopReason := (choice.get "finish_reason").text?.map (.classify .openai)
    return ⟨{ message with stopReason }, decodeUsage (value.get "usage")⟩

end ChatWire.OpenAI
