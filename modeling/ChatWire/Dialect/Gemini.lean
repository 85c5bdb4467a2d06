import ChatWire.Dialect.Basic
import ChatWire.Message.CallIds
import ChatWire.Message.Outcome

/-!
# The Gemini format

A message is an array of parts, and the model's role is `model`. Reading accepts every member under
two spellings, with underscores and in camel case. A part may bear a thought signature: on reasoning
it belongs to the block itself, on any other part it goes into the message's metadata under
`signatureKey`. There a bare string stands for one signature at the place where the writer would put
it anyway, the first tool call or else the first block that is not reasoning; otherwise an object
tells the place of every signature.
-/

namespace ChatWire.Gemini

open Dialect

/-- The metadata key of thought signatures. -/
def signatureKey : String := "thought_signature"

/-- A member under its spelling with underscores, or else under its spelling in camel case. -/
def field? (value : Json) (underscored camel : String) : Option Json :=
  (value.get? underscored).or (value.get? camel)

/-- The text of a member under either spelling. -/
def textField? (value : Json) (underscored camel : String) : Option String :=
  (field? value underscored camel).bind Json.text?

/-- The place of a lone signature: the first tool call, or else the first block that is not
reasoning. -/
def signaturePlace? (content : List Block) : Option Nat :=
  (content.findIdx? Block.isToolCall).or (content.findIdx? fun b => !b.isThinking)

/-! ## Writing -/

/-- An error about something that the format cannot say. -/
def unsupported {α : Type} (what : Unsupported) : Except Error α :=
  .error (.unsupported .gemini what)

/-- The part that holds media. -/
def encodeAttachment (a : Attachment) : Json :=
  match a.source with
  | .inline bytes => .object [("inline_data", .object [
      ("data", .string (Base64.encodeText bytes)), ("mime_type", .string a.mediaType)])]
  | .address uri => .object [("file_data", .object [
      ("file_uri", .string uri), ("mime_type", .string a.mediaType)])]

/-- The part that holds the result of a tool. -/
def encodeToolResult (r : ToolResult) : Json :=
  .object [("function_response", .object [("id", .string r.id), ("name", .string r.name),
    ("response", .object [(if r.isError then "error" else "content", .string r.content)])])]

/-- Writes a block. -/
def encodePart : Block → Except Error Json
  | .text s => .ok (.object [("text", .string s)])
  | .thinking t => .ok (Json.ofMembers [some ("text", .string t.text), some ("thought", .bool true),
      if t.signature.isEmpty then none else some ("thought_signature", .string t.signature)])
  | .attachment a => .ok (encodeAttachment a)
  | .toolCall c => .ok (.object [("function_call", .object [
      ("args", c.arguments), ("id", .string c.id), ("name", .string c.name)])])
  | .toolResult r =>
    if r.name.isEmpty then unsupported (.namelessResult r.id) else .ok (encodeToolResult r)
  | block => unsupported (.blocks block.kindName)

/-- A part with a signature. -/
def sign (signature : String) (part : Json) : Json :=
  part.set "thought_signature" (.string signature)

/-- The number of a place, written in decimal digits; a plus sign may stand before them. -/
def place? (text : String) : Option Nat :=
  let digits := match text.toList with
    | '+' :: rest => rest
    | cs => cs
  let n := digits.foldl (fun n c => n * 10 + (c.toNat - 48)) 0
  if !digits.isEmpty && digits.all Char.isDigit && n < UInt64.size then some n else none

/-- Puts the signature of one entry of the object on the part at its place. Where no part stands, a
part that holds nothing but the signature is put at the end; entries that cannot be read are passed
over. -/
def signAt (parts : List Json) (entry : String × Json) : List Json :=
  match place? entry.1, entry.2 with
  | some place, .string signature =>
    if place < parts.length then parts.modify place (sign signature)
    else parts ++ [.object [("thought_signature", .string signature)]]
  | _, _ => parts

/-- Puts the signatures of the metadata on the parts. -/
def signParts (m : Message) (parts : List Json) : List Json :=
  match m.metadata.find? signatureKey with
  | some (.string signature) =>
    match signaturePlace? m.content with
    | some place => parts.modify place (sign signature)
    | none => parts
  | some (.object entries) => entries.foldl signAt parts
  | _ => parts

/-- Writes a message. -/
def encodeMessage (m : Message) : Except Error Json := do
  let role ← encodeSpeaker .gemini "model" m.role
  let parts ← m.content.mapM encodePart
  return .object [("parts", .array (signParts m parts)), ("role", .string role)]

/-! ## Reading -/

/-- The text of a payload: a string itself, anything else as JSON. -/
def payloadText : Json → String
  | .string s => s
  | other => other.toText

/-- An error about a part. -/
def badPart {α : Type} (part : Json) (description : String) : Except Error α :=
  .error (.malformedValue .gemini (.other description) part)

/-- The attachment of a part with inline media. -/
def decodeInline (part inline : Json) : Except Error Attachment :=
  match textField? inline "mime_type" "mimeType" with
  | none => badPart part "inline_data without mime_type"
  | some mediaType => do
    let bytes ← requireBase64 .gemini (← requireText .gemini inline "data")
    return ⟨mediaType, .inline bytes⟩

/-- The attachment of a part with the address of media. -/
def decodeFile (part file : Json) : Except Error Attachment :=
  match textField? file "file_uri" "fileUri" with
  | none => badPart part "file_data without file_uri"
  | some uri =>
    .ok ⟨(textField? file "mime_type" "mimeType").getD "application/octet-stream", .address uri⟩

/-- The tool call of a part, which gets `freshId` if it comes without an id. -/
def decodeCall (freshId : String) (call : Json) : Except Error ToolCall := do
  let name ← requireText .gemini call "name"
  return ⟨(call.get "id").text?.getD freshId, name, argumentsOf (call.get "args")⟩

/-- The content of a tool's result, and whether the tool failed: what stands alone under `content`
or `error`, or else the whole payload. -/
def decodePayload (payload : Json) : String × Bool :=
  match payload.get? "content", payload.get? "error" with
  | some content, none => (payloadText content, false)
  | none, some error => (payloadText error, true)
  | _, _ => (payload.toText, false)

/-- The tool result of a part. -/
def decodeResponse (response : Json) : Except Error ToolResult := do
  let (content, isError) := decodePayload (response.get "response")
  let name ← requireText .gemini response "name"
  return ⟨response.textOrEmpty "id", name, content, isError⟩

/-- Whether a part is reasoning. -/
def isThought (part : Json) : Bool := (part.get "thought").flag?.getD false

/-- The signature that a part bears. -/
def signature? (part : Json) : Option String :=
  textField? part "thought_signature" "thoughtSignature"

/-- Reads a part, with an id for a call that comes without one; none for a part without known
content. -/
def decodePart (freshId : String) (part : Json) : Except Error (Option Block) :=
  match part.get? "text" with
  | some (.string s) =>
    if isThought part then .ok (some (.thinking ⟨s, (signature? part).getD ""⟩))
    else .ok (some (.text s))
  | some _ => badPart part "text part must be a string"
  | none =>
  match field? part "inline_data" "inlineData" with
  | some inline => do return some (.attachment (← decodeInline part inline))
  | none =>
  match field? part "file_data" "fileData" with
  | some file => do return some (.attachment (← decodeFile part file))
  | none =>
  match field? part "function_call" "functionCall" with
  | some call => do return some (.toolCall (← decodeCall freshId call))
  | none =>
  match field? part "function_response" "functionResponse" with
  | some response => do return some (.toolResult (← decodeResponse response))
  | none => .ok none

/-- Parts read so far: the blocks, and the signatures that are no reasoning's with the places of
their blocks. -/
structure Contents where
  /-- The blocks so far. -/
  blocks : List Block := []
  /-- The signatures so far. -/
  signatures : List (Nat × String) := []

/-- Reads one more part. A part that bears nothing but a signature gives no block, and its signature
belongs to the place of the next one. -/
def Contents.add (ids : CallIds) (c : Contents) (part : Json) : Except Error Contents := do
  let place := c.blocks.length
  let block ← decodePart (ids.ofPlace place) part
  let signature := if isThought part then none else signature? part
  return { blocks := c.blocks ++ block.toList
           signatures := c.signatures ++ signature.toList.map (place, ·) }

/-- The metadata value of signatures, given the place that a lone one would have. -/
def signatureValue? (signatures : List (Nat × String)) (place : Option Nat) : Option Json :=
  let byPlace := Fields.toJson
    (Table.ofList (signatures.map fun s => (toString s.1, Json.string s.2)))
  match signatures with
  | [] => none
  | [(position, signature)] =>
    if some position = place then some (.string signature) else some byPlace
  | _ => some byPlace

/-- The role of a name; a message without one is the model's. -/
def decodeRole (value : Json) : Except Error Role :=
  match (value.get "role").text? with
  | some "user" => .ok .user
  | some "model" | none => .ok .assistant
  | some "function" => .ok .tool
  | some name => .error (.malformedValue .gemini (.unknownRole name) value)

/-- The parts of a message. -/
def decodeParts : Json → Except Error (List Json)
  | .array parts => .ok parts
  | .null => .ok []
  | other => badPart other "parts must be an array"

/-- Reads a message. -/
def decodeMessage (ids : CallIds) (value : Json) : Except Error Message := do
  let role ← decodeRole value
  let parts ← decodeParts (value.get "parts")
  let contents ← parts.foldlM (Contents.add ids) {}
  let content := contents.blocks
  let metadata : Fields := match signatureValue? contents.signatures (signaturePlace? content) with
    | some signatures => Table.empty.insert signatureKey signatures
    | none => .empty
  return {
    role := if role = .user && !content.isEmpty && content.all Block.isToolResult then .tool
      else role
    content
    metadata }

/-- A count under either spelling, zero where there is none. -/
def countField (value : Json) (underscored camel : String) : UInt64 :=
  ((field? value underscored camel).bind Json.count?).getD 0

/-- The token counts of a reply. Cached tokens are part of the prompt, and reasoning is counted
apart from the rest of the output. -/
def decodeUsage (usage : Json) : Except Error TokenUsage := do
  let cached := countField usage "cached_content_token_count" "cachedContentTokenCount"
  let output ← addCounts (countField usage "candidates_token_count" "candidatesTokenCount")
    (countField usage "thoughts_token_count" "thoughtsTokenCount")
  return {
    input := saturatingSub (countField usage "prompt_token_count" "promptTokenCount") cached
    output
    cacheRead := cached }

/-- Why a prompt was blocked, where the provider says so. -/
def blockReason? (value : Json) : Option Json := do
  let feedback ← field? value "prompt_feedback" "promptFeedback"
  field? feedback "block_reason" "blockReason"

/-- Reads a reply. A blocked prompt has no candidate and gives a reply without content. -/
def decodeReply (ids : CallIds) (body : Bytes) : Except Error Reply := do
  let value ← parseBody .gemini body
  if let some error := value.get? "error" then
    throw (.reported ((error.get "status").text?.getD "error") (error.textOrEmpty "message"))
  let usage ← ((field? value "usage_metadata" "usageMetadata").map decodeUsage).getD (pure {})
  match (value.get "candidates").first? with
  | none =>
    match blockReason? value with
    | some reason =>
      let message : Message := { role := .assistant, stopReason := some .blocked }
      return ⟨message.setMetadata "block_reason" reason, usage⟩
    | none => badPart value "response has no candidates"
  | some candidate =>
    let message ← match candidate.get? "content" with
      | some content => decodeMessage ids content
      | none => pure { role := .assistant }
    let stopReason := (textField? candidate "finish_reason" "finishReason").map
      fun word => StopReason.classifyFor .gemini word message
    return ⟨{ message with stopReason }, usage⟩

end ChatWire.Gemini
