import ChatWire.Dialect.Basic
import ChatWire.Message.Outcome

/-!
# The Anthropic format

A message is an array of typed blocks. Results of tools travel in messages of the user; a message of
the user in which all content is results of tools reads back as a message from a tool. A cache mark
is a member of the block that it ends with, and cache counts are a member of the message. A result
bears the id of its call and not the tool's name.
-/

namespace ChatWire.Anthropic

open Dialect

/-! ## Writing -/

/-- An error about something that the format cannot say. -/
def unsupported {α : Type} (what : Unsupported) : Except Error α :=
  .error (.unsupported .anthropic what)

/-- The member that ends a cached stretch. -/
def encodeCacheControl (lifetime : Option CacheLifetime) : Json :=
  Json.ofMembers [Json.member? "ttl" (lifetime.map fun l => .string l.name),
    some ("type", .string "ephemeral")]

/-- The source of media. -/
def encodeSource (a : Attachment) : Json :=
  match a.source with
  | .inline bytes => .object [("data", .string (Base64.encodeText bytes)),
      ("media_type", .string a.mediaType), ("type", .string "base64")]
  | .address uri => .object [("type", .string "url"), ("url", .string uri)]

/-- An attachment: images and documents have a form, other media have none. -/
def encodeAttachment (a : Attachment) : Except Error Json :=
  match a.mediaClass with
  | .image => .ok (.object [("source", encodeSource a), ("type", .string "image")])
  | .document => .ok (.object [("source", encodeSource a), ("type", .string "document")])
  | .video | .audio => unsupported (.attachments a.mediaType)

/-- The result of a tool; the mark of failure stands only on failures. -/
def encodeToolResult (r : ToolResult) : Json :=
  Json.ofMembers [some ("content", .string r.content),
    if r.isError then some ("is_error", .bool true) else none,
    some ("tool_use_id", .string r.id), some ("type", .string "tool_result")]

/-- A message while it is written: its parts so far, and the cache counts if they came. -/
structure Draft where
  /-- The parts so far. -/
  parts : List Json := []
  /-- The cache counts. -/
  usage : Option CacheUsage := none

/-- A draft with one more part. -/
def Draft.push (d : Draft) (part : Json) : Draft := { d with parts := d.parts ++ [part] }

/-- Writes one more block into a draft. -/
def Draft.add (d : Draft) : Block → Except Error Draft
  | .cacheControl lifetime =>
    match d.parts.getLast? with
    | none => unsupported .cacheControlFirst
    | some part =>
      if (part.get? "cache_control").isSome then unsupported .cacheControlTwice
      else
        .ok { d with parts := d.parts.dropLast
                ++ [part.set "cache_control" (encodeCacheControl lifetime)] }
  | .usage usage =>
    if d.usage.isSome then unsupported .usageTwice else .ok { d with usage := some usage }
  | .text s => .ok (d.push (.object [("text", .string s), ("type", .string "text")]))
  | .attachment a => do return d.push (← encodeAttachment a)
  | .toolCall c => .ok (d.push (.object [("id", .string c.id), ("input", c.arguments),
      ("name", .string c.name), ("type", .string "tool_use")]))
  | .toolResult r => .ok (d.push (encodeToolResult r))
  | .thinking t => .ok (d.push (.object [("signature", .string t.signature),
      ("thinking", .string t.text), ("type", .string "thinking")]))
  | .redactedThinking data =>
    .ok (d.push (.object [("data", .string data), ("type", .string "redacted_thinking")]))

/-- Cache counts as a member of the message. -/
def encodeUsage (u : CacheUsage) : Json :=
  .object [("cache_creation_input_tokens", Json.ofCount u.created),
    ("cache_read_input_tokens", Json.ofCount u.read)]

/-- Writes a message. -/
def encodeMessage (m : Message) : Except Error Json := do
  let role ← encodeSpeaker .anthropic "assistant" m.role
  let draft ← m.content.foldlM Draft.add {}
  return Json.ofMembers [some ("content", .array draft.parts), some ("role", .string role),
    Json.member? "usage" (draft.usage.map encodeUsage)]

/-! ## Reading -/

/-- A member that has to be a string. -/
def textOf (value : Json) (key : String) : Except Error String := requireText .anthropic value key

/-- An attachment from its source. -/
def decodeSource (source : Json) (fallback : String) : Except Error Attachment := do
  match ← textOf source "type" with
  | "base64" =>
    let bytes ← requireBase64 .anthropic (← textOf source "data")
    return ⟨← textOf source "media_type", .inline bytes⟩
  | "url" =>
    let url ← textOf source "url"
    return ⟨mediaTypeOfPath url fallback, .address url⟩
  | "text" =>
    let data ← textOf source "data"
    return ⟨(source.get "media_type").text?.getD "text/plain", .inline (Bytes.ofString data)⟩
  | kind => .error (.malformedValue .anthropic (.unknownSource kind) source)

/-- The texts among the parts of a tool's result. -/
def resultTexts : List Json → Except Error (List String)
  | [] => .ok []
  | part :: rest => do
    if (part.get "type").text? = some "text" then
      let text ← textOf part "text"
      return text :: (← resultTexts rest)
    else resultTexts rest

/-- The content of a tool's result. -/
def decodeResultContent : Json → Except Error String
  | .string s => .ok s
  | .null => .ok ""
  | .array parts => do return "\n".intercalate (← resultTexts parts)
  | other => .error (.malformedValue .anthropic
      (.other "tool_result content must be a string or an array") other)

/-- A block; none for a block of an unknown type. -/
def decodeBlock (block : Json) : Except Error (Option Block) := do
  match ← textOf block "type" with
  | "text" => return some (.text (← textOf block "text"))
  | "image" => return some (.attachment (← decodeSource (block.get "source") "image/jpeg"))
  | "document" => return some (.attachment (← decodeSource (block.get "source") "application/pdf"))
  | "tool_use" =>
    let id ← textOf block "id"
    let name ← textOf block "name"
    return some (.toolCall ⟨id, name, argumentsOf (block.get "input")⟩)
  | "tool_result" =>
    let id ← textOf block "tool_use_id"
    let content ← decodeResultContent (block.get "content")
    return some (.toolResult ⟨id, "", content, (block.get "is_error").flag?.getD false⟩)
  | "thinking" =>
    let text ← textOf block "thinking"
    return some (.thinking ⟨text, block.textOrEmpty "signature"⟩)
  | "redacted_thinking" => return some (.redactedThinking (← textOf block "data"))
  | _ => return none

/-- The lifetime that a cache mark asks for. -/
def decodeCacheControl (mark : Json) : Option CacheLifetime :=
  (mark.get "ttl").text?.bind CacheLifetime.ofName?

/-- Blocks in order, each followed by its cache mark if it has one. -/
def decodeBlocks : List Json → Except Error (List Block)
  | [] => .ok []
  | block :: rest => do
    match ← decodeBlock block with
    | none => decodeBlocks rest
    | some decoded =>
      let mark := (block.get? "cache_control").map fun mark =>
        .cacheControl (decodeCacheControl mark)
      return decoded :: mark.toList ++ (← decodeBlocks rest)

/-- The content of a message. -/
def decodeContent : Json → Except Error (List Block)
  | .string s => .ok [.text s]
  | .array blocks => decodeBlocks blocks
  | .null => .ok []
  | other => .error (.malformedValue .anthropic
      (.other "content must be a string or an array") other)

/-- The cache counts of a message, where one of them is reported. -/
def decodeCacheUsage? (value : Json) : Option CacheUsage := do
  let usage ← value.get? "usage"
  if (usage.get? "cache_creation_input_tokens").isSome
      || (usage.get? "cache_read_input_tokens").isSome then
    some ⟨usage.countOrZero "cache_creation_input_tokens",
      usage.countOrZero "cache_read_input_tokens"⟩
  else none

/-- Whether there is content and all of it is results of tools. -/
def onlyToolResults (content : List Block) : Bool :=
  let blocks := content.filter fun b => !b.isAnnotation
  !blocks.isEmpty && blocks.all Block.isToolResult

/-- Reads a message. -/
def decodeMessage (value : Json) : Except Error Message := do
  let role ← match ← textOf value "role" with
    | "user" => pure Role.user
    | "assistant" => pure Role.assistant
    | name => .error (.malformedValue .anthropic (.unknownRole name) value)
  let blocks ← decodeContent (value.get "content")
  let content := blocks ++ (decodeCacheUsage? value).toList.map .usage
  let metadata : Fields := match (value.get "stop_sequence").text? with
    | some sequence => Table.empty.insert "stop_sequence" (.string sequence)
    | none => .empty
  return {
    role := if role = .user && onlyToolResults content then .tool else role
    content
    stopReason := (value.get "stop_reason").text?.map (.classify .anthropic)
    metadata }

/-- The token counts of a reply. -/
def decodeUsage (usage : Json) : TokenUsage where
  input := usage.countOrZero "input_tokens"
  output := usage.countOrZero "output_tokens"
  cacheCreated := usage.countOrZero "cache_creation_input_tokens"
  cacheRead := usage.countOrZero "cache_read_input_tokens"

/-- Reads a reply. -/
def decodeReply (body : Bytes) : Except Error Reply := do
  let value ← parseBody .anthropic body
  if value.get "type" = .string "error" then
    let error := value.get "error"
    throw (.reported ((error.get "type").text?.getD "error") (error.textOrEmpty "message"))
  return ⟨← decodeMessage value, decodeUsage (value.get "usage")⟩

end ChatWire.Anthropic
