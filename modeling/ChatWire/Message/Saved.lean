import ChatWire.Json.Record
import ChatWire.Message.Basic
import ChatWire.Text.Base64

/-!
# Saved messages

The stored form of messages as JSON records. A block is a record of two members, its kind and its
data. `Message.saved` writes the form, `Message.ofSaved?` reads it; members that have a default may
be missing, all others have to be there and of their type.
-/

namespace ChatWire

open Json

/-! ## Writing -/

/-- The stored form of media. -/
def MediaSource.saved : MediaSource → Json
  | .inline bytes => .object [("inline", .string (Base64.encodeText bytes))]
  | .address uri => .object [("uri", .string uri)]

/-- The stored form of an attachment. -/
def Attachment.saved (a : Attachment) : Json :=
  .object [("mime_type", .string a.mediaType), ("source", a.source.saved)]

/-- The stored form of a tool call. -/
def ToolCall.saved (c : ToolCall) : Json :=
  .object [("arguments", c.arguments), ("id", .string c.id), ("name", .string c.name)]

/-- The stored form of a tool result. -/
def ToolResult.saved (r : ToolResult) : Json :=
  .object [("content", .string r.content), ("id", .string r.id), ("is_error", .bool r.isError),
    ("name", .string r.name)]

/-- The stored form of reasoning. -/
def Thinking.saved (t : Thinking) : Json :=
  .object [("signature", .string t.signature), ("text", .string t.text)]

/-- The stored form of cache counts. -/
def CacheUsage.saved (u : CacheUsage) : Json :=
  .object [("cache_creation_input_tokens", ofCount u.created),
    ("cache_read_input_tokens", ofCount u.read)]

/-- The stored form of token counts. -/
def TokenUsage.saved (u : TokenUsage) : Json :=
  .object [("cache_creation_input_tokens", ofCount u.cacheCreated),
    ("cache_read_input_tokens", ofCount u.cacheRead), ("input_tokens", ofCount u.input),
    ("output_tokens", ofCount u.output)]

/-- The name of a block's kind in the stored form. -/
def Block.savedKind : Block → String
  | .text _ => "text"
  | .attachment _ => "attachment"
  | .toolCall _ => "tool_call"
  | .toolResult _ => "tool_result"
  | .thinking _ => "thinking"
  | .redactedThinking _ => "redacted_thinking"
  | .cacheControl _ => "cache_control"
  | .usage _ => "usage"

/-- The data of a block in the stored form. -/
def Block.savedData : Block → Json
  | .text s => .string s
  | .attachment a => a.saved
  | .toolCall c => c.saved
  | .toolResult r => r.saved
  | .thinking t => t.saved
  | .redactedThinking s => .string s
  | .cacheControl none => emptyObject
  | .cacheControl (some l) => .object [("ttl", .string l.name)]
  | .usage u => u.saved

/-- The stored form of a block. -/
def Block.saved (b : Block) : Json :=
  .object [("data", b.savedData), ("type", .string b.savedKind)]

/-- The stored form of a message; a stop reason and metadata stand in it only if there are any. -/
def Message.saved (m : Message) : Json :=
  ofMembers [some ("content", .array (m.content.map Block.saved)),
    if m.metadata.isEmpty then none else some ("metadata", m.metadata.toJson),
    some ("role", .string m.role.name),
    member? "stop_reason" (m.stopReason.map fun r => .string r.name),
    some ("token_count", ofCount m.tokenCount)]

/-! ## Reading -/

/-- Media from its stored form: an object of one member that tells where the bytes are. -/
def MediaSource.ofSaved? : Json → Option MediaSource
  | .object [("inline", .string encoded)] => (Base64.decodeText? encoded).map .inline
  | .object [("uri", .string uri)] => some (.address uri)
  | _ => none

/-- An attachment from its stored form. -/
def Attachment.ofSaved? (v : Json) : Option Attachment := do
  let ms ← recordMembers? ["mime_type", "source"] v
  return { mediaType := ← required? ms "mime_type" text?
           source := ← required? ms "source" MediaSource.ofSaved? }

/-- A tool call from its stored form. -/
def ToolCall.ofSaved? (v : Json) : Option ToolCall := do
  let ms ← recordMembers? ["id", "name", "arguments"] v
  return { id := ← required? ms "id" text?
           name := ← required? ms "name" text?
           arguments := ← required? ms "arguments" some }

/-- A tool result from its stored form. -/
def ToolResult.ofSaved? (v : Json) : Option ToolResult := do
  let ms ← recordMembers? ["id", "name", "content", "is_error"] v
  return { id := ← required? ms "id" text?
           name := ← required? ms "name" text?
           content := ← required? ms "content" text?
           isError := ← optional? ms "is_error" false flag? }

/-- Reasoning from its stored form. -/
def Thinking.ofSaved? (v : Json) : Option Thinking := do
  let ms ← recordMembers? ["text", "signature"] v
  return { text := ← required? ms "text" text?
           signature := ← optional? ms "signature" "" text? }

/-- A cache mark from its stored form, of which `readName` reads the name of the lifetime. -/
def cacheControlOfSaved? (readName : Json → Option String) (v : Json) :
    Option (Option CacheLifetime) := do
  let ms ← recordMembers? ["ttl"] v
  optional? ms "ttl" none (nullable fun ttl => (readName ttl).bind CacheLifetime.ofName?)

/-- Cache counts from their stored form. -/
def CacheUsage.ofSaved? (v : Json) : Option CacheUsage := do
  let ms ← recordMembers? ["cache_creation_input_tokens", "cache_read_input_tokens"] v
  return { created := ← required? ms "cache_creation_input_tokens" count?
           read := ← required? ms "cache_read_input_tokens" count? }

/-- Token counts from their stored form. -/
def TokenUsage.ofSaved? (v : Json) : Option TokenUsage := do
  let ms ← recordMembers? ["input_tokens", "output_tokens", "cache_creation_input_tokens",
    "cache_read_input_tokens"] v
  return { input := ← required? ms "input_tokens" count?
           output := ← required? ms "output_tokens" count?
           cacheCreated := ← optional? ms "cache_creation_input_tokens" 0 count?
           cacheRead := ← optional? ms "cache_read_input_tokens" 0 count? }

/-- The data of a block of the kind of a name, from its stored form; `readName` reads names in the
data. -/
def Block.ofSavedData? (readName : Json → Option String) (kind : String) (data : Json) :
    Option Block :=
  match kind with
  | "text" => data.text?.map .text
  | "attachment" => (Attachment.ofSaved? data).map .attachment
  | "tool_call" => (ToolCall.ofSaved? data).map .toolCall
  | "tool_result" => (ToolResult.ofSaved? data).map .toolResult
  | "thinking" => (Thinking.ofSaved? data).map .thinking
  | "redacted_thinking" => data.text?.map .redactedThinking
  | "cache_control" => (cacheControlOfSaved? readName data).map .cacheControl
  | "usage" => (CacheUsage.ofSaved? data).map .usage
  | _ => none

/-- A block from its stored form. In an array the kind stands first and is a plain string. In an
object the data may stand before the kind, so the names in it are read as they have to be where the
kind is not known yet. -/
def Block.ofSaved? : Json → Option Block
  | .array [kind, data] => do Block.ofSavedData? name? (← kind.text?) data
  | .object members => do
    let ms ← recordMembers? ["type", "data"] (.object members)
    Block.ofSavedData? laxName? (← required? ms "type" name?) (← required? ms "data" some)
  | _ => none

/-- The fields of an object. -/
def Fields.ofSaved? : Json → Option Fields
  | .object members => some (Table.ofList members)
  | _ => none

/-- A message from its stored form. -/
def Message.ofSaved? (v : Json) : Option Message := do
  let ms ← recordMembers? ["role", "content", "token_count", "stop_reason", "metadata"] v
  return { role := ← required? ms "role" fun r => r.name?.bind Role.ofName?
           content := ← optional? ms "content" [] (listOf? Block.ofSaved?)
           tokenCount := ← optional? ms "token_count" 0 count?
           stopReason := ← optional? ms "stop_reason" none
             (nullable fun r => r.name?.bind StopReason.ofName?)
           metadata := ← optional? ms "metadata" .empty Fields.ofSaved? }

end ChatWire
