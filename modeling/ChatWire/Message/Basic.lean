import ChatWire.Json.Basic
import ChatWire.Message.Media
import ChatWire.Message.Usage

/-!
# Messages

A conversation is made of messages, and a message of blocks. The types here belong to no provider;
every provider's format is translated to and from them.
-/

namespace ChatWire

/-- Who a message is from. -/
inductive Role where
  /-- Standing instructions. -/
  | system
  /-- The user. -/
  | user
  /-- The model. -/
  | assistant
  /-- A tool that the model had called. -/
  | tool
deriving DecidableEq, Repr

/-- The name of a role. -/
def Role.name : Role → String
  | .system => "system"
  | .user => "user"
  | .assistant => "assistant"
  | .tool => "tool"

/-- The role of a name. -/
def Role.ofName? : String → Option Role
  | "system" => some .system
  | "user" => some .user
  | "assistant" => some .assistant
  | "tool" => some .tool
  | _ => none

/-- A call of a tool that the model asks for. -/
structure ToolCall where
  /-- The id that the result will bear. -/
  id : String
  /-- The tool. -/
  name : String
  /-- What the tool is called with. -/
  arguments : Json
deriving DecidableEq

/-- What came of a tool call. -/
structure ToolResult where
  /-- The id of the call. -/
  id : String
  /-- The tool, empty where it is not known. -/
  name : String
  /-- The output, as JSON or as plain text. -/
  content : String
  /-- Whether the tool failed. -/
  isError : Bool
deriving DecidableEq

/-- A piece of the model's reasoning. -/
structure Thinking where
  /-- The reasoning. -/
  text : String
  /-- The provider's seal on it, to be handed back unchanged. -/
  signature : String
deriving DecidableEq

/-- How long a provider is asked to keep a cached prompt. -/
inductive CacheLifetime where
  /-- Five minutes. -/
  | fiveMinutes
  /-- One hour. -/
  | oneHour
deriving DecidableEq, Repr

/-- The name of a lifetime. -/
def CacheLifetime.name : CacheLifetime → String
  | .fiveMinutes => "5m"
  | .oneHour => "1h"

/-- The lifetime of a name. -/
def CacheLifetime.ofName? : String → Option CacheLifetime
  | "5m" => some .fiveMinutes
  | "1h" => some .oneHour
  | _ => none

/-- One unit of a message. -/
inductive Block where
  /-- Plain text. -/
  | text (text : String)
  /-- Attached media. -/
  | attachment (attachment : Attachment)
  /-- A call of a tool. -/
  | toolCall (call : ToolCall)
  /-- The result of a call. -/
  | toolResult (result : ToolResult)
  /-- Reasoning in the open. -/
  | thinking (thinking : Thinking)
  /-- Reasoning that the provider has sealed. -/
  | redactedThinking (data : String)
  /-- Ends a stretch of prompt to be cached with the block before it. -/
  | cacheControl (lifetime : Option CacheLifetime)
  /-- Cache counts of the reply. -/
  | usage (usage : CacheUsage)
deriving DecidableEq

namespace Block

/-- What a block is called when it is spoken about. -/
def kindName : Block → String
  | .text _ => "text"
  | .attachment _ => "attachment"
  | .toolCall _ => "tool call"
  | .toolResult _ => "tool result"
  | .thinking _ => "thinking"
  | .redactedThinking _ => "redacted thinking"
  | .cacheControl _ => "cache control"
  | .usage _ => "usage metrics"

/-- Whether a block says something about other blocks or about the reply and has no content of its
own. -/
def isAnnotation : Block → Bool
  | .cacheControl _ | .usage _ => true
  | _ => false

/-- Whether a block holds cache counts. -/
def isUsage : Block → Bool
  | .usage _ => true
  | _ => false

/-- The text of a text block. -/
def text? : Block → Option String
  | .text s => some s
  | _ => none

/-- The call of a tool-call block. -/
def toolCall? : Block → Option ToolCall
  | .toolCall call => some call
  | _ => none

/-- The result of a tool-result block. -/
def toolResult? : Block → Option ToolResult
  | .toolResult result => some result
  | _ => none

/-- Whether a block is a tool result. -/
def isToolResult (b : Block) : Bool := b.toolResult?.isSome

/-- Whether a block is a tool call. -/
def isToolCall (b : Block) : Bool := b.toolCall?.isSome

/-- Whether a block is reasoning in the open. -/
def isThinking : Block → Bool
  | .thinking _ => true
  | _ => false

end Block

/-- Why generation ended. -/
inductive StopReason where
  /-- It came to its natural end or to a stop sequence. -/
  | stop
  /-- It ran into a limit on tokens. -/
  | maxTokens
  /-- The provider refused or filtered it. -/
  | blocked
  /-- The model waits for tools. -/
  | toolCall
  /-- The reply was malformed. -/
  | error
  /-- The provider paused a long turn. -/
  | pause
  /-- Anything else. -/
  | other
deriving DecidableEq, Repr

/-- The name of a stop reason. -/
def StopReason.name : StopReason → String
  | .stop => "stop"
  | .maxTokens => "max_tokens"
  | .blocked => "blocked"
  | .toolCall => "tool_call"
  | .error => "error"
  | .pause => "pause"
  | .other => "other"

/-- The stop reason of a name. -/
def StopReason.ofName? : String → Option StopReason
  | "stop" => some .stop
  | "max_tokens" => some .maxTokens
  | "blocked" => some .blocked
  | "tool_call" => some .toolCall
  | "error" => some .error
  | "pause" => some .pause
  | "other" => some .other
  | _ => none

/-- A message of a conversation. -/
structure Message where
  /-- Who it is from. -/
  role : Role
  /-- Its blocks in order. -/
  content : List Block := []
  /-- The tokens that it is charged with. -/
  tokenCount : UInt64 := 0
  /-- Why its generation ended, for a reply. -/
  stopReason : Option StopReason := none
  /-- What the provider said that no block holds. -/
  metadata : Fields := .empty
deriving DecidableEq

namespace Message

/-- A message of one text block. -/
def ofText (role : Role) (text : String) : Message := { role, content := [.text text] }

/-- A message from a tool that answers one call. -/
def ofToolResult (result : ToolResult) : Message :=
  { role := .tool, content := [.toolResult result] }

/-- The message with one more block at its end. -/
def push (m : Message) (block : Block) : Message := { m with content := m.content ++ [block] }

/-- The message with a metadata value set. -/
def setMetadata (m : Message) (key : String) (value : Json) : Message :=
  { m with metadata := m.metadata.insert key value }

/-- The texts of the text blocks, a line break between each two. -/
def text (m : Message) : String := "\n".intercalate (m.content.filterMap Block.text?)

/-- The tool calls in order. -/
def toolCalls (m : Message) : List ToolCall := m.content.filterMap Block.toolCall?

/-- The tool results in order. -/
def toolResults (m : Message) : List ToolResult := m.content.filterMap Block.toolResult?

/-- Whether there is a block that is no annotation. -/
def hasContent (m : Message) : Bool := m.content.any fun b => !b.isAnnotation

/-- The message without cache counts. -/
def withoutUsage (m : Message) : Message :=
  { m with content := m.content.filter fun b => !b.isUsage }

end Message

end ChatWire
