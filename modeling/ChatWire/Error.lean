import ChatWire.Provider
import ChatWire.Message.Basic
import ChatWire.Json.Printer

/-!
# Errors

Everything that can go wrong, by cause. What an error says is made from its cause in one place,
`Error.message`.
-/

namespace ChatWire

/-- Something that a message has and a provider's format cannot say. -/
inductive Unsupported where
  /-- Standing instructions inside the conversation. -/
  | systemMessage
  /-- A cache mark with no block before it. -/
  | cacheControlFirst
  /-- A second cache mark on one block. -/
  | cacheControlTwice
  /-- A second block of cache counts. -/
  | usageTwice
  /-- Attachments of a media type. -/
  | attachments (mediaType : String)
  /-- Attachments that have to be fetched. -/
  | addressedAttachments
  /-- Blocks of a kind. -/
  | blocks (kind : String)
  /-- A tool result that does not name its tool. -/
  | namelessResult (id : String)
  /-- Tool calls in messages of a role. -/
  | toolCallsOn (role : Role)
  /-- Tool results in messages of a role. -/
  | toolResultsOn (role : Role)
  /-- A message from a tool that is not one result and nothing else. -/
  | notOneToolResult
  /-- A second text. -/
  | secondText
  /-- A text behind an image. -/
  | textAfterImage
  /-- Declarations of tools. -/
  | toolDeclarations
deriving DecidableEq

/-- What a provider cannot represent, in words. -/
def Unsupported.describe (provider : Provider) : Unsupported → String
  | .systemMessage =>
    match provider with
    | .gemini => "system-role messages (use system_instruction)"
    | _ => "system-role messages (use the request system prompt)"
  | .cacheControlFirst => "cache control with no preceding block"
  | .cacheControlTwice => "two cache control annotations on one block"
  | .usageTwice => "more than one usage annotation per message"
  | .attachments mediaType => mediaType ++ " attachments"
  | .addressedAttachments => "URI attachments"
  | .blocks kind => kind ++ " blocks"
  | .namelessResult id => "tool result `" ++ id ++ "` without a function name"
  | .toolCallsOn role => "tool calls on " ++ role.name ++ " messages"
  | .toolResultsOn role => "tool results on " ++ role.name ++ " messages"
  | .notOneToolResult => "tool messages that are not exactly one tool result"
  | .secondText => "more than one text block"
  | .textAfterImage => "text after an image"
  | .toolDeclarations => "tool declarations"

/-- What is wrong with something a provider sent. -/
inductive Defect where
  /-- A body that is no JSON text. -/
  | body
  /-- Media that is not base64. -/
  | base64
  /-- A chunk of a stream that is no JSON text. -/
  | chunk
  /-- A chunk of a stream that is no event. -/
  | event
  /-- Arguments in a reply that are no JSON text. -/
  | arguments
  /-- Arguments put together from a stream that are no JSON text. -/
  | streamedArguments
  /-- A member that is missing or no string. -/
  | missingText (key : String)
  /-- A role that the format does not have. -/
  | unknownRole (name : String)
  /-- A media source of a kind that the format does not have. -/
  | unknownSource (kind : String)
  /-- Anything else, in words. -/
  | other (description : String)
deriving DecidableEq

/-- What is wrong, in words. -/
def Defect.describe : Defect → String
  | .body => "invalid JSON: the body breaks the grammar"
  | .base64 => "invalid base64: the text is no written form"
  | .chunk => "invalid stream chunk: the data breaks the grammar"
  | .event => "invalid stream event: the data is not of a known form"
  | .arguments => "tool arguments are not JSON: the text breaks the grammar"
  | .streamedArguments => "tool call arguments are not valid JSON: the text breaks the grammar"
  | .missingText key => "missing string field `" ++ key ++ "`"
  | .unknownRole name => "unknown role `" ++ name ++ "`"
  | .unknownSource kind => "unknown media source type `" ++ kind ++ "`"
  | .other description => description

/-- An event that the order of a stream does not allow. -/
inductive Violation where
  /-- The message begins a second time. -/
  | duplicateStart
  /-- An event before the message begins. -/
  | beforeStart (event : String)
  /-- A block index is opened a second time. -/
  | openedTwice (index : Nat)
  /-- A fragment for a block that has ended. -/
  | fragmentForClosed (index : Nat)
  /-- A fragment for a block that never began. -/
  | fragmentForUnopened (index : Nat)
  /-- A fragment that a block of its kind does not take. -/
  | fragmentMismatch (fragment : String) (block : String) (index : Nat)
  /-- A block ends a second time. -/
  | stoppedTwice (index : Nat)
  /-- A block ends that never began. -/
  | stopForUnopened (index : Nat)
  /-- The message ends while a block is open. -/
  | stopWhileOpen (index : Nat)
  /-- An event after the message is complete or has failed. -/
  | afterEnd (phase : String)
  /-- The chunks end before the provider's end mark. -/
  | truncated (provider : Provider)
  /-- The events end before the message does. -/
  | endedIn (phase : String)
deriving DecidableEq

/-- What a violation says. -/
def Violation.describe : Violation → String
  | .duplicateStart => "duplicate message start"
  | .beforeStart event => event ++ " before message start"
  | .openedTwice index => "block index " ++ toString index ++ " opened twice"
  | .fragmentForClosed index => "delta for closed block " ++ toString index
  | .fragmentForUnopened index => "delta for unopened block " ++ toString index
  | .fragmentMismatch fragment block index =>
    fragment ++ " delta for " ++ block ++ " block at index " ++ toString index
  | .stoppedTwice index => "block " ++ toString index ++ " stopped twice"
  | .stopForUnopened index => "stop for unopened block " ++ toString index
  | .stopWhileOpen index => "message stop with block " ++ toString index ++ " still open"
  | .afterEnd phase => "event after stream reached " ++ phase
  | .truncated provider => provider.name ++ " stream ended before its final chunk"
  | .endedIn phase => "stream ended in state " ++ phase ++ " before message stop"

/-- A setting that no provider accepts. -/
inductive SettingFault where
  /-- No output token is allowed. -/
  | noTokens
  /-- The temperature, as written, is out of range. -/
  | temperature (written : String)
  /-- The nucleus bound, as written, is out of range. -/
  | topP (written : String)
deriving DecidableEq

/-- What is wrong with a setting. -/
def SettingFault.describe : SettingFault → String
  | .noTokens => "max_tokens must be at least 1"
  | .temperature written => "temperature " ++ written ++ " is outside 0.0..=2.0"
  | .topP written => "top_p " ++ written ++ " is outside (0, 1]"

/-- Why an operation failed. -/
inductive Error where
  /-- A provider's format cannot say what a message says. -/
  | unsupported (provider : Provider) (what : Unsupported)
  /-- A provider sent something malformed; `fragment` is the part in question. -/
  | malformed (provider : Provider) (defect : Defect) (fragment : String)
  /-- A stream broke the order of events. -/
  | violation (violation : Violation)
  /-- The provider reported an error. -/
  | reported (kind : String) (message : String)
  /-- The reader asked to stop. -/
  | cancelled
  /-- Parts made no attachment. -/
  | attachment (fault : Attachment.Fault)
  /-- The transport failed. -/
  | transport (description : String)
  /-- A setting is out of range. -/
  | setting (fault : SettingFault)
  /-- A stored value is not of the form that was asked for. -/
  | stored
  /-- The connection failed while a body was read. -/
  | connection
  /-- A sum of token counts does not fit into a word. This is no error that a caller is handed: the
  program stops in the middle of what it does. -/
  | overflow
deriving DecidableEq

/-- The most characters of a fragment that a message shows. -/
def maxExcerpt : Nat := 200

/-- The beginning of a fragment, with three dots if something is left out. -/
def excerpt (fragment : String) : String :=
  let cs := fragment.toList
  if cs.length ≤ maxExcerpt then fragment
  else String.ofList (cs.take maxExcerpt ++ ['.', '.', '.'])

namespace Error

/-- A provider sent a malformed value. -/
def malformedValue (provider : Provider) (defect : Defect) (value : Json) : Error :=
  .malformed provider defect value.toText

/-- What an error says. -/
def message : Error → String
  | .unsupported provider what =>
    provider.name ++ " wire format cannot represent " ++ what.describe provider
  | .malformed provider defect fragment =>
    "malformed " ++ provider.name ++ " payload: " ++ defect.describe ++ " (at: "
      ++ excerpt fragment ++ ")"
  | .violation v => "Stream protocol violation: " ++ v.describe
  | .reported kind message => "Upstream error (" ++ kind ++ "): " ++ message
  | .cancelled => "Stream cancelled"
  | .attachment fault => "Invalid attachment: " ++ fault.message
  | .transport description => "Transport error: " ++ description
  | .setting fault => "Invalid configuration: " ++ fault.describe
  | .stored => "Serialization error: the value is not of the stored form"
  | .connection => "HTTP error: the body ended early"
  | .overflow => "attempt to add with overflow"

/-- Whether an error ends a turn without any usable content. -/
def isFatal : Error → Bool
  | .violation _ | .reported _ _ | .cancelled => true
  | _ => false

end Error

/-- The sum of two counts, if it fits into a word. -/
def addCounts (a b : UInt64) : Except Error UInt64 :=
  if a.toNat + b.toNat < UInt64.size then .ok (a + b) else .error .overflow

end ChatWire
