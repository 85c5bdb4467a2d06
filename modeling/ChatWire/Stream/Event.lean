import ChatWire.Message.Basic

/-!
# Stream events

The events that a streamed reply is made of, whatever the provider: the message begins, blocks
begin, grow and end, and the message ends. Blocks are told apart by an index, and several may be
open at a time.
-/

namespace ChatWire

/-- What a block begins with. -/
inductive Opening where
  /-- A text. -/
  | text (text : String)
  /-- A tool call whose arguments follow. -/
  | toolCall (id : String) (name : String)
  /-- Reasoning in the open. -/
  | thinking (text : String) (signature : String)
  /-- Sealed reasoning, which is complete at once. -/
  | redactedThinking (data : String)
  /-- Media, which is complete at once. -/
  | attachment (attachment : Attachment)
  /-- A block of a kind that the library does not know. -/
  | unknown (kind : String)
deriving DecidableEq

/-- What a block grows by. -/
inductive Fragment where
  /-- More text. -/
  | text (value : String)
  /-- More JSON text of a call's arguments. -/
  | arguments (value : String)
  /-- More reasoning. -/
  | thinking (value : String)
  /-- More of the seal on the reasoning. -/
  | signature (value : String)
  /-- A fragment of a kind that the library does not know. -/
  | other (kind : String)
deriving DecidableEq

/-- What a fragment is called when it is spoken about. -/
def Fragment.kindName : Fragment → String
  | .text _ => "text_delta"
  | .arguments _ => "input_json_delta"
  | .thinking _ => "thinking_delta"
  | .signature _ => "signature_delta"
  | .other kind => kind

/-- One event of a streamed reply. -/
inductive Event where
  /-- The message begins. -/
  | messageStart (role : Role) (usage : TokenUsage)
  /-- A block begins. -/
  | blockStart (index : Nat) (opening : Opening)
  /-- A block grows. -/
  | blockDelta (index : Nat) (fragment : Fragment)
  /-- A block ends. -/
  | blockStop (index : Nat)
  /-- News about the whole message: the provider's words for why it ends, and counts. -/
  | messageDelta (stopReason : Option String) (stopSequence : Option String) (usage : TokenUsage)
  /-- The message ends. -/
  | messageStop
  /-- Something the provider said that no block holds. -/
  | metadata (key : String) (value : Json)
  /-- The connection is kept alive. -/
  | ping
  /-- The provider reports an error. -/
  | failure (kind : String) (message : String)
deriving DecidableEq

/-- What an event is called when it is spoken about. -/
def Event.kindName : Event → String
  | .messageStart .. => "message start"
  | .blockStart .. => "block start"
  | .blockDelta .. => "block delta"
  | .blockStop _ => "block stop"
  | .messageDelta .. => "message delta"
  | .messageStop => "message stop"
  | .metadata .. => "metadata"
  | .ping => "ping"
  | .failure .. => "error"

end ChatWire
