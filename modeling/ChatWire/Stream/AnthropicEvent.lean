import ChatWire.Error
import ChatWire.Json.Parser
import ChatWire.Json.Record
import ChatWire.Stream.Event

/-!
# Events in the Anthropic format

The Anthropic format streams the events themselves, one to a frame, as records tagged by `type`.
Events of unknown types are passed over; an event of a known type has to be complete and of the
right types, and no member that it knows may be there twice. So it is read as it is written, not in
canonical form.
-/

namespace ChatWire.Anthropic

open Json

/-- The tag of a record inside another one: a name, or the number of one of the known names. -/
def innerTag? (names : List String) : Json → Option String
  | .string name => some name
  | .number (.whole n) => some (names[n.toNat]?.getD "")
  | _ => none

/-- The index of a block, which has 32 bits. -/
def index? (v : Json) : Option Nat := (v.count?.map UInt64.toNat).filter (· < UInt32.size)

/-- Token counts; a missing one is zero. -/
def eventUsage? (v : Json) : Option TokenUsage := do
  let ms ← recordMembers? ["input_tokens", "output_tokens", "cache_creation_input_tokens",
    "cache_read_input_tokens"] v
  return { input := ← optional? ms "input_tokens" 0 count?
           output := ← optional? ms "output_tokens" 0 count?
           cacheCreated := ← optional? ms "cache_creation_input_tokens" 0 count?
           cacheRead := ← optional? ms "cache_read_input_tokens" 0 count? }

/-- The beginning of a message. Any role but the user's is the model's. -/
def messageStart? (v : Json) : Option Event := do
  let ms ← recordMembers? ["role", "usage"] v
  let role ← optional? ms "role" none (nullable text?)
  let usage ← optional? ms "usage" {} eventUsage?
  return .messageStart (if role = some "user" then .user else .assistant) usage

/-- The reason for the end of a message and the stop sequence. -/
def stopInfo? (v : Json) : Option (Option String × Option String) := do
  let ms ← recordMembers? ["stop_reason", "stop_sequence"] v
  return (← optional? ms "stop_reason" none (nullable text?),
    ← optional? ms "stop_sequence" none (nullable text?))

/-- What a block begins with. -/
def opening? (v : Json) : Option Opening := do
  let (tag, rest) ← tagged? "type" v
  match ← innerTag? ["text", "tool_use", "thinking", "redacted_thinking"] tag with
  | "text" =>
    let ms ← recordMembers? ["text"] rest
    return .text (← optional? ms "text" "" text?)
  | "tool_use" =>
    let ms ← recordMembers? ["id", "name"] rest
    return .toolCall (← required? ms "id" text?) (← required? ms "name" text?)
  | "thinking" =>
    let ms ← recordMembers? ["thinking", "signature"] rest
    return .thinking (← optional? ms "thinking" "" text?) (← optional? ms "signature" "" text?)
  | "redacted_thinking" =>
    let ms ← recordMembers? ["data"] rest
    return .redactedThinking (← required? ms "data" text?)
  | _ =>
    let _ ← recordMembers? [] rest
    return .unknown "unknown"

/-- What a block grows by. -/
def fragment? (v : Json) : Option Fragment := do
  let (tag, rest) ← tagged? "type" v
  let one (name : String) : Option String := do
    required? (← recordMembers? [name] rest) name text?
  match ← innerTag? ["text_delta", "thinking_delta", "signature_delta", "input_json_delta"] tag with
  | "text_delta" => return .text (← one "text")
  | "thinking_delta" => return .thinking (← one "thinking")
  | "signature_delta" => return .signature (← one "signature")
  | "input_json_delta" => return .arguments (← one "partial_json")
  | _ =>
    let _ ← recordMembers? [] rest
    return .other "unknown"

/-- An error that the provider reports. -/
def failure? (v : Json) : Option Event := do
  let ms ← recordMembers? ["type", "message"] v
  return .failure (← optional? ms "type" "" text?) (← optional? ms "message" "" text?)

/-- The event of a record as it is written: none if it is of no known form, and no event if its type
is unknown. -/
def event? (v : Json) : Option (Option Event) := do
  let (tag, rest) ← tagged? "type" v
  match ← tag.text? with
  | "message_start" =>
    let ms ← recordMembers? ["message"] rest
    return some (← required? ms "message" messageStart?)
  | "message_delta" =>
    let ms ← recordMembers? ["delta", "usage"] rest
    let (reason, sequence) ← optional? ms "delta" (none, none) stopInfo?
    return some (.messageDelta reason sequence (← optional? ms "usage" {} eventUsage?))
  | "content_block_start" =>
    let ms ← recordMembers? ["index", "content_block"] rest
    return some (.blockStart (← required? ms "index" index?)
      (← required? ms "content_block" opening?))
  | "content_block_delta" =>
    let ms ← recordMembers? ["index", "delta"] rest
    return some (.blockDelta (← required? ms "index" index?) (← required? ms "delta" fragment?))
  | "content_block_stop" =>
    let ms ← recordMembers? ["index"] rest
    return some (.blockStop (← required? ms "index" index?))
  | "message_stop" =>
    let _ ← recordMembers? [] rest
    return some .messageStop
  | "ping" =>
    let _ ← recordMembers? [] rest
    return some .ping
  | "error" =>
    let ms ← recordMembers? ["error"] rest
    return some (← required? ms "error" failure?)
  | _ =>
    let _ ← recordMembers? [] rest
    return none

/-- The event of a frame's data. -/
def readEvent (data : String) : Except Error (Option Event) :=
  match (Json.tree? data).bind event? with
  | some event => .ok event
  | none => .error (.malformed .anthropic .event data)

end ChatWire.Anthropic
