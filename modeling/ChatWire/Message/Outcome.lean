import ChatWire.Provider
import ChatWire.Message.Basic

/-!
# Outcomes

Every provider has its own words for why generation ended; `StopReason.classify` reads them all, and
what it does not know is `other`. An outcome sorts a finished reply by whether its content may be
used.
-/

namespace ChatWire

/-- The stop reason that a provider's word stands for. -/
def StopReason.classify : Provider → String → StopReason
  | .anthropic, word =>
    match word with
    | "end_turn" | "stop_sequence" => .stop
    | "max_tokens" | "model_context_window_exceeded" => .maxTokens
    | "tool_use" => .toolCall
    | "refusal" => .blocked
    | "pause_turn" => .pause
    | _ => .other
  | .gemini, word =>
    match word with
    | "STOP" => .stop
    | "MAX_TOKENS" => .maxTokens
    | "SAFETY" | "RECITATION" | "BLOCKLIST" | "PROHIBITED_CONTENT" | "SPII" | "IMAGE_SAFETY"
    | "LANGUAGE" => .blocked
    | "MALFORMED_FUNCTION_CALL" => .error
    | _ => .other
  | .openai, word =>
    match word with
    | "stop" => .stop
    | "length" => .maxTokens
    | "tool_calls" | "function_call" => .toolCall
    | "content_filter" => .blocked
    | _ => .other
  | .ollama, word =>
    match word with
    | "stop" => .stop
    | "length" => .maxTokens
    | _ => .other

/-- The stop reason that a provider's word stands for at the end of a message: a normal stop of a
message with tool calls waits for the tools, whatever the provider calls it. -/
def StopReason.classifyFor (provider : Provider) (word : String) (message : Message) : StopReason :=
  match classify provider word with
  | .stop => if message.toolCalls.isEmpty then .stop else .toolCall
  | reason => reason

/-- Only a normal stop with tool calls is told by the message. -/
theorem StopReason.classifyFor_eq (provider : Provider) (word : String) (message : Message) :
    classifyFor provider word message
      = if classify provider word = .stop ∧ message.toolCalls ≠ [] then .toolCall
        else classify provider word := by
  unfold classifyFor
  split
  case h_1 hstop =>
    cases message.toolCalls <;> simp [hstop]
  case h_2 hstop => rw [if_neg fun h => hstop h.1]

/-- A finished reply, sorted by whether its content may be used. -/
inductive Outcome where
  /-- Generation ended normally. -/
  | complete (message : Message)
  /-- Generation was cut short; the content so far may be used. -/
  | cutShort (message : Message)
  /-- The provider refused or failed; there is no content to use. -/
  | withheld (reason : StopReason)
deriving DecidableEq

namespace Outcome

/-- Sorts a message by its stop reason; one without is complete. -/
def ofMessage (message : Message) : Outcome :=
  match message.stopReason with
  | some .blocked => .withheld .blocked
  | some .error => .withheld .error
  | some .maxTokens | some .pause => .cutShort message
  | _ => .complete message

/-- The message, where its content may be used. -/
def message? : Outcome → Option Message
  | .complete message | .cutShort message => some message
  | .withheld _ => none

/-- Why generation ended; a message that does not say so came to its natural end. -/
def stopReason : Outcome → StopReason
  | .complete message | .cutShort message => message.stopReason.getD .stop
  | .withheld reason => reason

/-- Whether generation was cut short. -/
def isCutShort : Outcome → Bool
  | .cutShort _ => true
  | _ => false

/-- The name of the kind of outcome. -/
def name : Outcome → String
  | .complete _ => "complete"
  | .cutShort _ => "partial"
  | .withheld _ => "withheld"

end Outcome

/-- A reply of a provider: the message and what it cost. -/
structure Reply where
  /-- The message. -/
  message : Message
  /-- The token counts. -/
  usage : TokenUsage
deriving DecidableEq

end ChatWire
