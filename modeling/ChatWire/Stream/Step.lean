import ChatWire.Error
import ChatWire.Json.Parser
import ChatWire.Stream.Event
import ChatWire.Stream.Frame

/-!
# Steps of a translation

Providers that stream whole chunks instead of events leave it to the reader to tell where blocks
begin and end. A translation keeps a state for this; a `Step` takes the state to the next one and
gives events or an error. When a step fails, the state stays as the failing part left it and the
events that came before are lost.

The state that all such translations share is the `Envelope`: what has been said about the message
as a whole, and which blocks are open.
-/

namespace ChatWire

/-- A step of a translation with states in `σ`. -/
abbrev Step (σ : Type) := σ → σ × Except Error (List Event)

namespace Step

variable {σ : Type}

/-- Changes the state. -/
def update (f : σ → σ) : Step σ := fun s => (f s, .ok [])

/-- Does nothing. -/
def skip : Step σ := update id

/-- Gives events and changes the state. -/
def emit (f : σ → σ × List Event) : Step σ := fun s => let (s, events) := f s; (s, .ok events)

/-- Gives an event. -/
def event (e : Event) : Step σ := emit fun s => (s, [e])

/-- Fails. -/
def fail (e : Error) : Step σ := fun s => (s, .error e)

/-- One step after another. -/
def andThen (first second : Step σ) : Step σ := fun s =>
  match first s with
  | (s, .error e) => (s, .error e)
  | (s, .ok events) =>
    match second s with
    | (s, .error e) => (s, .error e)
    | (s, .ok more) => (s, .ok (events ++ more))

/-- Several steps one after another. -/
def sequence : List (Step σ) → Step σ
  | [] => skip
  | step :: rest => step.andThen (sequence rest)

/-- A step that depends on the state. -/
def choose (f : σ → Step σ) : Step σ := fun s => f s s

end Step

/-! ## The envelope of a message -/

/-- What is known about a message whose events are made here. -/
structure Envelope where
  /-- Whether the message has begun. -/
  started : Bool := false
  /-- Whether the message has ended. -/
  finished : Bool := false
  /-- Whether the provider has said that this is the end; only then may the message end. -/
  terminal : Bool := false
  /-- The index of the next block. -/
  next : Nat := 0
  /-- The indices of the open blocks. -/
  opened : List Nat := []
  /-- The provider's word for why the message ends. -/
  stopReason : Option String := none
  /-- The token counts. -/
  usage : TokenUsage := {}
deriving DecidableEq

namespace Envelope

/-- Begins the message, if it has not begun. -/
def start (e : Envelope) : Envelope × List Event :=
  if e.started then (e, []) else ({ e with started := true }, [.messageStart .assistant {}])

/-- Opens the next block, whose index is `e.next`. -/
def openBlock (e : Envelope) (opening : Opening) : Envelope × List Event :=
  ({ e with next := e.next + 1, opened := e.opened ++ [e.next] }, [.blockStart e.next opening])

/-- Closes a block. -/
def closeBlock (e : Envelope) (index : Nat) : Envelope × List Event :=
  ({ e with opened := e.opened.filter (· != index) }, [.blockStop index])

/-- Whether the message has begun and the chunks break off before the provider's end mark. -/
def isTruncated (e : Envelope) : Bool := e.started && !e.finished && !e.terminal

/-- Closes all blocks and ends the message, if it has begun and not ended. -/
def conclude (e : Envelope) : Envelope × List Event :=
  if e.finished || !e.started then (e, [])
  else ({ e with finished := true, opened := [], stopReason := none },
    e.opened.map .blockStop ++ [.messageDelta e.stopReason none e.usage, .messageStop])

end Envelope

namespace Chunk

/-- The value of a frame's data. -/
def parse (provider : Provider) (frame : Frame) : Except Error Json :=
  match Json.read? frame.data with
  | some value => .ok value
  | none => .error (.malformed provider .chunk frame.data)

/-- The error that a chunk reports: a string that is its message, or an object that also has a kind.
-/
def failure? (chunk : Json) : Option Event :=
  match chunk.present? "error" with
  | none => none
  | some (.string message) => some (.failure "error" message)
  | some error =>
    let kind := (error.get "type").text?.or (error.get "status").text?
    some (.failure (kind.getD "error") (error.textOrEmpty "message"))

end Chunk

end ChatWire
