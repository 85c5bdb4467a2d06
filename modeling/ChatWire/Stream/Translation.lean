import ChatWire.Stream.AnthropicEvent
import ChatWire.Stream.GeminiChunk
import ChatWire.Stream.OllamaChunk
import ChatWire.Stream.OpenAIChunk

/-!
# Translations

A translation turns the frames of one provider's stream into events. `deliveries` runs it over a
whole stream of frames and tells of every event how many frames had been handed over when it came,
which is what a reader that may stop at any time has to know.
-/

namespace ChatWire

/-- The state of a translation of one provider's stream. -/
inductive Translation where
  /-- Frames that are events themselves. -/
  | anthropic
  /-- Chunks of parts. -/
  | gemini (state : Gemini.StreamState)
  /-- Chunks of choices. -/
  | openai (state : OpenAI.StreamState)
  /-- Lines of a local chat. -/
  | ollama (state : Ollama.StreamState)

namespace Translation

/-- A translation that has read nothing, with ids for calls that come without one. -/
def new (provider : Provider) (ids : CallIds) : Translation :=
  match provider with
  | .anthropic => .anthropic
  | .gemini => .gemini { ids }
  | .openai => .openai {}
  | .ollama => .ollama {}

/-- Takes a frame: the events that it gives. -/
def step (t : Translation) (frame : Frame) : Translation × Except Error (List Event) :=
  match t with
  | .anthropic => (.anthropic, (Anthropic.readEvent frame.data).map Option.toList)
  | .gemini s => let (s, events) := Gemini.StreamState.step frame s; (.gemini s, events)
  | .openai s => let (s, events) := OpenAI.StreamState.step frame s; (.openai s, events)
  | .ollama s => let (s, events) := Ollama.StreamState.step frame s; (.ollama s, events)

/-- Ends the stream: the events that were held back. -/
def finish : Translation → Translation × Except Error (List Event)
  | .anthropic => (.anthropic, .ok [])
  | .gemini s => let (s, events) := Gemini.StreamState.finish s; (.gemini s, events)
  | .openai s => let (s, events) := OpenAI.StreamState.finish s; (.openai s, events)
  | .ollama s => let (s, events) := Ollama.StreamState.finish s; (.ollama s, events)

end Translation

/-- An event or the error that ends a stream, with the number of frames (or failures in place of
one) that had been handed over when it came. -/
structure Delivery where
  /-- How many frames had been handed over. -/
  handed : Nat
  /-- What came. -/
  item : Except Error Event

/-- What comes of a step when so many frames have been handed over. -/
def deliver (handed : Nat) : Except Error (List Event) → List Delivery
  | .ok events => events.map fun e => ⟨handed, .ok e⟩
  | .error e => [⟨handed, .error e⟩]

/-- How a source of frames behaves after its last one. One that neither ends nor gives anything more
keeps its reader waiting; no reading comes of that unless the reader is asked to stop in the end. -/
inductive Ending where
  /-- It ends. -/
  | closes
  /-- It gives nothing more, and the reader that waits for it is asked to stop. -/
  | stallsUntilStop
deriving DecidableEq, Repr

/-- What comes of the frames, given what was read before; an error is the last that comes. -/
def deliveriesFrom (t : Translation) (ending : Ending) (handed : Nat) :
    List (Except Error Frame) → List Delivery
  | [] =>
    match ending with
    | .closes => deliver handed t.finish.2
    | .stallsUntilStop => []
  | .error e :: _ => [⟨handed + 1, .error e⟩]
  | .ok frame :: rest =>
    match t.step frame with
    | (_, .error e) => [⟨handed + 1, .error e⟩]
    | (t, .ok events) =>
      deliver (handed + 1) (.ok events) ++ deliveriesFrom t ending (handed + 1) rest

/-- What comes of a stream of frames. -/
def deliveries (provider : Provider) (ids : CallIds) (ending : Ending)
    (frames : List (Except Error Frame)) : List Delivery :=
  deliveriesFrom (.new provider ids) ending 0 frames

/-- The events of a stream of frames, up to the error that ends it. -/
def streamEvents (provider : Provider) (ids : CallIds) (frames : List (Except Error Frame)) :
    List (Except Error Event) :=
  (deliveries provider ids .closes frames).map Delivery.item

end ChatWire
