import ChatWire.Dialect.Ollama
import ChatWire.Stream.Step

/-!
# Chunks in the local chat format

Every line carries a piece of the text and of the reasoning. All text goes into one block, and the
reasoning into the metadata. The last line says that it is the last and bears the token counts.
-/

namespace ChatWire.Ollama

/-- What has been read of a stream. -/
structure StreamState where
  /-- The message as a whole. -/
  envelope : Envelope := {}
  /-- The block that holds the text. -/
  textBlock : Option Nat := none
  /-- The reasoning so far. -/
  thought : String := ""
deriving DecidableEq

namespace StreamState

/-- Begins the message. -/
def start : Step StreamState :=
  .emit fun s => let (e, events) := s.envelope.start; ({ s with envelope := e }, events)

/-- Adds to the reasoning. -/
def addThought (text : String) : Step StreamState :=
  .update fun s => { s with thought := s.thought ++ text }

/-- Adds text. -/
def addText (text : String) : Step StreamState :=
  if text.isEmpty then .skip
  else .emit fun s =>
    match s.textBlock with
    | some index => (s, [.blockDelta index (.text text)])
    | none =>
      let index := s.envelope.next
      let (e, events) := s.envelope.openBlock (.text "")
      ({ s with envelope := e, textBlock := some index },
        events ++ [.blockDelta index (.text text)])

/-- Gives the reasoning as metadata, if there is any and the message has not ended. -/
def giveThought : Step StreamState :=
  .emit fun s =>
    if s.thought.isEmpty || s.envelope.finished then (s, [])
    else ({ s with thought := "" }, [.metadata thoughtKey (.string s.thought)])

/-- Ends the stream. -/
def finish : Step StreamState :=
  .choose fun s =>
    if s.envelope.isTruncated then .fail (.violation (.truncated .ollama))
    else giveThought.andThen (.emit fun s =>
      let (e, events) := s.envelope.conclude
      ({ s with envelope := e }, events))

/-- Takes note of the last line, and ends the message. -/
def addEnd (chunk : Json) : Step StreamState :=
  if (chunk.get "done").flag?.getD false then
    (Step.update fun s => { s with envelope := { s.envelope with
      terminal := true
      usage := decodeUsage chunk
      stopReason := (chunk.get "done_reason").text? } }).andThen finish
  else .skip

/-- Takes a frame. -/
def step (frame : Frame) : Step StreamState :=
  match Chunk.parse .ollama frame with
  | .error e => .fail e
  | .ok chunk =>
    match Chunk.failure? chunk with
    | some failure => .event failure
    | none =>
      let message := chunk.get "message"
      .sequence [start, addThought (message.textOrEmpty "thinking"),
        addText (message.textOrEmpty "content"), addEnd chunk]

end StreamState

end ChatWire.Ollama
