import ChatWire.Dialect.OpenAI
import ChatWire.Stream.Step

/-!
# Chunks in the chat-completions format

A chunk carries what the first choice grows by: text, a refusal, and pieces of tool calls. All text
goes into one block. A tool call is known by its position, and its first piece has to bear its id.
The stream ends with a word that is no JSON.
-/

namespace ChatWire.OpenAI

/-- What has been read of a stream. -/
structure StreamState where
  /-- The message as a whole. -/
  envelope : Envelope := {}
  /-- The block that holds the text. -/
  textBlock : Option Nat := none
  /-- The blocks of the tool calls by position. -/
  callBlocks : Table Nat Nat := .empty
  /-- The refusal so far. -/
  refusal : String := ""
deriving DecidableEq

namespace StreamState

/-- Begins the message. -/
def start : Step StreamState :=
  .emit fun s => let (e, events) := s.envelope.start; ({ s with envelope := e }, events)

/-- Takes note of the token counts of a chunk. -/
def noteUsage (chunk : Json) : Step StreamState :=
  match chunk.present? "usage" with
  | some usage =>
    .update fun s => { s with envelope := { s.envelope with usage := decodeUsage usage } }
  | none => .skip

/-- Adds text. -/
def addText (text : String) : Step StreamState :=
  if text.isEmpty then .skip
  else .emit fun s =>
    match s.textBlock with
    | some index => (s, [.blockDelta index (.text text)])
    | none =>
      let index := s.envelope.next
      let (e, events) := s.envelope.openBlock (.text "")
      ({ s with envelope := e, textBlock := some index },
        events ++ [.blockDelta index (.text text)])

/-- Adds to the refusal. -/
def addRefusal (text : String) : Step StreamState :=
  .update fun s => { s with refusal := s.refusal ++ text }

/-- Opens the block of a tool call, if the piece is the first of its position. -/
def openCall (position : Nat) (piece : Json) : Step StreamState :=
  .choose fun s =>
    if (s.callBlocks.find? position).isSome then .skip
    else match (piece.get "id").text? with
      | none => .fail (.malformedValue .openai (.other "first tool call chunk has no id") piece)
      | some id => .emit fun s =>
        let name := (piece.get "function").textOrEmpty "name"
        let index := s.envelope.next
        let (e, events) := s.envelope.openBlock (.toolCall id name)
        ({ s with envelope := e, callBlocks := s.callBlocks.insert position index }, events)

/-- Adds to the arguments of the tool call at a position. -/
def addArguments (position : Nat) (text : String) : Step StreamState :=
  if text.isEmpty then .skip
  else .emit fun s =>
    match s.callBlocks.find? position with
    | some index => (s, [.blockDelta index (.arguments text)])
    | none => (s, [])

/-- Adds a piece of a tool call. A piece that does not say its position has position zero. -/
def addCall (piece : Json) : Step StreamState :=
  let position := (piece.countOrZero "index").toNat
  (openCall position piece).andThen
    (addArguments position ((piece.get "function").textOrEmpty "arguments"))

/-- Takes note of the word for why the message ends. -/
def noteFinish (choice : Json) : Step StreamState :=
  match (choice.get "finish_reason").text? with
  | some reason => .update fun s =>
    { s with envelope := { s.envelope with terminal := true, stopReason := some reason } }
  | none => .skip

/-- Adds what the first choice of a chunk holds. -/
def addChoice (choice : Json) : Step StreamState :=
  let delta := choice.get "delta"
  .sequence [
    addText (delta.textOrEmpty "content"),
    addRefusal (delta.textOrEmpty "refusal"),
    .sequence (((delta.get "tool_calls").elements?.getD []).map addCall),
    noteFinish choice]

/-- Adds a chunk. -/
def addChunk (chunk : Json) : Step StreamState :=
  match Chunk.failure? chunk with
  | some failure => .event failure
  | none => .sequence [start, noteUsage chunk,
      match (chunk.get "choices").first? with
      | some choice => addChoice choice
      | none => .skip]

/-- Gives the refusal as metadata, if there is one and the message has not ended. -/
def giveRefusal : Step StreamState :=
  .emit fun s =>
    if s.refusal.isEmpty || s.envelope.finished then (s, [])
    else ({ s with refusal := "" }, [.metadata "refusal" (.string s.refusal)])

/-- Ends the stream. -/
def finish : Step StreamState :=
  .choose fun s =>
    if s.envelope.isTruncated then .fail (.violation (.truncated .openai))
    else giveRefusal.andThen (.emit fun s =>
      let (e, events) := s.envelope.conclude
      ({ s with envelope := e }, events))

/-- Whether a frame is the end mark of the stream. -/
def isDone (frame : Frame) : Bool := trim frame.data.toList == "[DONE]".toList

/-- Takes a frame. -/
def step (frame : Frame) : Step StreamState :=
  if isDone frame then
    (Step.update fun s => { s with envelope := { s.envelope with terminal := true } }).andThen
      finish
  else match Chunk.parse .openai frame with
    | .error e => .fail e
    | .ok chunk => addChunk chunk

end StreamState

end ChatWire.OpenAI
