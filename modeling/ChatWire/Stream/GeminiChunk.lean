import ChatWire.Dialect.Gemini
import ChatWire.Stream.Step

/-!
# Chunks in the Gemini format

A chunk carries whole parts of the first candidate. Texts that follow each other go into one block,
and so does reasoning up to a signature, which seals it. Signatures of other parts are gathered with
the indices of their blocks and given as metadata at the end.
-/

namespace ChatWire.Gemini

/-- What a run of parts that goes into one block is made of. -/
inductive RunKind where
  /-- Texts. -/
  | text
  /-- Reasoning. -/
  | thought
deriving DecidableEq, Repr

/-- What the block of a run begins with. -/
def RunKind.opening : RunKind → Opening
  | .text => .text ""
  | .thought => .thinking "" ""

/-- What has been read of a stream. -/
structure StreamState where
  /-- The ids for calls that come without one. -/
  ids : CallIds
  /-- The message as a whole. -/
  envelope : Envelope := {}
  /-- The run that the next part may go on with, and its block. -/
  run : Option (RunKind × Nat) := none
  /-- The block of the first tool call. -/
  firstCall : Option Nat := none
  /-- The first block that is not reasoning. -/
  firstOther : Option Nat := none
  /-- The signatures that are no reasoning's, with the places of their blocks. -/
  signatures : List (Nat × String) := []

namespace StreamState

/-- Begins the message. -/
def start : Step StreamState :=
  .emit fun s => let (e, events) := s.envelope.start; ({ s with envelope := e }, events)

/-- Takes note of the token counts of a chunk. -/
def noteUsage (chunk : Json) : Step StreamState :=
  match field? chunk "usage_metadata" "usageMetadata" with
  | some usage =>
    match decodeUsage usage with
    | .ok usage => .update fun s => { s with envelope := { s.envelope with usage } }
    | .error e => .fail e
  | none => .skip

/-- Ends the run. -/
def endRun (s : StreamState) : StreamState × List Event :=
  match s.run with
  | some (_, index) =>
    let (e, events) := s.envelope.closeBlock index
    ({ s with envelope := e, run := none }, events)
  | none => (s, [])

/-- Ends the run and begins one of the kind: its block. -/
def beginRun (s : StreamState) (kind : RunKind) : StreamState × Nat × List Event :=
  let (s, ended) := s.endRun
  let index := s.envelope.next
  let (e, begun) := s.envelope.openBlock kind.opening
  ({ s with envelope := e, run := some (kind, index) }, index, ended ++ begun)

/-- Goes on with a run of the kind, or begins one: the block of the run. -/
def extendRun (s : StreamState) (kind : RunKind) : StreamState × Nat × List Event :=
  match s.run with
  | some (current, index) => if current = kind then (s, index, []) else s.beginRun kind
  | none => s.beginRun kind

/-- Takes note of a block that is not reasoning. -/
def note (s : StreamState) (index : Nat) (isCall : Bool) : StreamState :=
  { s with
    firstOther := s.firstOther.or (some index)
    firstCall := if isCall then s.firstCall.or (some index) else s.firstCall }

/-- A block that comes whole: it opens, grows by the fragments, and closes. -/
def addWhole (s : StreamState) (opening : Opening) (fragments : List Fragment) (isCall : Bool) :
    StreamState × Nat × List Event :=
  let (s, ended) := s.endRun
  let index := s.envelope.next
  let (e, begun) := s.envelope.openBlock opening
  let (e, closed) := e.closeBlock index
  (note { s with envelope := e } index isCall, index,
    ended ++ begun ++ fragments.map (.blockDelta index) ++ closed)

/-- Adds reasoning, sealed if it bears a signature. -/
def addThought (s : StreamState) (t : Thinking) : StreamState × List Event :=
  let (s, index, begun) := s.extendRun .thought
  let events := begun ++ [.blockDelta index (.thinking t.text)]
  if t.signature.isEmpty then (s, events)
  else
    let (s, ended) := s.endRun
    (s, events ++ [.blockDelta index (.signature t.signature)] ++ ended)

/-- Adds the block of a part: the place where it landed, if that is not reasoning, and the events.
-/
def addBlock (s : StreamState) : Option Block → StreamState × Option Nat × List Event
  | some (.text text) =>
    let (s, index, begun) := s.extendRun .text
    (s.note index false, some index, begun ++ [.blockDelta index (.text text)])
  | some (.thinking t) =>
    let (s, events) := s.addThought t
    (s, none, events)
  | some (.toolCall c) =>
    let (s, index, events) :=
      s.addWhole (.toolCall c.id c.name) [.arguments c.arguments.toText] true
    (s, some index, events)
  | some (.attachment a) =>
    let (s, index, events) := s.addWhole (.attachment a) [] false
    (s, some index, events)
  | _ => (s, none, [])

/-- Adds a part. A signature without block belongs to the place of the next block. -/
def addPart (part : Json) : Step StreamState := fun s =>
  match decodePart (s.ids.ofPlace s.envelope.next) part with
  | .error e => (s, .error e)
  | .ok block =>
    let (s, landed, events) := s.addBlock block
    match if isThought part then none else signature? part with
    | some signature =>
      let place := landed.getD s.envelope.next
      ({ s with signatures := s.signatures ++ [(place, signature)] }, .ok events)
    | none => (s, .ok events)

/-- A part that can be read adds its block, and may add a signature. -/
theorem addPart_eq_ok {part : Json} {s s' : StreamState} {events : List Event}
    (h : addPart part s = (s', .ok events)) :
    ∃ block signatures, decodePart (s.ids.ofPlace s.envelope.next) part = .ok block ∧
      s' = { (s.addBlock block).1 with signatures } ∧ events = (s.addBlock block).2.2 := by
  unfold addPart at h
  split at h
  · simp at h
  case h_2 block hblock =>
    refine ⟨block, s'.signatures, hblock, ?_⟩
    simp only at h
    split at h <;> simp only [Prod.mk.injEq, Except.ok.injEq] at h <;> obtain ⟨rfl, rfl⟩ := h <;>
      exact ⟨rfl, rfl⟩

/-- Takes note of the word for why the message ends. -/
def noteFinish (candidate : Json) : Step StreamState :=
  match textField? candidate "finish_reason" "finishReason" with
  | some reason => .update fun s =>
    { s with envelope := { s.envelope with terminal := true, stopReason := some reason } }
  | none => .skip

/-- Takes note that the prompt was blocked, if a chunk without candidates says so. -/
def noteBlocked (chunk : Json) : Step StreamState :=
  match (blockReason? chunk).bind Json.text? with
  | some reason => .emit fun s =>
    ({ s with envelope := { s.envelope with terminal := true, stopReason := some "SAFETY" } },
      [.metadata "block_reason" (.string reason)])
  | none => .skip

/-- Adds a chunk. -/
def addChunk (chunk : Json) : Step StreamState :=
  match Chunk.failure? chunk with
  | some failure => .event failure
  | none => .sequence [start, noteUsage chunk,
      match (chunk.get "candidates").first? with
      | none => noteBlocked chunk
      | some candidate =>
        let parts := (((candidate.get "content").get "parts").elements?.getD [])
        (Step.sequence (parts.map addPart)).andThen (noteFinish candidate)]

/-- Gives the signatures as metadata, if there are any and the message has not ended. -/
def giveSignatures : Step StreamState :=
  .emit fun s =>
    if s.envelope.finished then (s, [])
    else
      let value := signatureValue? s.signatures (s.firstCall.or s.firstOther)
      ({ s with signatures := [] }, (value.map (Event.metadata signatureKey)).toList)

/-- Ends the stream. -/
def finish : Step StreamState :=
  .choose fun s =>
    if s.envelope.isTruncated then .fail (.violation (.truncated .gemini))
    else giveSignatures.andThen (.emit fun s =>
      let (e, events) := s.envelope.conclude
      ({ s with envelope := e }, events))

/-- Takes a frame. -/
def step (frame : Frame) : Step StreamState :=
  match Chunk.parse .gemini frame with
  | .error e => .fail e
  | .ok chunk => addChunk chunk

end StreamState

end ChatWire.Gemini
