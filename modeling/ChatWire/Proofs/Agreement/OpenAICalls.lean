import ChatWire.Proofs.Agreement.OpenAIPieces
import ChatWire.Proofs.Json.Reprint

/-!
# Tool calls of chat-completions streams

A stream that gives a reply gives a call for every place at which a piece of its message is taken
(`OpenAI.calls_of_readStream`). The ids that other pieces than the first bear are not looked at, so
the ids of a stream survive, and its calls are kept apart, only where no place is used for two of
them. `OpenAI.streamed_calls_iff` says exactly when.
-/

namespace ChatWire.OpenAI

/-! ## The message of a stream -/

/-- Whether a frame came that is an end mark. -/
def isMark : Except Error Frame → Bool
  | .ok frame => StreamState.isDone frame
  | .error _ => false

/-- The pieces of tool calls in a frame. -/
def framePieces (frame : Frame) : List Json := pieces (StreamState.chunkOf frame)

/-- The pieces of tool calls in the message of a stream, which begins behind any end marks and goes
on up to the next one. -/
def messagePieces (frames : List (Except Error Frame)) : List Json :=
  (((frames.dropWhile isMark).takeWhile (!isMark ·)).filterMap Except.toOption).flatMap framePieces

/-- The pieces of a message are those of the chunks between its end marks. -/
theorem messagePieces_eq {marks chunks : List Frame} {rest : List (Except Error Frame)}
    (hmarks : ∀ frame ∈ marks, StreamState.isDone frame = true)
    (hchunks : ∀ frame ∈ chunks, StreamState.isDone frame = false) (hne : chunks ≠ [])
    (hrest : rest = [] ∨ ∃ frame more, rest = .ok frame :: more ∧ StreamState.isDone frame = true) :
    messagePieces ((marks ++ chunks).map .ok ++ rest) = chunks.flatMap framePieces := by
  have hdrop : ((marks ++ chunks).map Except.ok ++ rest).dropWhile isMark
      = chunks.map .ok ++ rest := by
    rw [List.map_append, List.append_assoc, List.dropWhile_append_of_pos]
    · obtain ⟨first, later, rfl⟩ := List.exists_cons_of_ne_nil hne
      refine List.dropWhile_cons_of_neg ?_
      simp [isMark, hchunks first]
    · simpa [isMark] using hmarks
  have htake : rest.takeWhile (!isMark ·) = [] := by
    rcases hrest with rfl | ⟨frame, more, rfl, hdone⟩
    · rfl
    · exact List.takeWhile_cons_of_neg (by simp [isMark, hdone])
  rw [messagePieces, hdrop, List.takeWhile_append_of_pos (by simpa [isMark] using hchunks), htake,
    List.append_nil, List.filterMap_map]
  exact congrArg (List.flatMap framePieces) List.filterMap_some

namespace StreamState

open Step

variable {ps : List Json} {events : List Event} {s s' : StreamState}

/-! ## The end of the message -/

/-- At the end of a message that has begun the refusal is given, and all blocks end. -/
theorem finish_of_gathers {more : List Event} (h : Gathers ps events s)
    (hs : finish s = (s', .ok more)) :
    more = refusalEvents s.refusal ++ s.envelope.endEvents ++ [.messageStop] := by
  obtain ⟨owners, made, howns, -⟩ := h
  have hunfinished := howns.blocks.envelope.unfinished
  have htruncated : s.envelope.isTruncated = false := by
    by_contra htrue
    rw [Bool.not_eq_false] at htrue
    simp [finish, choose, htrue, fail] at hs
  obtain ⟨t, hgive, henvelope⟩ := exists_giveRefusal_eq hunfinished
  have hfinish := finish_eq htruncated hgive
  rw [henvelope, Envelope.conclude_eq howns.started hunfinished, hs] at hfinish
  rw [Except.ok.inj (Prod.mk.inj hfinish).2, List.append_assoc]

theorem step_of_isDone {frame : Frame} {more : List Event} (h : Gathers ps events s)
    (hdone : isDone frame = true) (hs : step frame s = (s', .ok more)) :
    more = refusalEvents s.refusal ++ s.envelope.endEvents ++ [.messageStop] := by
  rw [step, if_pos hdone, update_andThen] at hs
  have hmarked : Gathers ps events { s with envelope := { s.envelope with terminal := true } } :=
    h.congr (.of_eq rfl rfl rfl rfl) rfl
  exact (finish_of_gathers hmarked hs :)

/-- Before the message has begun there is nothing to end. -/
theorem finish_of_idle (h : Idle events s) : finish s = (s, .ok []) := by
  obtain ⟨-, terminal, rfl⟩ := h
  rfl

theorem step_of_idle {frame : Frame} (h : Idle events s) (hdone : isDone frame = true) :
    ∃ s', step frame s = (s', .ok []) ∧ Idle events s' := by
  obtain ⟨hnone, terminal, rfl⟩ := h
  exact ⟨{ envelope := { terminal := true } }, by rw [step, if_pos hdone]; rfl, hnone, true, rfl⟩

/-! ## Frames -/

/-- A frame that is no end mark reports an error, or its pieces are gathered. -/
theorem failure_or_gathers {frame : Frame} {more : List Event} (hdone : isDone frame = false)
    (h : Taken ps events s) (hs : step frame s = (s', .ok more)) :
    (∃ kind message, more = [.failure kind message]) ∨
      Gathers (ps ++ framePieces frame) (events ++ more) s' := by
  rw [step, if_neg (by rw [hdone]; exact Bool.false_ne_true), Chunk.parse] at hs
  rw [framePieces, chunkOf]
  cases hread : Json.read? frame.data with
  | none =>
    rw [hread] at hs
    cases (Prod.mk.inj hs).2
  | some chunk =>
    rw [hread] at hs
    dsimp only at hs
    cases hfailure : Chunk.failure? chunk with
    | none => exact .inr (addChunk_gathers hfailure _ _ _ _ h hs)
    | some failure =>
      obtain ⟨kind, message, rfl⟩ := exists_of_failure? hfailure
      rw [addChunk, hfailure] at hs
      exact .inl ⟨kind, message, (Except.ok.inj (Prod.mk.inj hs).2).symm⟩

/-- The message has ended or failed, or what is said holds. -/
def EndedOr (I : List Event → StreamState → Prop) (events : List Event) (s : StreamState) : Prop :=
  (∃ e ∈ events, e.isEnd) ∨ I events s

/-- The frames are end marks, and chunks behind them whose pieces have been gathered. -/
def Received (fs : List Frame) (events : List Event) (s : StreamState) : Prop :=
  ∃ marks chunks, fs = marks ++ chunks ∧ (∀ frame ∈ marks, isDone frame = true) ∧
    (∀ frame ∈ chunks, isDone frame = false) ∧
    (chunks = [] ∧ Idle events s ∨ chunks ≠ [] ∧ Gathers (chunks.flatMap framePieces) events s)

theorem taken_of_received {chunks : List Frame} (h : chunks = [] ∧ Idle events s ∨
    chunks ≠ [] ∧ Gathers (chunks.flatMap framePieces) events s) :
    Taken (chunks.flatMap framePieces) events s := by
  rcases h with ⟨rfl, hidle⟩ | ⟨-, hgathers⟩
  · exact .inl ⟨rfl, hidle⟩
  · exact .inr hgathers

theorem step_receives (fs : List Frame) (frame : Frame) :
    Leads (EndedOr (Received fs)) (EndedOr (Received (fs ++ [frame]))) (step frame) := by
  rintro events s s' more (⟨e, he, hend⟩ | ⟨marks, chunks, rfl, hmarks, hchunks, hstate⟩) hs
  · exact .inl ⟨e, List.mem_append_left _ he, hend⟩
  cases hdone : isDone frame with
  | true =>
    -- in front of the message one more mark, behind its chunks the end
    rcases hstate with ⟨rfl, hidle⟩ | ⟨-, hgathers⟩
    · obtain ⟨t, ht, hidle'⟩ := step_of_idle hidle hdone
      obtain ⟨rfl, hmore⟩ := Prod.mk.inj (ht.symm.trans hs)
      obtain rfl := Except.ok.inj hmore
      refine .inr ⟨marks ++ [frame], [], by simp, ?_, by simp, .inl ⟨rfl, ?_⟩⟩
      · simpa [or_imp, forall_and, hdone] using hmarks
      · rwa [List.append_nil]
    · rw [step_of_isDone hgathers hdone hs]
      exact .inl ⟨.messageStop, by simp, rfl⟩
  | false =>
    rcases failure_or_gathers hdone (taken_of_received hstate) hs with
      ⟨kind, message, rfl⟩ | hgathers
    · exact .inl ⟨.failure kind message, by simp, rfl⟩
    · refine .inr ⟨marks, chunks ++ [frame], by simp, hmarks, ?_, .inr ⟨by simp, ?_⟩⟩
      · simpa [or_imp, forall_and, hdone] using hchunks
      · rwa [List.flatMap_append, List.flatMap_singleton]

theorem steps_receive (fs : List Frame) :
    Leads (EndedOr (Received [])) (EndedOr (Received fs)) (sequence (fs.map step)) :=
  leads_sequence_map (P := fun before => EndedOr (Received before)) fun before frame _ _ =>
    step_receives before frame

/-! ## Replies -/

/-- The blocks that come of what has been said: the calls are made of the pieces at their places. -/
theorem exists_finals {owners : List (Option Nat)} {made : Option Nat → OpenBlock}
    (hspells : ∀ owner ∈ owners, Spells ps owner (made owner))
    (hclose : ∀ block ∈ owners.map made, ∃ b, block.close .openai = .ok b) :
    ∃ finals : List Block,
      (owners.map made).map (OpenBlock.close .openai) = finals.map (fun b => .ok (some b)) ∧
      List.Forall₂ (IsMadeAt ps) owners.reduceOption (finals.filterMap Block.toolCall?) := by
  induction owners with
  | nil => exact ⟨[], rfl, .nil⟩
  | cons owner rest ih =>
    obtain ⟨hspelled, hspells⟩ := List.forall_mem_cons.1 hspells
    rw [List.map_cons] at hclose
    obtain ⟨⟨b, hb⟩, hclose⟩ := List.forall_mem_cons.1 hclose
    obtain ⟨finals, hfinals, hcalls⟩ := ih hspells hclose
    cases owner with
    | none =>
      obtain ⟨text, hmade⟩ := hspelled
      refine ⟨.text text :: finals, ?_, hcalls⟩
      rw [List.map_cons, List.map_cons, List.map_cons, hfinals, hmade]
      rfl
    | some p =>
      obtain ⟨id, name, hid, hname, hmade⟩ := hspelled
      rw [hmade, OpenBlock.close] at hb
      cases hread : OpenBlock.readArguments? (String.join ((piecesAt ps p).map pieceArguments)) with
      | none =>
        rw [hread] at hb
        cases hb
      | some arguments =>
        refine ⟨.toolCall ⟨id, name, arguments⟩ :: finals, ?_, .cons ⟨hid, hname, hread⟩ hcalls⟩
        rw [List.map_cons, List.map_cons, List.map_cons, hfinals, hmade, OpenBlock.close, hread]

/-- The calls of a message that is whole when it ends. -/
theorem Gathers.calls (h : Gathers ps events s)
    (hwhole : ∀ i, Transcript.stepsAt i
        (events ++ refusalEvents s.refusal ++ s.envelope.endEvents) ≠ [] →
      Transcript.IsWhole
        (Transcript.stepsAt i (events ++ refusalEvents s.refusal ++ s.envelope.endEvents))) :
    List.Forall₂ (IsMadeAt ps) (places ps) (Transcript.reply .openai
      (events ++ refusalEvents s.refusal ++ s.envelope.endEvents)).message.toolCalls := by
  obtain ⟨owners, made, howns, hplaces, hspells⟩ := h
  have hholds : s.envelope.Holds .openai (events ++ refusalEvents s.refusal) (owners.map made) := by
    unfold refusalEvents
    split
    · rw [List.append_nil]
      exact howns.blocks.envelope
    · exact howns.blocks.envelope.note howns.started rfl rfl
  obtain ⟨finals, hfinals, hcalls⟩ := exists_finals hspells (hholds.exists_close hwhole)
  have hcontent := (hholds.bears_endEvents hfinals).content_eq
  rw [Transcript.filterMap_zipIdx] at hcontent
  have hsame : (Transcript.reply .openai (events ++ refusalEvents s.refusal
      ++ s.envelope.endEvents)).message.toolCalls = finals.filterMap Block.toolCall? := by
    rw [Message.toolCalls, Transcript.reply]
    dsimp only
    rw [hcontent, List.filterMap_append]
    split <;> simp [Block.toolCall?]
  rw [hsame, ← hplaces]
  exact hcalls

theorem Gathers.isEnd_eq_false (h : Gathers ps events s) : ∀ e ∈ events, e.isEnd = false := by
  obtain ⟨owners, made, howns, -⟩ := h
  obtain ⟨⟨history, hledger, -⟩, -⟩ := howns.blocks
  exact hledger.ongoing.isEnd_eq_false

/-- The message ends with an end mark or with the stream, when its pieces have been gathered. -/
theorem Received.exists_of_messageStop {fs : List Frame} {rest : List (Except Error Frame)}
    {last : Step StreamState} {first later : List Event} (h : Received fs events s)
    (hlast : rest = [] ∧ last = finish ∨
      ∃ frame more, rest = .ok frame :: more ∧ last = step frame)
    (hgiven : last s = (s', .ok (first ++ .messageStop :: later))) :
    Gathers (messagePieces (fs.map .ok ++ rest)) events s ∧
      first = refusalEvents s.refusal ++ s.envelope.endEvents := by
  obtain ⟨marks, chunks, rfl, hmarks, hchunks, hstate⟩ := h
  -- Nothing ends a message that has not begun, and a chunk ends none.
  obtain ⟨hne, hgathers, hrest, hmore⟩ : chunks ≠ [] ∧
      Gathers (chunks.flatMap framePieces) events s ∧
      (rest = [] ∨ ∃ frame more, rest = .ok frame :: more ∧ isDone frame = true) ∧
      first ++ .messageStop :: later
        = refusalEvents s.refusal ++ s.envelope.endEvents ++ [.messageStop] := by
    rcases hlast with ⟨rfl, rfl⟩ | ⟨frame, more, rfl, rfl⟩
    · rcases hstate with ⟨rfl, hidle⟩ | ⟨hne, hgathers⟩
      · rw [finish_of_idle hidle] at hgiven
        simp at hgiven
      · exact ⟨hne, hgathers, .inl rfl, finish_of_gathers hgathers hgiven⟩
    · cases hdone : isDone frame with
      | true =>
        rcases hstate with ⟨rfl, hidle⟩ | ⟨hne, hgathers⟩
        · obtain ⟨t, ht, -⟩ := step_of_idle hidle hdone
          rw [ht] at hgiven
          simp at hgiven
        · exact ⟨hne, hgathers, .inr ⟨frame, more, rfl, hdone⟩,
            step_of_isDone hgathers hdone hgiven⟩
      | false =>
        rcases failure_or_gathers hdone (taken_of_received hstate) hgiven with
          ⟨kind, message, hfailure⟩ | hgathers
        · have hmem : Event.messageStop ∈ [Event.failure kind message] := by simp [← hfailure]
          simp at hmem
        · cases hgathers.isEnd_eq_false .messageStop (by simp)
  rw [messagePieces_eq hmarks hchunks hne hrest]
  have hnostop : Event.messageStop ∉ refusalEvents s.refusal ++ s.envelope.endEvents := by
    intro hmem
    rcases List.mem_append.1 hmem with hmem | hmem
    · cases isInner_refusalEvents _ _ hmem
    · cases s.envelope.isInner_endEvents _ hmem
  exact ⟨hgathers,
    ((List.append_cons_inj_of_notMem hnostop List.not_mem_nil).1 hmore.symm).1.symm⟩

end StreamState

open StreamState Step

variable {ids : CallIds} {stop : StopRequest} {ending : Ending} {frames : List (Except Error Frame)}
  {reply : Reply}

/-- A stream that gives a reply gives a call for every place at which a piece of its message is
taken. -/
theorem calls_of_readStream (h : (readStream .openai ids stop ending frames).result = .ok reply) :
    List.Forall₂ (IsMadeAt (messagePieces frames)) (places (messagePieces frames))
      reply.message.toolCalls := by
  obtain ⟨fs, rest, last, s, s', events, first, later, rfl, hlast, hsteps, hgiven, hgoing, hwhole,
    rfl⟩ := exists_last_of_readStream Translation.openai rfl (fun _ _ => rfl) (fun _ => rfl) h
  have hbegun : EndedOr (Received []) [] {} :=
    .inr ⟨[], [], rfl, by simp, by simp, .inl ⟨rfl, rfl, false, rfl⟩⟩
  rcases steps_receive fs [] {} s events hbegun hsteps with ⟨e, he, hend⟩ | hreceived
  · rw [hgoing e (List.mem_append_left _ he)] at hend
    cases hend
  · rw [List.nil_append] at hreceived
    obtain ⟨hgathers, rfl⟩ := hreceived.exists_of_messageStop hlast hgiven
    rw [← List.append_assoc] at hwhole ⊢
    exact hgathers.calls hwhole

/-! ## Calls that survive -/

/-- Every id that a piece bears is that of a call. -/
def Survive (ps : List Json) (calls : List ToolCall) : Prop :=
  ∀ piece ∈ ps, ∀ id ∈ pieceId? piece, ∃ call ∈ calls, call.id = id

/-- No call has arguments from a piece that bears another id than its own. -/
def AreApart (ps : List Json) (calls : List ToolCall) : Prop :=
  List.Forall₂ (fun p call => ∀ piece ∈ piecesAt ps p, ∀ id ∈ pieceId? piece,
    pieceArguments piece = "" ∨ call.id = id) (places ps) calls

section Calls

variable {ps : List Json} {calls : List ToolCall}

theorem map_firstId?_places (h : List.Forall₂ (IsMadeAt ps) (places ps) calls) :
    (places ps).map (firstId? ps) = calls.map fun call => some call.id := by
  rw [← List.forall₂_eq_eq_eq, List.forall₂_map_left_iff, List.forall₂_map_right_iff]
  exact h.imp fun p call hmade => hmade.id

theorem survive_iff (h : List.Forall₂ (IsMadeAt ps) (places ps) calls) :
    Survive ps calls ↔
      ∀ piece ∈ ps, ∀ id ∈ pieceId? piece, ∃ p ∈ places ps, firstId? ps p = some id := by
  have hid (id : String) :
      (∃ call ∈ calls, call.id = id) ↔ ∃ p ∈ places ps, firstId? ps p = some id := by
    rw [← List.mem_map, ← List.mem_map, map_firstId?_places h]
    simp
  simp only [Survive, hid]

theorem areApart_iff (h : List.Forall₂ (IsMadeAt ps) (places ps) calls) :
    AreApart ps calls ↔ ∀ piece ∈ ps, ∀ id ∈ pieceId? piece,
      pieceArguments piece = "" ∨ firstId? ps (place piece) = some id := by
  have hplaces : AreApart ps calls ↔ ∀ p ∈ places ps, ∀ piece ∈ piecesAt ps p,
      ∀ id ∈ pieceId? piece, pieceArguments piece = "" ∨ firstId? ps p = some id := by
    unfold AreApart
    generalize places ps = ns at h
    induction h with
    | nil => simp
    | cons hmade _ ih =>
      rw [List.forall₂_cons, List.forall_mem_cons, ih]
      simp only [hmade.id, Option.some.injEq]
  rw [hplaces]
  constructor
  · intro hall piece hpiece
    exact hall _ (mem_places_iff.2 ⟨piece, hpiece, rfl⟩) piece (by simp [piecesAt, hpiece])
  · intro hall p _ piece hpiece
    obtain ⟨hmem, rfl⟩ : piece ∈ ps ∧ place piece = p := by simpa [piecesAt] using hpiece
    exact hall piece hmem

end Calls

/-- A stream that gives a reply gives a call for every place at which a piece of its message is
taken. An id survives exactly if the first piece at some place bears it, and the calls are kept
apart exactly if all arguments come in pieces that bear no id or that of the first at their place.
-/
theorem streamed_calls_iff
    (h : (readStream .openai ids stop ending frames).result = .ok reply) :
    let ps := messagePieces frames
    let calls := reply.message.toolCalls
    List.Forall₂ (IsMadeAt ps) (places ps) calls ∧
      (Survive ps calls ↔
        ∀ piece ∈ ps, ∀ id ∈ pieceId? piece, ∃ p ∈ places ps, firstId? ps p = some id) ∧
      (AreApart ps calls ↔ ∀ piece ∈ ps, ∀ id ∈ pieceId? piece,
        pieceArguments piece = "" ∨ firstId? ps (place piece) = some id) :=
  have hcalls := calls_of_readStream h
  ⟨hcalls, survive_iff hcalls, areApart_iff hcalls⟩

theorem chunkOf_toText {chunk : Json} (h : Json.IsReprinted chunk) :
    chunkOf ⟨none, chunk.toText⟩ = chunk := by
  rw [chunkOf, show Json.read? chunk.toText = some chunk from h, Option.getD_some]

theorem isDone_toText {chunk : Json} (h : Json.IsReprinted chunk) :
    isDone ⟨none, chunk.toText⟩ = false := by
  have hread : Json.read? (Frame.mk none chunk.toText).data = some chunk := h
  exact isDone_of_read? hread

theorem step_toText {chunk : Json} (h : Json.IsReprinted chunk) :
    step ⟨none, chunk.toText⟩ = addChunk chunk := by
  have hread : (Json.read? (Frame.mk none chunk.toText).data).isSome := Option.isSome_of_eq_some h
  rw [step_eq (isDone_toText h) hread, chunkOf_toText h]

theorem messagePieces_framesOf {chunks : List Json}
    (h : ∀ chunk ∈ chunks, Json.IsReprinted chunk) :
    messagePieces (framesOf chunks) = chunks.flatMap pieces := by
  by_cases hne : chunks = []
  · rw [hne]
    rfl
  · have hchunks : ∀ frame ∈ chunks.map fun chunk => Frame.mk none chunk.toText,
        isDone frame = false := by
      intro frame hframe
      obtain ⟨chunk, hchunk, rfl⟩ := List.mem_map.1 hframe
      exact isDone_toText (h chunk hchunk)
    have hpieces := messagePieces_eq (fun _ => False.elim ∘ List.not_mem_nil) hchunks
      (mt List.map_eq_nil_iff.1 hne) (.inl rfl)
    rw [List.nil_append, List.append_nil, List.flatMap_map] at hpieces
    refine hpieces.trans (List.flatMap_congr fun chunk hchunk => ?_)
    rw [framePieces, chunkOf_toText (h chunk hchunk)]

/-- The reply that is read of chunks. -/
theorem readStream_framesOf (ids : CallIds) (reply : Reply) {chunks : List Json}
    (h : ∀ chunk ∈ chunks, Json.IsReprinted chunk)
    (hreply : ((sequence (chunks.map addChunk)).andThen finish {}).2.bind
      (fun events => assemble .openai (events.map .ok)) = .ok reply) :
    (readStream .openai ids none .closes (framesOf chunks)).result = .ok reply := by
  have hsteps : (chunks.map fun chunk => Frame.mk none chunk.toText).map step
      = chunks.map addChunk := by
    rw [List.map_map]
    refine List.map_congr_left fun chunk hchunk => ?_
    rw [Function.comp_apply, step_toText (h chunk hchunk)]
  cases htaken : (sequence (chunks.map addChunk)).andThen finish {} with
  | mk s given =>
    rw [htaken] at hreply
    cases given with
    | error err => cases hreply
    | ok events =>
      rw [← hsteps] at htaken
      have hnew : Translation.new .openai ids = .openai {} := rfl
      have hevents := streamEvents_of_steps Translation.openai hnew (fun _ _ => rfl)
        (fun _ => rfl) htaken
      have hread := readReply_eq_assemble .openai ids (framesOf chunks)
      rw [framesOf, hevents] at hread
      exact hread.trans hreply

/-- Two calls at places of their own, the arguments of the first in two pieces. -/
def pairedChunks : List Json := [
  .object [("choices", .array [.object [("delta", .object [("tool_calls", .array [
    .object [("function", .object [("arguments", .string "[1"), ("name", .string "find")]),
      ("id", .string "a"), ("index", .ofCount 0)],
    .object [("function", .object [("arguments", .string ""), ("name", .string "open")]),
      ("id", .string "b"), ("index", .ofCount 1)]])])]])],
  .object [("choices", .array [.object [("delta", .object [("tool_calls", .array [
    .object [("function", .object [("arguments", .string "]")]), ("index", .ofCount 0)]])]),
    ("finish_reason", .string "tool_calls")]])]]

/-- The reply that both calls are in. -/
def pairedReply : Reply where
  message := {
    role := .assistant
    content := [.toolCall ⟨"a", "find", .array [.ofCount 1]⟩,
      .toolCall ⟨"b", "open", Json.emptyObject⟩]
    stopReason := some .toolCall }
  usage := {}

theorem streamed_calls_iff_paired :
    (readStream .openai .numbered none .closes (framesOf pairedChunks)).result = .ok pairedReply ∧
      Survive (messagePieces (framesOf pairedChunks)) pairedReply.message.toolCalls ∧
      AreApart (messagePieces (framesOf pairedChunks)) pairedReply.message.toolCalls := by
  have hprinted : ∀ chunk ∈ pairedChunks, Json.IsReprinted chunk := by decide +kernel
  have hread := readStream_framesOf .numbered pairedReply hprinted (by decide +kernel)
  obtain ⟨-, hsurvive, hapart⟩ := streamed_calls_iff hread
  refine ⟨hread, hsurvive.2 ?_, hapart.2 ?_⟩
  · rw [messagePieces_framesOf hprinted]
    decide +kernel
  · rw [messagePieces_framesOf hprinted]
    decide +kernel

/-- Two calls that do not say their positions. -/
def fusedChunks : List Json := [
  .object [("choices", .array [.object [
    ("delta", .object [("tool_calls", .array [
      .object [("function", .object [("arguments", .string "[1"), ("name", .string "find")]),
        ("id", .string "a")],
      .object [("function", .object [("arguments", .string "]"), ("name", .string "open")]),
        ("id", .string "b")]])]),
    ("finish_reason", .string "tool_calls")]])]]

/-- The reply in which they are one. -/
def fusedReply : Reply where
  message := {
    role := .assistant
    content := [.toolCall ⟨"a", "find", .array [.ofCount 1]⟩]
    stopReason := some .toolCall }
  usage := {}

/-- Calls that do not say their positions need neither survive nor be kept apart. -/
theorem streamed_calls_fuse :
    (readStream .openai .numbered none .closes (framesOf fusedChunks)).result = .ok fusedReply ∧
      ¬ Survive (messagePieces (framesOf fusedChunks)) fusedReply.message.toolCalls ∧
      ¬ AreApart (messagePieces (framesOf fusedChunks)) fusedReply.message.toolCalls := by
  have hprinted : ∀ chunk ∈ fusedChunks, Json.IsReprinted chunk := by decide +kernel
  have hread := readStream_framesOf .numbered fusedReply hprinted (by decide +kernel)
  have hcalls := calls_of_readStream hread
  rw [messagePieces_framesOf hprinted] at hcalls ⊢
  refine ⟨hread, ?_, ?_⟩
  · rw [survive_iff hcalls]
    decide +kernel
  · rw [areApart_iff hcalls]
    decide +kernel

end ChatWire.OpenAI
