import ChatWire.Proofs.Dialect.GeminiParts
import ChatWire.Proofs.Json.Reprint
import ChatWire.Proofs.Stream.Ledger

/-!
# The ledger of a Gemini stream

At most one block is open, that of the run that the next part may go on with. All other blocks come
whole, and what they hold can be read back (`Gemini.StreamState.step_keeps`).
-/

namespace ChatWire.Gemini.StreamState

open ChatWire.Step
open Dialect (argumentsOf)

/-- The state agrees with the histories of the blocks. -/
structure Agrees (s : StreamState) (events : List Event) (history : Nat → BlockTrace) : Prop where
  /-- So does its envelope. -/
  envelope : s.envelope.Ledger .gemini events history
  /-- The block of the run is open. -/
  run : ∀ kind i, s.run = some (kind, i) → (history i).openAs? = some kind.opening
  /-- Nothing else is open. -/
  opened : ∀ i, (history i).IsOpen → ∃ kind, s.run = some (kind, i)
  /-- There are no signatures before the message begins. -/
  signatures : s.envelope.started = false → s.signatures = []

/-- Some histories agree with the state. -/
def Kept (events : List Event) (s : StreamState) : Prop := ∃ history, s.Agrees events history

/-- The message has begun, and some histories agree with the state. -/
def Begun (events : List Event) (s : StreamState) : Prop :=
  s.envelope.started = true ∧ Kept events s

theorem kept_new (ids : CallIds) : Kept [] { ids } :=
  ⟨fun _ => .unopened, Envelope.ledger_new _, by simp, by simp [BlockTrace.IsOpen], fun _ => rfl⟩

theorem start_leads : Leads Kept Begun start := by
  refine leads_emit fun events s hkept => ?_
  obtain ⟨history, henvelope, hrun, hopened, hsignatures⟩ := hkept
  obtain ⟨hledger, hstarted⟩ := henvelope.start
  exact ⟨hstarted, history, hledger, hrun, hopened, fun h => by simp [hstarted] at h⟩

/-- Words and counts about the message as a whole may change. -/
theorem leads_restate {f : StreamState → StreamState}
    (henvelope : ∀ s, (f s).envelope.SameBlocks s.envelope) (hrun : ∀ s, (f s).run = s.run) :
    Keeps Begun (update f) := by
  refine leads_update fun events s hbegun => ?_
  obtain ⟨hstarted, history, hledger, hr, ho, -⟩ := hbegun
  have hstarted' : (f s).envelope.started = true := by rw [(henvelope s).started, hstarted]
  refine ⟨hstarted', history, hledger.congr (henvelope s), ?_, ?_, fun h => ?_⟩
  · rwa [hrun]
  · rwa [hrun]
  · simp [hstarted'] at h

theorem noteUsage_keeps (chunk : Json) : Keeps Begun (noteUsage chunk) := by
  unfold noteUsage
  split
  · split
    · exact leads_restate (fun _ => .of_eq rfl rfl rfl rfl) fun _ => rfl
    · exact leads_fail
  · exact leads_skip fun _ _ h => h

theorem noteFinish_keeps (candidate : Json) : Keeps Begun (noteFinish candidate) := by
  unfold noteFinish
  split
  · exact leads_restate (fun _ => .of_eq rfl rfl rfl rfl) fun _ => rfl
  · exact leads_skip fun _ _ h => h

theorem noteBlocked_keeps (chunk : Json) : Keeps Begun (noteBlocked chunk) := by
  unfold noteBlocked
  split
  · refine leads_emit fun events s hbegun => ?_
    obtain ⟨hstarted, history, henvelope, hrun, hopened, hsignatures⟩ := hbegun
    refine ⟨hstarted, history, ?_, hrun, hopened, hsignatures⟩
    exact (henvelope.note hstarted rfl rfl).congr (.of_eq rfl rfl rfl rfl)
  · exact leads_skip fun _ _ h => h

/-! ## Runs -/

variable {s : StreamState} {events : List Event}

/-- No block is open behind the end of a run. -/
theorem endRun_begun (h : Begun events s) :
    Begun (events ++ s.endRun.2) s.endRun.1 ∧ s.endRun.1.run = none := by
  obtain ⟨hstarted, history, henvelope, hrun, hopened, hsignatures⟩ := h
  unfold endRun
  split
  case h_1 kind i hs =>
    obtain ⟨fs, hi⟩ := BlockTrace.exists_of_openAs? (hrun kind i hs)
    have hreadable : kind.opening.IsReadable fs := by cases kind <;> trivial
    refine ⟨⟨hstarted, _, henvelope.closeBlock hi fun _ => hreadable, by simp, fun j hj => ?_,
      hsignatures⟩, rfl⟩
    by_cases hji : j = i
    · subst hji
      rw [Function.update_self] at hj
      cases hj
    · rw [Function.update_of_ne hji] at hj
      obtain ⟨kind', hs'⟩ := hopened j hj
      rw [hs] at hs'
      exact absurd (congrArg Prod.snd (Option.some.inj hs')).symm hji
  case h_2 hs =>
    exact ⟨by simpa using ⟨hstarted, history, henvelope, hrun, hopened, hsignatures⟩, hs⟩

/-- A new run has an open block. -/
theorem beginRun_begun (h : Begun events s) (kind : RunKind) :
    Begun (events ++ (s.beginRun kind).2.2) (s.beginRun kind).1 ∧
      (s.beginRun kind).1.run = some (kind, (s.beginRun kind).2.1) := by
  obtain ⟨⟨hstarted, history, henvelope, hrun, hopened, hsignatures⟩, hnone⟩ := endRun_begun h
  have hledger := henvelope.openBlock hstarted kind.opening
  rw [List.append_assoc] at hledger
  refine ⟨⟨hstarted, _, hledger, fun kind' i hi => ?_, fun i hi => ?_, hsignatures⟩, rfl⟩
  · obtain ⟨rfl, rfl⟩ : kind = kind' ∧ s.endRun.1.envelope.next = i := by
      simpa [beginRun] using hi
    rw [Function.update_self]
    rfl
  · by_cases hnext : i = s.endRun.1.envelope.next
    · exact ⟨kind, by rw [hnext]; rfl⟩
    · rw [Function.update_of_ne hnext] at hi
      obtain ⟨kind', hs⟩ := hopened i hi
      rw [hnone] at hs
      cases hs

/-- The run that is gone on with is of the kind. -/
theorem extendRun_begun (h : Begun events s) (kind : RunKind) :
    Begun (events ++ (s.extendRun kind).2.2) (s.extendRun kind).1 ∧
      (s.extendRun kind).1.run = some (kind, (s.extendRun kind).2.1) := by
  unfold extendRun
  split
  case h_1 current i hs =>
    by_cases hkind : current = kind
    · rw [if_pos hkind]
      exact ⟨by simpa using h, by rw [hs, hkind]⟩
    · rw [if_neg hkind]
      exact beginRun_begun h kind
  case h_2 => exact beginRun_begun h kind

/-- The block of a run grows by what its kind takes. -/
theorem growRun_begun (h : Begun events s) {kind : RunKind} {i : Nat} (hs : s.run = some (kind, i))
    {f : Fragment} (hf : kind.opening.accepts f) : Begun (events ++ [.blockDelta i f]) s := by
  obtain ⟨hstarted, history, henvelope, hrun, hopened, hsignatures⟩ := h
  obtain ⟨fs, hi⟩ := BlockTrace.exists_of_openAs? (hrun kind i hs)
  refine ⟨hstarted, _, henvelope.grow hi hf, fun kind' j hj => ?_, fun j hj => ?_, hsignatures⟩
  · rw [BlockTrace.openAs?_update_grown hi]
    exact hrun kind' j hj
  · rw [BlockTrace.isOpen_iff, BlockTrace.openAs?_update_grown hi, ← BlockTrace.isOpen_iff] at hj
    exact hopened j hj

/-! ## Blocks that come whole -/

theorem note_begun (h : Begun events s) (i : Nat) (isCall : Bool) :
    Begun events (s.note i isCall) := by
  obtain ⟨hstarted, history, henvelope, hrun, hopened, hsignatures⟩ := h
  exact ⟨hstarted, history, henvelope, hrun, hopened, hsignatures⟩

/-- A block that comes whole has ended behind it. -/
theorem addWhole_begun (h : Begun events s) {o : Opening} {fs : List Fragment}
    (hfs : ∀ f ∈ fs, o.accepts f) (hreadable : o.IsReadable fs) (isCall : Bool) :
    Begun (events ++ (s.addWhole o fs isCall).2.2) (s.addWhole o fs isCall).1 := by
  obtain ⟨⟨hstarted, history, henvelope, hrun, hopened, hsignatures⟩, hnone⟩ := endRun_begun h
  have hgrown := (henvelope.openBlock hstarted o).growAll (Function.update_self _ _ _) hfs
  have hclosed := hgrown.closeBlock (Function.update_self _ _ _) fun _ => hreadable
  have hevents : events ++ (s.addWhole o fs isCall).2.2 = events ++ s.endRun.2 ++
      (s.endRun.1.envelope.openBlock o).2 ++ fs.map (.blockDelta s.endRun.1.envelope.next) ++
      ((s.endRun.1.envelope.openBlock o).1.closeBlock s.endRun.1.envelope.next).2 := by
    simp [addWhole]
  have hwhole : Begun (events ++ (s.addWhole o fs isCall).2.2) { s.endRun.1 with envelope :=
      ((s.endRun.1.envelope.openBlock o).1.closeBlock s.endRun.1.envelope.next).1 } := by
    rw [hevents]
    refine ⟨hstarted, _, hclosed, fun kind i hi => ?_, fun i hi => ?_, hsignatures⟩
    · rw [hnone] at hi
      cases hi
    · by_cases hnext : i = s.endRun.1.envelope.next
      · subst hnext
        rw [Function.update_self] at hi
        cases hi
      · simp only [Function.update_of_ne hnext] at hi
        obtain ⟨kind, hs⟩ := hopened i hi
        rw [hnone] at hs
        cases hs
  exact note_begun hwhole _ isCall

/-! ## Parts -/

theorem addThought_begun (h : Begun events s) (t : Thinking) :
    Begun (events ++ (s.addThought t).2) (s.addThought t).1 := by
  obtain ⟨hbegun, hrun⟩ := extendRun_begun h .thought
  have hgrown := growRun_begun hbegun hrun (f := .thinking t.text) rfl
  unfold addThought
  simp only
  split
  · simpa using hgrown
  · have hsealed := growRun_begun hgrown hrun (f := .signature t.signature) rfl
    simpa using (endRun_begun hsealed).1

/-- The block of a part goes to an open block of its kind, or comes whole. -/
theorem addBlock_begun (h : Begun events s) {block : Option Block}
    (hreadable : ∀ c, block = some (.toolCall c) →
      (OpenBlock.readArguments? c.arguments.toText).isSome) :
    Begun (events ++ (s.addBlock block).2.2) (s.addBlock block).1 := by
  unfold addBlock
  split
  case h_1 text =>
    obtain ⟨hbegun, hrun⟩ := extendRun_begun h .text
    have hgrown := growRun_begun hbegun hrun (f := .text text) rfl
    simpa using note_begun hgrown _ false
  case h_2 t => exact addThought_begun h t
  case h_3 c =>
    refine addWhole_begun h (by simp [Opening.accepts]) ?_ true
    have hspell : Fragment.spell Fragment.arguments? [.arguments c.arguments.toText]
        = c.arguments.toText := by
      simp [Fragment.spell, Fragment.arguments?]
    unfold Opening.IsReadable
    rw [← Opening.readArguments?_spell, hspell]
    exact hreadable c rfl
  case h_4 a =>
    have hreadable' : (Opening.attachment a).IsReadable [] := trivial
    exact addWhole_begun h (by simp) hreadable' false
  case h_5 => simpa using h

/-- The text of arguments that came with a chunk can be read back. -/
theorem readArguments?_toText {v : Json} (h : v.depth ≤ Json.maxDepth) :
    (OpenBlock.readArguments? v.toText).isSome := by
  unfold OpenBlock.readArguments?
  split
  · rfl
  · rw [Json.read?_toText h]
    rfl

theorem depth_field?_le {v w : Json} {underscored camel : String}
    (h : field? v underscored camel = some w) : w.depth ≤ v.depth := by
  rcases Option.or_eq_some_iff.1 h with hfound | ⟨-, hfound⟩
  · exact Json.depth_le_of_get? hfound
  · exact Json.depth_le_of_get? hfound

theorem depth_argumentsOf_le (v : Json) : (argumentsOf v).depth ≤ max v.depth 1 := by
  cases v <;> simp [argumentsOf, Json.emptyObject, Json.depth, Json.depthOfMembers]

/-- A call's arguments nest no deeper than the part that they came with. -/
theorem depth_arguments_le {freshId : String} {part : Json} {c : ToolCall}
    (h : decodePart freshId part = .ok (some (.toolCall c))) :
    c.arguments.depth ≤ max part.depth 1 := by
  cases Gives.of_decodePart h with
  | toolCall call _ _ hcall hc =>
    rw [arguments_of_decodeCall hc]
    have hargs := depth_argumentsOf_le (call.get "args")
    have hget := Json.depth_get_le call "args"
    have hpart := depth_field?_le hcall
    omega

theorem addPart_keeps {part : Json} (h : part.depth ≤ Json.maxDepth) :
    Keeps Begun (addPart part) := by
  intro events s s' more hbegun hs
  obtain ⟨block, signatures, hblock, rfl, rfl⟩ := addPart_eq_ok hs
  have hreadable : ∀ c, block = some (.toolCall c) →
      (OpenBlock.readArguments? c.arguments.toText).isSome := by
    rintro c rfl
    have hdepth := depth_arguments_le hblock
    have hone : 1 ≤ Json.maxDepth := by decide
    exact readArguments?_toText (by omega)
  obtain ⟨hstarted, history, henvelope, hrun, hopened, -⟩ := addBlock_begun hbegun hreadable
  exact ⟨hstarted, history, henvelope, hrun, hopened, fun hnot => by simp [hstarted] at hnot⟩

/-! ## Chunks and the end -/

/-- A part nests no deeper than the chunk whose candidate it is of. -/
theorem depth_le_of_mem_candidate {chunk candidate part : Json}
    (hcandidate : (chunk.get "candidates").first? = some candidate)
    (hpart : part ∈ ((candidate.get "content").get "parts").elements?.getD []) :
    part.depth ≤ chunk.depth := by
  calc part.depth ≤ ((candidate.get "content").get "parts").depth :=
        Json.depth_le_of_mem_elements? hpart
    _ ≤ (candidate.get "content").depth := Json.depth_get_le _ _
    _ ≤ candidate.depth := Json.depth_get_le _ _
    _ ≤ (chunk.get "candidates").depth := Json.depth_le_of_first? hcandidate
    _ ≤ chunk.depth := Json.depth_get_le _ _

/-- A chunk that a frame holds keeps the ledger, or is an error that the provider reports. -/
theorem addChunk_leads {chunk : Json} (h : chunk.depth ≤ Json.maxDepth) :
    Leads Kept (OverOr .gemini Kept) (addChunk chunk) := by
  unfold addChunk
  split
  case h_1 failure hfailure =>
    refine leads_failure hfailure fun _ _ hkept => ?_
    obtain ⟨history, hagrees⟩ := hkept
    exact ⟨history, hagrees.envelope.ongoing⟩
  case h_2 =>
    refine leads_sequence_cons start_leads (leads_sequence_cons (noteUsage_keeps chunk)
      (leads_sequence_cons (J := Begun) ?_ (leads_skip fun _ _ hbegun => .inr hbegun.2)))
    split
    case h_1 => exact noteBlocked_keeps chunk
    case h_2 candidate hcandidate =>
      refine Leads.andThen (leads_sequence fun step hstep => ?_) (noteFinish_keeps candidate)
      obtain ⟨part, hpart, rfl⟩ := List.mem_map.1 hstep
      exact addPart_keeps ((depth_le_of_mem_candidate hcandidate hpart).trans h)

theorem giveSignatures_keeps : Keeps Kept giveSignatures := by
  refine leads_emit fun events s hkept => ?_
  obtain ⟨history, henvelope, hrun, hopened, hsignatures⟩ := hkept
  rw [henvelope.unfinished]
  simp only [Bool.false_eq_true, if_false]
  by_cases hstarted : s.envelope.started = true
  · refine ⟨history, ?_, hrun, hopened, fun _ => rfl⟩
    cases signatureValue? s.signatures (s.firstCall.or s.firstOther) with
    | none => simpa using henvelope
    | some value => exact henvelope.note hstarted rfl rfl
  · -- There is nothing to give before the message begins.
    rw [hsignatures (by simpa using hstarted)]
    refine ⟨history, ?_, hrun, hopened, fun _ => rfl⟩
    simpa [signatureValue?] using henvelope

theorem finish_leads : Leads Kept (OverOr .gemini Kept) finish := by
  refine leads_choose fun s => ?_
  split
  · exact leads_fail
  · refine (giveSignatures_keeps.strengthen fun _ _ h => h.1).andThen
      (leads_emit fun events t hkept => ?_)
    obtain ⟨history, hagrees⟩ := hkept
    by_cases hstarted : t.envelope.started = true
    · refine .inl (hagrees.envelope.conclude hstarted fun _ i o fs hi => ?_)
      obtain ⟨kind, hkind⟩ := hagrees.opened i (by rw [hi]; trivial)
      have hopenAs := hagrees.run kind i hkind
      obtain rfl : o = kind.opening := by simpa [hi, BlockTrace.openAs?] using hopenAs
      cases kind <;> trivial
    · refine .inr ⟨history, ?_⟩
      simpa [Envelope.conclude, hstarted] using hagrees

/-- A frame keeps the ledger, or the transcript is over with it. -/
theorem step_keeps (frame : Frame) : Keeps (OverOr .gemini Kept) (step frame) := by
  unfold step
  split
  · exact leads_fail
  case h_2 chunk hchunk =>
    refine Leads.overOr (addChunk_leads ?_)
    unfold Chunk.parse at hchunk
    split at hchunk
    case h_1 v hread =>
      obtain rfl := Except.ok.inj hchunk
      exact Json.depth_le_of_read? hread
    case h_2 => cases hchunk

end ChatWire.Gemini.StreamState
