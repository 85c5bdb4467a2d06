import ChatWire.Proofs.Stream.Order
import ChatWire.Proofs.Stream.Steps

/-!
# Ledgers

An envelope knows whether the message has begun, which blocks are open and which index is free. Its
ledger (`Envelope.Ledger`) keeps the history of every block beside it, and says that the envelope
and the events so far agree with them. Every operation on an envelope has an entry in the ledger,
and `Envelope.conclude` closes it: the transcript has then ended in order
(`Envelope.Ledger.conclude`).
-/

namespace ChatWire

open Transcript

variable {provider : Provider} {events : List Event}

namespace BlockTrace

/-- What an open block began with. -/
def openAs? : BlockTrace → Option Opening
  | .opened opening _ => some opening
  | _ => none

theorem isOpen_iff (t : BlockTrace) : t.IsOpen ↔ t.openAs?.isSome := by
  cases t <;> simp [IsOpen, openAs?]

theorem exists_of_openAs? {t : BlockTrace} {o : Opening} (h : t.openAs? = some o) :
    ∃ fs, t = .opened o fs := by
  cases t with
  | opened o' fs =>
    obtain rfl : o' = o := Option.some.inj h
    exact ⟨fs, rfl⟩
  | _ => simp [openAs?] at h

/-- Growing changes no opening. -/
theorem openAs?_update_grown {history : Nat → BlockTrace} {i : Nat} {o : Opening}
    {fs : List Fragment} (hi : history i = .opened o fs) (more : List Fragment) (j : Nat) :
    (Function.update history i (.opened o more) j).openAs? = (history j).openAs? := by
  by_cases hj : j = i
  · subst hj
    rw [Function.update_self, hi]
    rfl
  · rw [Function.update_of_ne hj]

/-- A new block leaves the open ones as they are. -/
theorem openAs?_update_unopened {history : Nat → BlockTrace} {i : Nat} (hi : history i = .unopened)
    (t : BlockTrace) {j : Nat} {o : Opening} (hj : (history j).openAs? = some o) :
    (Function.update history i t j).openAs? = some o := by
  have hne : j ≠ i := by
    rintro rfl
    simp [hi, openAs?] at hj
  rwa [Function.update_of_ne hne]

/-- The history of a block that ends, if it is open. -/
def stop : BlockTrace → BlockTrace
  | .opened opening fragments => .stopped opening fragments
  | t => t

theorem stop_steps {t : BlockTrace} (h : t.IsOpen) : t.stop.steps = t.steps ++ [.stops] := by
  cases t <;> simp_all [IsOpen, stop, steps]

theorem stop_of_not_isOpen {t : BlockTrace} (h : ¬ t.IsOpen) : t.stop = t := by
  cases t <;> simp_all [IsOpen, stop]

theorem not_isOpen_stop (t : BlockTrace) : ¬ t.stop.IsOpen := by
  cases t <;> simp [IsOpen, stop]

theorem IsAccepted.stop {t : BlockTrace} (h : t.IsAccepted) : t.stop.IsAccepted := by
  cases t <;> exact h

end BlockTrace

/-! ## Transcripts that have ended -/

namespace Transcript

theorem upToEnd_append_of_exists {early : List Event} (h : ∃ e ∈ early, e.isEnd)
    (rest : List Event) : upToEnd (early ++ rest) = upToEnd early := by
  induction early with
  | nil => simp at h
  | cons e early ih =>
    rw [List.cons_append, upToEnd, upToEnd]
    by_cases he : e.isEnd = true
    · rw [if_pos he, if_pos he]
    · have hmore : ∃ e ∈ early, e.isEnd := by simpa [he] using h
      rw [if_neg he, if_neg he, ih hmore]

/-- Stops at different indices are one step for each of them. -/
theorem stepsAt_stops {indices : List Nat} (h : indices.Nodup) (i : Nat) :
    stepsAt i (indices.map .blockStop) = if i ∈ indices then [.stops] else [] := by
  induction indices with
  | nil => rfl
  | cons j rest ih =>
    obtain ⟨hj, hrest⟩ := List.nodup_cons.1 h
    rw [List.map_cons, stepsAt_cons, ih hrest]
    by_cases hij : i = j
    · subst hij
      simp [Event.stepAt?, hj]
    · simp [Event.stepAt?, hij, Ne.symm hij]

/-- The transcript has come to its end, and was in order up to there. -/
structure IsOver (provider : Provider) (events : List Event) : Prop where
  orderly : IsOrderly provider (upToEnd events)
  ended : ∃ e ∈ events, e.isEnd

/-- What comes behind the end does not matter. -/
theorem IsOver.append (h : IsOver provider events) (more : List Event) :
    IsOver provider (events ++ more) where
  orderly := by
    rw [upToEnd_append_of_exists h.ended]
    exact h.orderly
  ended := by
    obtain ⟨e, he, hend⟩ := h.ended
    exact ⟨e, List.mem_append_left _ he, hend⟩

theorem IsOngoing.isOver_messageStop {history : Nat → BlockTrace}
    (h : IsOngoing provider events history) (hbegun : events ≠ [])
    (hopen : ∀ i, ¬ (history i).IsOpen) : IsOver provider (events ++ [.messageStop]) where
  orderly := by
    rw [upToEnd_append h.isEnd_eq_false]
    exact .ends h hbegun hopen
  ended := ⟨.messageStop, by simp, rfl⟩

theorem IsOngoing.isOver_failure {history : Nat → BlockTrace}
    (h : IsOngoing provider events history) (kind message : String) :
    IsOver provider (events ++ [.failure kind message]) where
  orderly := by
    rw [upToEnd_append h.isEnd_eq_false]
    exact .fails h kind message
  ended := ⟨.failure kind message, by simp, rfl⟩

end Transcript

/-! ## The ledger of an envelope -/

/-- The events so far and the envelope agree with the histories that are kept of the blocks. -/
structure Envelope.Ledger (provider : Provider) (e : Envelope) (events : List Event)
    (history : Nat → BlockTrace) : Prop where
  /-- The message goes on. -/
  ongoing : IsOngoing provider events history
  /-- It has begun once there are events. -/
  started : e.started = true ↔ events ≠ []
  /-- It has not ended. -/
  unfinished : e.finished = false
  /-- No block has had the next index or a later one. -/
  fresh : ∀ i, e.next ≤ i → history i = .unopened
  /-- The open blocks are those that the envelope lists, -/
  opened : ∀ i, (history i).IsOpen ↔ i ∈ e.opened
  /-- and it lists none of them twice. -/
  nodup : e.opened.Nodup

namespace Envelope

/-- The envelopes differ at most in the words and counts about the message as a whole. -/
structure SameBlocks (e e' : Envelope) : Prop where
  of_eq ::
  started : e.started = e'.started
  finished : e.finished = e'.finished
  next : e.next = e'.next
  opened : e.opened = e'.opened

theorem ledger_new (provider : Provider) : Ledger provider {} [] fun _ => .unopened where
  ongoing := .nil provider
  started := by simp
  unfinished := rfl
  fresh _ _ := rfl
  opened i := by simp [BlockTrace.IsOpen]
  nodup := List.nodup_nil

namespace Ledger

variable {e : Envelope} {history : Nat → BlockTrace}

/-- Words and counts about the message as a whole do not touch the ledger. -/
theorem congr (h : e.Ledger provider events history) {e' : Envelope} (hsame : e'.SameBlocks e) :
    e'.Ledger provider events history := by
  obtain ⟨hongoing, hstarted, hfinished, hfresh, hopened, hnodup⟩ := h
  refine ⟨hongoing, ?_, ?_, ?_, ?_, ?_⟩
  · rwa [hsame.started]
  · rwa [hsame.finished]
  · rwa [hsame.next]
  · rwa [hsame.opened]
  · rwa [hsame.opened]

theorem start (h : e.Ledger provider events history) :
    e.start.1.Ledger provider (events ++ e.start.2) history ∧ e.start.1.started = true := by
  unfold Envelope.start
  split
  case isTrue hstarted => exact ⟨by simpa using h, hstarted⟩
  case isFalse hstarted =>
    have hnil : events = [] := by
      by_contra hne
      exact hstarted (h.started.2 hne)
    subst hnil
    refine ⟨⟨?_, by simp, h.unfinished, h.fresh, h.opened, h.nodup⟩, rfl⟩
    refine ⟨.inr ⟨.assistant, {}, [], rfl, by simp⟩, fun i => ?_, h.ongoing.accepted,
      h.ongoing.readable⟩
    rw [h.ongoing.steps]
    rfl

/-- An event about no block. -/
theorem note (h : e.Ledger provider events history) (hstarted : e.started = true) {x : Event}
    (hx : x.isInner) (hindex : x.index? = none) :
    e.Ledger provider (events ++ [x]) history where
  ongoing := h.ongoing.concat_of_index?_eq_none (h.started.1 hstarted) hx hindex
  started := by simp [hstarted]
  unfinished := h.unfinished
  fresh := h.fresh
  opened := h.opened
  nodup := h.nodup

/-- The next index is not that of an open block. -/
theorem next_notMem (h : e.Ledger provider events history) : e.next ∉ e.opened := by
  rw [← h.opened, h.fresh e.next (Nat.le_refl _)]
  exact id

/-- A block is open only in a message that has begun. -/
theorem ne_nil (h : e.Ledger provider events history) {i : Nat} {o : Opening} {fs : List Fragment}
    (hi : history i = .opened o fs) : events ≠ [] := by
  rintro rfl
  have hsteps := h.ongoing.steps i
  simp [hi, BlockTrace.steps] at hsteps

/-- The index of an open block is below the next one. -/
theorem lt_next (h : e.Ledger provider events history) {i : Nat} {o : Opening} {fs : List Fragment}
    (hi : history i = .opened o fs) : i < e.next := by
  by_contra hle
  rw [h.fresh i (Nat.le_of_not_lt hle)] at hi
  cases hi

/-- A new block has an index that no block has had. -/
theorem openBlock (h : e.Ledger provider events history) (hstarted : e.started = true)
    (o : Opening) :
    (e.openBlock o).1.Ledger provider (events ++ (e.openBlock o).2)
      (Function.update history e.next (.opened o [])) where
  ongoing := by
    have hstep : (Event.blockStart e.next o).stepAt? e.next = some (.opens o) := by
      simp [Event.stepAt?]
    refine h.ongoing.concat_of_step (h.started.1 hstarted) hstep ?_ ?_ ?_
    · rw [h.fresh e.next (Nat.le_refl _)]
      rfl
    · simp [BlockTrace.IsAccepted]
    · intro _ o' fs ht
      cases ht
  started := by simp [Envelope.openBlock, hstarted]
  unfinished := h.unfinished
  fresh i hi := by
    have hnext : e.next + 1 ≤ i := hi
    rw [Function.update_of_ne (by omega)]
    exact h.fresh i (by omega)
  opened i := by
    by_cases hi : i = e.next
    · subst hi
      simp [Envelope.openBlock, BlockTrace.IsOpen]
    · rw [Function.update_of_ne hi, h.opened]
      simp [Envelope.openBlock, hi]
  nodup := by
    refine List.nodup_append.2 ⟨h.nodup, List.nodup_singleton _, fun i hi j hj hij => ?_⟩
    rw [List.mem_singleton.1 hj] at hij
    exact h.next_notMem (hij ▸ hi)

/-- An open block grows by a fragment that it takes. -/
theorem grow (h : e.Ledger provider events history) {i : Nat} {o : Opening} {fs : List Fragment}
    (hi : history i = .opened o fs) {f : Fragment} (hf : o.accepts f) :
    e.Ledger provider (events ++ [.blockDelta i f])
      (Function.update history i (.opened o (fs ++ [f]))) where
  ongoing := by
    have hstep : (Event.blockDelta i f).stepAt? i = some (.grows f) := by simp [Event.stepAt?]
    refine h.ongoing.concat_of_step (h.ne_nil hi) hstep ?_ ?_ ?_
    · simp [hi, BlockTrace.steps]
    · have haccepted := h.ongoing.accepted i
      rw [hi] at haccepted
      intro g hg
      rcases List.mem_append.1 hg with hg | hg
      · exact haccepted g hg
      · rw [List.mem_singleton.1 hg]
        exact hf
    · intro _ o' fs' ht
      cases ht
  started := by simp [h.started.2 (h.ne_nil hi)]
  unfinished := h.unfinished
  fresh j hj := by
    have hlt := h.lt_next hi
    rw [Function.update_of_ne (by omega)]
    exact h.fresh j hj
  opened j := by
    by_cases hj : j = i
    · subst hj
      rw [← h.opened, hi, Function.update_self]
      exact Iff.rfl
    · rw [Function.update_of_ne hj, h.opened]
  nodup := h.nodup

/-- An open block grows by several fragments that it takes. -/
theorem growAll (h : e.Ledger provider events history) {i : Nat} {o : Opening} {fs : List Fragment}
    (hi : history i = .opened o fs) {more : List Fragment} (hmore : ∀ f ∈ more, o.accepts f) :
    e.Ledger provider (events ++ more.map (.blockDelta i))
      (Function.update history i (.opened o (fs ++ more))) := by
  induction more using List.reverseRecOn with
  | nil => simpa [← hi] using h
  | append_singleton more f ih =>
    have hgrown := ih fun g hg => hmore g (List.mem_append_left _ hg)
    have hf : o.accepts f := hmore f (by simp)
    simpa [List.append_assoc] using hgrown.grow (Function.update_self i _ _) hf

/-- An open block ends. -/
theorem closeBlock (h : e.Ledger provider events history) {i : Nat} {o : Opening}
    {fs : List Fragment} (hi : history i = .opened o fs)
    (hreadable : provider ≠ .openai → o.IsReadable fs) :
    (e.closeBlock i).1.Ledger provider (events ++ (e.closeBlock i).2)
      (Function.update history i (.stopped o fs)) where
  ongoing := by
    have hstep : (Event.blockStop i).stepAt? i = some .stops := by simp [Event.stepAt?]
    refine h.ongoing.concat_of_step (h.ne_nil hi) hstep ?_ ?_ ?_
    · simp [hi, BlockTrace.steps]
    · have haccepted := h.ongoing.accepted i
      rw [hi] at haccepted
      exact haccepted
    · intro hp o' fs' ht
      obtain ⟨rfl, rfl⟩ := BlockTrace.stopped.inj ht
      exact hreadable hp
  started := by simp [Envelope.closeBlock, h.started.2 (h.ne_nil hi)]
  unfinished := h.unfinished
  fresh j hj := by
    have hlt := h.lt_next hi
    have hnext : e.next ≤ j := hj
    rw [Function.update_of_ne (by omega)]
    exact h.fresh j hj
  opened j := by
    by_cases hj : j = i
    · subst hj
      simp [Envelope.closeBlock, BlockTrace.IsOpen]
    · rw [Function.update_of_ne hj, h.opened]
      simp [Envelope.closeBlock, hj]
  nodup := h.nodup.filter _

/-- All open blocks end, and then the message. -/
theorem conclude (h : e.Ledger provider events history) (hstarted : e.started = true)
    (hreadable : provider ≠ .openai → ∀ i o fs, history i = .opened o fs → o.IsReadable fs) :
    IsOver provider (events ++ e.conclude.2) := by
  have hbegun : events ≠ [] := h.started.1 hstarted
  have hstopped : IsOngoing provider (events ++ e.opened.map .blockStop)
      fun i => (history i).stop := by
    refine ⟨.inr (h.ongoing.framed_append hbegun ?_), fun i => ?_,
      fun i => (h.ongoing.accepted i).stop, fun hp i o fs hi => ?_⟩
    · intro x hx
      obtain ⟨i, -, rfl⟩ := List.mem_map.1 hx
      rfl
    · rw [stepsAt_append, stepsAt_stops h.nodup, ← h.ongoing.steps]
      by_cases hi : i ∈ e.opened
      · rw [if_pos hi, BlockTrace.stop_steps ((h.opened i).2 hi)]
      · rw [if_neg hi, BlockTrace.stop_of_not_isOpen (mt (h.opened i).1 hi), List.append_nil]
    · cases hi' : history i with
      | unopened => simp [hi', BlockTrace.stop] at hi
      | opened o' fs' =>
        obtain ⟨rfl, rfl⟩ : o' = o ∧ fs' = fs := by simpa [hi', BlockTrace.stop] using hi
        exact hreadable hp i _ _ hi'
      | stopped o' fs' =>
        obtain ⟨rfl, rfl⟩ : o' = o ∧ fs' = fs := by simpa [hi', BlockTrace.stop] using hi
        exact h.ongoing.readable hp i _ _ hi'
  have hconclude : e.conclude.2
      = e.opened.map .blockStop ++ [.messageDelta e.stopReason none e.usage] ++ [.messageStop] := by
    simp [Envelope.conclude, h.unfinished, hstarted]
  rw [hconclude, ← List.append_assoc, ← List.append_assoc]
  have hnoted := hstopped.concat_of_index?_eq_none (e := .messageDelta e.stopReason none e.usage)
    (by simp [hbegun]) rfl rfl
  exact hnoted.isOver_messageStop (by simp) fun i => (history i).not_isOpen_stop

end Ledger

end Envelope

/-! ## Steps that keep a ledger -/

/-- The transcript is over, or a ledger is kept. -/
def OverOr {σ : Type} (provider : Provider) (kept : List Event → σ → Prop) (events : List Event)
    (s : σ) : Prop :=
  IsOver provider events ∨ kept events s

namespace Step

variable {σ : Type} {kept kept' : List Event → σ → Prop} {step : Step σ}

/-- A step that goes on with a ledger or closes it does so also behind the end. -/
theorem Leads.overOr (h : Leads kept (OverOr provider kept') step) :
    Leads (OverOr provider kept) (OverOr provider kept') step := by
  intro events s s' more hI hs
  rcases hI with hover | hkept
  · exact .inl (hover.append more)
  · exact h events s s' more hkept hs

theorem exists_of_failure? {chunk : Json} {failure : Event}
    (h : Chunk.failure? chunk = some failure) :
    ∃ kind message, failure = .failure kind message := by
  unfold Chunk.failure? at h
  split at h
  · cases h
  · exact ⟨_, _, (Option.some.inj h).symm⟩
  · exact ⟨_, _, (Option.some.inj h).symm⟩

/-- An error that the provider reports is the end, whatever it is about. -/
theorem leads_failure {chunk : Json} {failure : Event} (h : Chunk.failure? chunk = some failure)
    (hkept : ∀ events s, kept events s → ∃ history, IsOngoing provider events history) :
    Leads kept (OverOr provider kept') (event failure) := by
  refine leads_event fun events s hs => .inl ?_
  obtain ⟨history, hongoing⟩ := hkept events s hs
  obtain ⟨kind, message, rfl⟩ := exists_of_failure? h
  exact hongoing.isOver_failure kind message

theorem Leads.keptOr (h : Leads kept kept' step) :
    Leads (OverOr provider kept) (OverOr provider kept') step :=
  (h.weaken fun _ _ => .inr).overOr

end Step

end ChatWire
