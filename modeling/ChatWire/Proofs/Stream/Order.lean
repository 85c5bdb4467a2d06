import ChatWire.Proofs.Stream.Completion

/-!
# Transcripts in order

A transcript is in order (`Transcript.IsOrderly`) if it is that of a message that goes on, or of one
that ends when no block is open, or if it ends with a failure that the provider reports. An assembly
that takes a transcript in order never complains about the order of events: it fails with what the
provider reports, or with the arguments of a call that are no JSON
(`Transcript.IsOrderly.run_error`).
-/

namespace ChatWire

open Transcript (stepsAt stepsAt_append stepsAt_cons stepsAt_nil)

variable {provider : Provider} {events : List Event}

/-! ## Ends -/

/-- Whether nothing that belongs to the message can come behind an event. -/
def Event.isEnd : Event → Bool
  | .messageStop | .failure .. => true
  | _ => false

theorem Event.isEnd_eq_false {e : Event} (h : e.isInner) : e.isEnd = false := by
  cases e <;> simp_all [isInner, isEnd]

namespace Transcript

/-- The events up to the first end, which is the last of them. -/
def upToEnd : List Event → List Event
  | [] => []
  | e :: rest => if e.isEnd then [e] else e :: upToEnd rest

theorem upToEnd_of_forall {events : List Event} (h : ∀ e ∈ events, e.isEnd = false) :
    upToEnd events = events := by
  induction events with
  | nil => rfl
  | cons e rest ih =>
    rw [upToEnd, h e List.mem_cons_self, ih fun x hx => h x (List.mem_cons_of_mem _ hx)]
    rfl

theorem upToEnd_append {early : List Event} (h : ∀ e ∈ early, e.isEnd = false) (rest : List Event) :
    upToEnd (early ++ rest) = early ++ upToEnd rest := by
  induction early with
  | nil => rfl
  | cons e early ih =>
    rw [List.cons_append, upToEnd, h e List.mem_cons_self,
      ih fun x hx => h x (List.mem_cons_of_mem _ hx)]
    rfl

/-! ## Messages that go on -/

/-- The events are those of a message that has not ended, nothing about it is out of order, and
the history of every block is the one that is kept for it. -/
structure IsOngoing (provider : Provider) (events : List Event) (history : Nat → BlockTrace) :
    Prop where
  /-- The message has not begun, or it has and has not ended. -/
  framed : events = [] ∨
    ∃ role usage inner, events = .messageStart role usage :: inner ∧ ∀ e ∈ inner, e.isInner
  /-- The histories are those of the blocks. -/
  steps : ∀ i, (history i).steps = stepsAt i events
  /-- Every block took its fragments. -/
  accepted : ∀ i, (history i).IsAccepted
  /-- The blocks that have ended can be made, save in the OpenAI format, where the arguments of a
  call are whatever its pieces spell. -/
  readable : provider ≠ .openai → ∀ i o fs, history i = .stopped o fs → o.IsReadable fs

/-- A transcript in order. -/
inductive IsOrderly (provider : Provider) : List Event → Prop where
  /-- The message goes on. -/
  | goesOn {events : List Event} {history : Nat → BlockTrace}
      (h : IsOngoing provider events history) : IsOrderly provider events
  /-- The message ends, and no block is open. -/
  | ends {events : List Event} {history : Nat → BlockTrace}
      (h : IsOngoing provider events history) (hbegun : events ≠ [])
      (hopen : ∀ i, ¬ (history i).IsOpen) : IsOrderly provider (events ++ [.messageStop])
  /-- The provider reports an error. -/
  | fails {events : List Event} {history : Nat → BlockTrace}
      (h : IsOngoing provider events history) (kind message : String) :
      IsOrderly provider (events ++ [.failure kind message])

namespace IsOngoing

variable {history : Nat → BlockTrace}

theorem nil (provider : Provider) : IsOngoing provider [] fun _ => .unopened where
  framed := .inl rfl
  steps _ := rfl
  accepted _ := trivial
  readable _ i o fs h := by cases h

theorem isEnd_eq_false (h : IsOngoing provider events history) : ∀ e ∈ events, e.isEnd = false := by
  intro e he
  rcases h.framed with rfl | ⟨role, usage, inner, rfl, hinner⟩
  · cases he
  · rcases List.mem_cons.1 he with rfl | he
    · rfl
    · exact Event.isEnd_eq_false (hinner e he)

/-- Events inside the message go on with a message that has begun. -/
theorem framed_append (h : IsOngoing provider events history) (hbegun : events ≠ [])
    {more : List Event} (hmore : ∀ e ∈ more, e.isInner) : ∃ role usage inner,
      events ++ more = .messageStart role usage :: inner ∧ ∀ e ∈ inner, e.isInner := by
  rcases h.framed with rfl | ⟨role, usage, inner, rfl, hinner⟩
  · exact absurd rfl hbegun
  · refine ⟨role, usage, inner ++ more, rfl, fun x hx => ?_⟩
    rcases List.mem_append.1 hx with hx | hx
    · exact hinner x hx
    · exact hmore x hx

/-- An event about no block changes no history. -/
theorem concat_of_index?_eq_none (h : IsOngoing provider events history) (hbegun : events ≠ [])
    {e : Event} (he : e.isInner) (hindex : e.index? = none) :
    IsOngoing provider (events ++ [e]) history where
  framed := .inr (h.framed_append hbegun (by simpa using he))
  steps i := by
    have hnone : e.stepAt? i = none := Event.stepAt?_eq_none (by simp [hindex])
    simp [hnone, h.steps]
  accepted := h.accepted
  readable := h.readable

/-- An event about a block adds its step to the history of that block. -/
theorem concat_of_step (h : IsOngoing provider events history) (hbegun : events ≠ []) {e : Event}
    {i : Nat} {step : BlockStep} (hstep : e.stepAt? i = some step) {t : BlockTrace}
    (ht : t.steps = (history i).steps ++ [step]) (haccepted : t.IsAccepted)
    (hreadable : provider ≠ .openai → ∀ o fs, t = .stopped o fs → o.IsReadable fs) :
    IsOngoing provider (events ++ [e]) (Function.update history i t) where
  framed := by
    refine .inr (h.framed_append hbegun ?_)
    cases e <;> simp_all [Event.stepAt?, Event.isInner]
  steps j := by
    rw [stepsAt_append, stepsAt_cons, stepsAt_nil, List.append_nil, ← h.steps]
    by_cases hj : j = i
    · subst hj
      rw [Function.update_self, ht, hstep, Option.toList_some]
    · have hnone : e.stepAt? j = none := Event.stepAt?_eq_none (by
        rw [Event.index?_of_stepAt? hstep]
        exact fun hi => hj (Option.some.inj hi).symm)
      rw [Function.update_of_ne hj, hnone, Option.toList_none, List.append_nil]
  accepted j := by
    by_cases hj : j = i
    · subst hj
      rwa [Function.update_self]
    · rw [Function.update_of_ne hj]
      exact h.accepted j
  readable hp j o fs ht := by
    by_cases hj : j = i
    · subst hj
      rw [Function.update_self] at ht
      exact hreadable hp o fs ht
    · rw [Function.update_of_ne hj] at ht
      exact h.readable hp j o fs ht

/-- What can go wrong with a message that is in order: only in the OpenAI format, and only the
arguments of a call. -/
theorem slot_error (h : IsOngoing provider events history) {i : Nat} {err : Error}
    (herr : (history i).slot provider = .error err) :
    provider = .openai ∧ ∃ text, OpenBlock.readArguments? text = none ∧
      err = .malformed .openai .streamedArguments text := by
  cases ht : history i with
  | unopened => simp [ht, BlockTrace.slot] at herr
  | opened o fs => simp [ht, BlockTrace.slot] at herr
  | stopped o fs =>
    have hclose : (o.grown fs).close provider = .error err := by
      rw [ht, BlockTrace.slot] at herr
      cases hc : (o.grown fs).close provider with
      | error err' => simpa [hc, Except.map] using herr
      | ok b => simp [hc, Except.map] at herr
    obtain ⟨⟨id, name, rfl⟩, hspell, rfl⟩ := Opening.close_grown_eq_error hclose
    have hp : provider = .openai := by
      by_contra hp
      have hread : (Fragment.spellArguments? fs).isSome := h.readable hp i _ fs ht
      simp [hspell] at hread
    subst hp
    exact ⟨rfl, _, hspell, rfl⟩

/-- The events of a message that goes on lead to a draft that tells them, or fail for arguments that
are no JSON. -/
theorem run (h : IsOngoing provider events history) :
    match Assembly.run provider .waiting events with
    | .ok a => (events = [] ∧ a = .waiting) ∨ ∃ d, a = .drafting d ∧ d.Tells provider events
    | .error err => provider = .openai ∧ ∃ text, OpenBlock.readArguments? text = none ∧
        err = .malformed .openai .streamedArguments text := by
  rcases h.framed with rfl | ⟨role, usage, inner, hevents, hinner⟩
  · exact .inl ⟨rfl, rfl⟩
  · have hrun := Assembly.run_messageStart provider role usage hinner
    rw [← hevents] at hrun
    cases ha : Assembly.run provider .waiting events with
    | ok a =>
      rw [ha] at hrun
      exact .inr hrun
    | error err =>
      rw [ha] at hrun
      obtain ⟨i, hi⟩ := hrun
      rw [← h.steps, Slot.after_steps provider i (h.accepted i)] at hi
      exact h.slot_error hi

/-- A draft of a message without open block can be concluded. -/
theorem firstOpen?_eq_none (h : IsOngoing provider events history)
    (hopen : ∀ i, ¬ (history i).IsOpen) {d : Draft} (htells : d.Tells provider events) :
    d.firstOpen? = none := by
  rw [htells.firstOpen?_eq_none_iff]
  intro i hi
  obtain ⟨t, ht, haccepted, hslot⟩ := htells.exists_trace i
  obtain rfl : history i = t := BlockTrace.steps_injective ((h.steps i).trans ht.symm)
  have hnot := hopen i
  rw [← ht] at hi ⊢
  cases htrace : history i with
  | unopened => simp [htrace, BlockTrace.steps] at hi
  | opened o fs => simp [htrace, BlockTrace.IsOpen] at hnot
  | stopped o fs =>
    rw [htrace] at haccepted hslot
    refine ⟨o, fs, rfl, haccepted, ?_⟩
    rw [BlockTrace.slot] at hslot
    cases hclose : (o.grown fs).close provider with
    | error err => simp [hclose, Except.map] at hslot
    | ok b => exact ((o.close_grown_eq_ok provider).1 hclose).1

end IsOngoing

/-- A transcript in order fails only with what the provider reports, or, in the OpenAI format, with
the arguments of a call that are no JSON. -/
theorem IsOrderly.run_error (h : IsOrderly provider events) {err : Error}
    (herr : Assembly.run provider .waiting events = .error err) :
    (∃ kind message, .failure kind message ∈ events ∧ err = .reported kind message) ∨
      provider = .openai ∧ ∃ text, OpenBlock.readArguments? text = none ∧
        err = .malformed .openai .streamedArguments text := by
  cases h with
  | goesOn h =>
    have hrun := h.run
    rw [herr] at hrun
    exact .inr hrun
  | @ends early history h hbegun hopen =>
    have hrun := h.run
    rw [Assembly.run_append] at herr
    cases ha : Assembly.run provider .waiting early with
    | error err' =>
      rw [ha] at hrun herr
      obtain rfl : err' = err := Except.error.inj herr
      exact .inr hrun
    | ok a =>
      rw [ha] at hrun herr
      rcases hrun with ⟨hnil, -⟩ | ⟨d, rfl, htells⟩
      · exact absurd hnil hbegun
      · have hconclude : d.conclude provider = .ok (d.reply provider) := by
          rw [Draft.conclude, h.firstOpen?_eq_none hopen htells]
        simp [Except.bind, Assembly.run_cons, Assembly.accept, Assembly.apply, Assembly.advance,
          hconclude, bind, pure, Except.pure] at herr
  | @fails early history h kind message =>
    have hrun := h.run
    rw [Assembly.run_append] at herr
    cases ha : Assembly.run provider .waiting early with
    | error err' =>
      rw [ha] at hrun herr
      obtain rfl : err' = err := Except.error.inj herr
      exact .inr hrun
    | ok a =>
      rw [ha] at hrun herr
      refine .inl ⟨kind, message, by simp, ?_⟩
      rcases hrun with ⟨-, rfl⟩ | ⟨d, rfl, -⟩ <;>
        simpa [Except.bind, Assembly.run_cons, Assembly.accept, Assembly.apply, Assembly.begin,
          Assembly.advance, eq_comm] using herr

/-- In a transcript in order every block begins at most once, then takes fragments of its kind, then
ends at most once, and when the message ends every block that has begun has ended. -/
theorem IsOrderly.exists_trace (h : IsOrderly provider events) (i : Nat) :
    ∃ t : BlockTrace, t.steps = stepsAt i events ∧ t.IsAccepted ∧
      (.messageStop ∈ events → ¬ t.IsOpen) := by
  cases h with
  | @goesOn _ history h =>
    refine ⟨history i, h.steps i, h.accepted i, fun hstop => ?_⟩
    have hend := h.isEnd_eq_false _ hstop
    simp [Event.isEnd] at hend
  | @ends early history h hbegun hopen =>
    exact ⟨history i, by simpa [Event.stepAt?] using h.steps i, h.accepted i, fun _ => hopen i⟩
  | @fails early history h kind message =>
    refine ⟨history i, by simpa [Event.stepAt?] using h.steps i, h.accepted i, fun hstop => ?_⟩
    have hmem : .messageStop ∈ early := by simpa using hstop
    have hend := h.isEnd_eq_false _ hmem
    simp [Event.isEnd] at hend

end Transcript

end ChatWire
