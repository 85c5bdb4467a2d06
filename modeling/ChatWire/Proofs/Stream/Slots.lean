import ChatWire.Proofs.Stream.Transcript

/-!
# Slots

What an assembly makes of one block depends on what happened at the block's index and on nothing
else. `Slot.next` is one step of it, `Slot.after` the whole, and a `BlockTrace` is a history that
the order of events allows. The slot after such a history is known (`Slot.after_steps`), and no
other history leads to a slot (`Slot.exists_trace_of_after`).
-/

namespace ChatWire

open Fragment (spell text? arguments? thinking? signature? spellArguments? spell_concat)

/-! ## Growing and closing -/

namespace Opening

/-- The open block that begins so and has grown by the fragments. -/
def grown (o : Opening) (fragments : List Fragment) : OpenBlock :=
  match o with
  | .text s => .text (s ++ spell text? fragments)
  | .toolCall id name => .toolCall id name (spell arguments? fragments)
  | .thinking s signature =>
    .thinking (s ++ spell thinking? fragments) (signature ++ spell signature? fragments)
  | .redactedThinking data => .redactedThinking data
  | .attachment a => .attachment a
  | .unknown kind => .unknown kind

theorem grown_nil (o : Opening) : o.grown [] = .ofOpening o := by
  cases o <;> simp [grown, OpenBlock.ofOpening]

/-- A grown block takes exactly the fragments that its opening accepts. -/
theorem grow?_grown (o : Opening) (fragments : List Fragment) (f : Fragment) :
    (o.grown fragments).grow? f
      = if o.accepts f then some (o.grown (fragments ++ [f])) else none := by
  cases o <;> cases f <;>
    simp [grown, OpenBlock.grow?, accepts, spell_concat, text?, arguments?, thinking?, signature?,
      String.append_assoc]

theorem readArguments?_spell (fragments : List Fragment) :
    OpenBlock.readArguments? (spell arguments? fragments) = spellArguments? fragments := rfl

theorem close_grown_eq_ok (provider : Provider) {o : Opening} {fragments : List Fragment}
    {b : Option Block} :
    (o.grown fragments).close provider = .ok b ↔
      o.IsReadable fragments ∧ o.block? fragments = b := by
  cases o with
  | toolCall id name =>
    simp only [grown, OpenBlock.close, readArguments?_spell, IsReadable, block?]
    cases spellArguments? fragments <;> simp
  | _ => simp [grown, OpenBlock.close, IsReadable, block?]

/-- Only a call can fail to close, and only for its arguments. -/
theorem close_grown_eq_error {provider : Provider} {o : Opening} {fragments : List Fragment}
    {err : Error} (h : (o.grown fragments).close provider = .error err) :
    (∃ id name, o = .toolCall id name) ∧ spellArguments? fragments = none ∧
      err = .malformed provider .streamedArguments (spell arguments? fragments) := by
  cases o with
  | toolCall id name =>
    simp only [grown, OpenBlock.close, readArguments?_spell] at h
    cases hread : spellArguments? fragments with
    | some arguments => simp [hread] at h
    | none =>
      simp only [hread, Except.error.injEq] at h
      exact ⟨⟨id, name, rfl⟩, rfl, h.symm⟩
  | _ => simp [grown, OpenBlock.close] at h

end Opening

/-! ## Histories that the order of events allows -/

/-- How far a block has come. -/
inductive BlockTrace where
  /-- Nothing has happened. -/
  | unopened
  /-- The block has begun and has grown by the fragments. -/
  | opened (opening : Opening) (fragments : List Fragment)
  /-- The block has ended. -/
  | stopped (opening : Opening) (fragments : List Fragment)

namespace BlockTrace

/-- What has happened, in order. -/
def steps : BlockTrace → List BlockStep
  | .unopened => []
  | .opened opening fragments => .opens opening :: fragments.map .grows
  | .stopped opening fragments => .opens opening :: (fragments.map .grows ++ [.stops])

/-- The block took all fragments. -/
def IsAccepted : BlockTrace → Prop
  | .unopened => True
  | .opened opening fragments | .stopped opening fragments => ∀ f ∈ fragments, opening.accepts f

/-- The block has begun and not ended. -/
def IsOpen : BlockTrace → Prop
  | .opened .. => True
  | _ => False

/-- The slot of the block. -/
def slot (provider : Provider) : BlockTrace → Except Error (Option Slot)
  | .unopened => .ok none
  | .opened opening fragments => .ok (some (.opened (opening.grown fragments)))
  | .stopped opening fragments =>
    ((opening.grown fragments).close provider).map fun b => some (.closed b)

/-- What happened tells how far the block has come. -/
theorem steps_injective {s t : BlockTrace} (h : s.steps = t.steps) : s = t := by
  have hgrows : ∀ {fs gs : List Fragment}, fs.map BlockStep.grows = gs.map .grows → fs = gs :=
    fun h => List.map_injective_iff.2 (fun _ _ e => by injection e) h
  have hends : ∀ fs gs : List Fragment, fs.map BlockStep.grows ≠ gs.map .grows ++ [.stops] := by
    intro fs gs h
    have hmem : BlockStep.stops ∈ fs.map BlockStep.grows := by rw [h]; simp
    simp at hmem
  cases s <;> cases t <;> simp only [steps] at h
  case unopened.unopened => rfl
  case opened.opened o fs o' gs =>
    injection h with ho hfs
    injection ho with ho
    rw [ho, hgrows hfs]
  case stopped.stopped o fs o' gs =>
    injection h with ho hfs
    injection ho with ho
    rw [ho, hgrows (List.append_cancel_right hfs)]
  case opened.stopped o fs o' gs => exact absurd (List.cons.inj h).2 (hends fs gs)
  case stopped.opened o fs o' gs => exact absurd (List.cons.inj h).2.symm (hends gs fs)
  all_goals simp at h

end BlockTrace

/-! ## One slot, step by step -/

namespace Slot

/-- What a step makes of the slot at an index. -/
def next (provider : Provider) (i : Nat) : Option Slot → BlockStep → Except Error Slot
  | none, .opens opening => .ok (.opened (.ofOpening opening))
  | some _, .opens _ => Draft.violation (.openedTwice i)
  | none, .grows _ => Draft.violation (.fragmentForUnopened i)
  | some (.closed _), .grows _ => Draft.violation (.fragmentForClosed i)
  | some (.opened block), .grows f =>
    match block.grow? f with
    | some block => .ok (.opened block)
    | none => Draft.violation (.fragmentMismatch f.kindName block.kindName i)
  | none, .stops => Draft.violation (.stopForUnopened i)
  | some (.closed _), .stops => Draft.violation (.stoppedTwice i)
  | some (.opened block), .stops => (block.close provider).map .closed

/-- The slot at an index after some steps. -/
def after (provider : Provider) (i : Nat) (steps : List BlockStep) : Except Error (Option Slot) :=
  steps.foldlM (fun slot step => (next provider i slot step).map some) none

variable {provider : Provider} {i : Nat}

theorem after_nil : after provider i [] = .ok none := rfl

theorem after_append (first second : List BlockStep) :
    after provider i (first ++ second) = (after provider i first).bind fun slot =>
      second.foldlM (fun slot step => (next provider i slot step).map some) slot := by
  rw [after, List.foldlM_append]
  rfl

theorem after_concat (steps : List BlockStep) (step : BlockStep) :
    after provider i (steps ++ [step]) = (after provider i steps).bind fun slot =>
      (next provider i slot step).map some := by
  rw [after_append]
  congr 1
  funext slot
  rw [List.foldlM_cons]
  cases next provider i slot step <;> rfl

/-- A history that fails goes on failing in the same way. -/
theorem after_append_of_error {first : List BlockStep} {err : Error}
    (h : after provider i first = .error err) (second : List BlockStep) :
    after provider i (first ++ second) = .error err := by
  rw [after_append, h]
  rfl

theorem after_opened (o : Opening) (fragments : List Fragment) (h : ∀ f ∈ fragments, o.accepts f) :
    after provider i (.opens o :: fragments.map .grows)
      = .ok (some (.opened (o.grown fragments))) := by
  induction fragments using List.reverseRecOn with
  | nil => simp [after, next, o.grown_nil, Except.map, bind, Except.bind, pure, Except.pure]
  | append_singleton fs f ih =>
    have hfs := ih fun g hg => h g (List.mem_append_left _ hg)
    have hf : o.accepts f = true := h f (by simp)
    rw [List.map_append, ← List.cons_append]
    exact (after_concat _ _).trans (by rw [hfs]; simp [next, Except.bind, Except.map,
      o.grow?_grown, hf])

/-- The slot after a history that the order of events allows. -/
theorem after_steps (provider : Provider) (i : Nat) {t : BlockTrace} (h : t.IsAccepted) :
    after provider i t.steps = t.slot provider := by
  cases t with
  | unopened => rfl
  | opened o fs => exact after_opened o fs h
  | stopped o fs =>
    rw [BlockTrace.steps, ← List.cons_append, after_concat, after_opened o fs h]
    simp only [next, BlockTrace.slot, Except.bind]
    cases (o.grown fs).close provider <;> rfl

/-- No other history leads to a slot. -/
theorem exists_trace_of_after {steps : List BlockStep} {slot : Option Slot}
    (h : after provider i steps = .ok slot) :
    ∃ t : BlockTrace, t.steps = steps ∧ t.IsAccepted ∧ t.slot provider = .ok slot := by
  induction steps using List.reverseRecOn generalizing slot with
  | nil => exact ⟨.unopened, rfl, trivial, h⟩
  | append_singleton steps step ih =>
    rw [after_concat] at h
    cases hsteps : after provider i steps with
    | error err => simp [hsteps, Except.bind] at h
    | ok before =>
      obtain ⟨t, rfl, ht, hslot⟩ := ih hsteps
      simp only [hsteps, Except.bind] at h
      -- The slot before the step tells which histories are left, the step which of them goes on.
      cases t with
      | unopened =>
        obtain rfl : none = before := Except.ok.inj hslot
        cases step with
        | opens o =>
          refine ⟨.opened o [], rfl, by simp [BlockTrace.IsAccepted], ?_⟩
          simpa [BlockTrace.slot, next, Except.map, o.grown_nil] using h
        | grows f => simp [next, Draft.violation, Except.map] at h
        | stops => simp [next, Draft.violation, Except.map] at h
      | opened o fs =>
        obtain rfl : some (.opened (o.grown fs)) = before := Except.ok.inj hslot
        cases step with
        | opens o' => simp [next, Draft.violation, Except.map] at h
        | grows f =>
          simp only [next, o.grow?_grown] at h
          by_cases hf : o.accepts f = true
          · refine ⟨.opened o (fs ++ [f]), by simp [BlockTrace.steps], ?_, ?_⟩
            · intro g hg
              rcases List.mem_append.1 hg with hg | hg
              · exact ht g hg
              · rw [List.mem_singleton.1 hg]; exact hf
            · simpa [hf, Except.map, BlockTrace.slot] using h
          · simp [hf, Draft.violation, Except.map] at h
        | stops =>
          refine ⟨.stopped o fs, by simp [BlockTrace.steps], ht, ?_⟩
          simp only [next] at h
          simp only [BlockTrace.slot]
          cases hclose : (o.grown fs).close provider with
          | error err => simp [hclose, Except.map] at h
          | ok b => simpa [hclose, Except.map] using h
      | stopped o fs =>
        obtain ⟨b, rfl⟩ : ∃ b, some (.closed b) = before := by
          simp only [BlockTrace.slot] at hslot
          cases hclose : (o.grown fs).close provider with
          | error err => simp [hclose, Except.map] at hslot
          | ok b => exact ⟨b, by simpa [hclose, Except.map] using hslot⟩
        cases step <;> simp [next, Draft.violation, Except.map] at h

end Slot

end ChatWire
