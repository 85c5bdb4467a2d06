import ChatWire.Stream.Translation

/-!
# What steps lead to

What a translation has done so far is known by the events that it gave and by its state. A step
leads from one statement about these to another (`Step.Leads`), and there is a rule for every way in
which steps are put together. What the steps of a translation keep, a whole stream of frames keeps
(`told_deliveriesFrom`).
-/

namespace ChatWire

namespace Step

variable {σ : Type} {I J K : List Event → σ → Prop}

/-- Where `I` holds of the events so far and the state, `J` holds of them after the step, unless the
step fails. -/
def Leads (I J : List Event → σ → Prop) (step : Step σ) : Prop :=
  ∀ events s s' more, I events s → step s = (s', .ok more) → J (events ++ more) s'

/-- What holds before the step holds after it, unless the step fails. -/
abbrev Keeps (I : List Event → σ → Prop) (step : Step σ) : Prop := Leads I I step

theorem Leads.weaken {step : Step σ} (h : Leads I J step)
    (hJ : ∀ events s, J events s → K events s) : Leads I K step :=
  fun events s s' more hI hs => hJ _ _ (h events s s' more hI hs)

theorem Leads.strengthen {step : Step σ} (h : Leads J K step)
    (hI : ∀ events s, I events s → J events s) : Leads I K step :=
  fun events s s' more hI' hs => h events s s' more (hI _ _ hI') hs

theorem leads_update {f : σ → σ} (h : ∀ events s, I events s → J events (f s)) :
    Leads I J (update f) := by
  intro events s s' more hI hs
  obtain ⟨rfl, rfl⟩ : f s = s' ∧ [] = more := by simpa [update] using hs
  simpa using h events s hI

theorem leads_skip (h : ∀ events s, I events s → J events s) : Leads I J skip := leads_update h

theorem leads_emit {f : σ → σ × List Event}
    (h : ∀ events s, I events s → J (events ++ (f s).2) (f s).1) : Leads I J (emit f) := by
  intro events s s' more hI hs
  obtain ⟨rfl, rfl⟩ : (f s).1 = s' ∧ (f s).2 = more := by simpa [emit] using hs
  exact h events s hI

theorem leads_event {e : Event} (h : ∀ events s, I events s → J (events ++ [e]) s) :
    Leads I J (event e) := leads_emit h

theorem leads_fail {e : Error} : Leads I J (fail e) := by
  intro events s s' more hI hs
  simp [fail] at hs

theorem leads_choose {f : σ → Step σ}
    (h : ∀ s, Leads (fun events t => I events t ∧ t = s) J (f s)) : Leads I J (choose f) :=
  fun events s s' more hI hs => h s events s s' more ⟨hI, rfl⟩ hs

theorem Leads.andThen {first second : Step σ} (hfirst : Leads I J first)
    (hsecond : Leads J K second) : Leads I K (first.andThen second) := by
  intro events s s' more hI hs
  unfold Step.andThen at hs
  split at hs
  · simp at hs
  · next t early hfirst' =>
    split at hs
    · simp at hs
    · next t' late hsecond' =>
      obtain ⟨rfl, rfl⟩ : t' = s' ∧ early ++ late = more := by simpa using hs
      rw [← List.append_assoc]
      exact hsecond _ _ _ _ (hfirst _ _ _ _ hI hfirst') hsecond'

/-- What every one of several steps keeps, all of them together keep. -/
theorem leads_sequence {steps : List (Step σ)} (h : ∀ step ∈ steps, Keeps I step) :
    Keeps I (sequence steps) := by
  induction steps with
  | nil => exact leads_skip fun _ _ h => h
  | cons step rest ih =>
    exact (h step List.mem_cons_self).andThen (ih fun step hs => h step (List.mem_cons_of_mem _ hs))

theorem leads_sequence_cons {step : Step σ} {rest : List (Step σ)} (hstep : Leads I J step)
    (hrest : Leads J K (sequence rest)) : Leads I K (sequence (step :: rest)) :=
  hstep.andThen hrest

/-- Steps for the elements of a list, where what holds depends on the elements already taken. -/
theorem leads_sequence_map {α : Type} {P : List α → List Event → σ → Prop} {f : α → Step σ}
    {xs : List α} (h : ∀ before x after, xs = before ++ x :: after →
      Leads (P before) (P (before ++ [x])) (f x)) :
    Leads (P []) (P xs) (sequence (xs.map f)) := by
  have hrest : ∀ rest before, xs = before ++ rest →
      Leads (P before) (P xs) (sequence (rest.map f)) := by
    intro rest
    induction rest with
    | nil =>
      rintro before rfl
      refine leads_skip fun events s hs => ?_
      rwa [List.append_nil]
    | cons x rest ih =>
      intro before hxs
      have hmore : xs = before ++ [x] ++ rest := by rw [hxs, List.append_assoc]; rfl
      exact leads_sequence_cons (h before x rest hxs) (ih _ hmore)
  exact hrest xs [] rfl

end Step

/-! ## Streams of frames -/

/-- A step of a translation is one of the state that it wraps. -/
theorem Translation.exists_of_wrapped {σ : Type} (wrap : σ → Translation) {t : Translation}
    {taken : σ × Except Error (List Event)} {given : Except Error (List Event)}
    (h : (wrap taken.1, taken.2) = (t, given)) : ∃ s, taken = (s, given) ∧ wrap s = t := by
  obtain ⟨hwrap, hgiven⟩ := Prod.mk.inj h
  exact ⟨taken.1, Prod.ext rfl hgiven, hwrap⟩

/-- The events among deliveries. -/
def told (deliveries : List Delivery) : List Event :=
  deliveries.filterMap fun d => d.item.toOption

@[simp] theorem told_nil : told [] = [] := rfl

@[simp] theorem told_append (first second : List Delivery) :
    told (first ++ second) = told first ++ told second := by
  simp [told]

@[simp] theorem told_deliver_ok (handed : Nat) (events : List Event) :
    told (deliver handed (.ok events)) = events := by
  rw [told, deliver, List.filterMap_map]
  exact List.filterMap_some

@[simp] theorem told_error (handed : Nat) (e : Error) : told [⟨handed, .error e⟩] = [] := rfl

/-- What every frame of a stream keeps and the end of the stream completes holds of the events of
the whole stream. -/
theorem told_deliveriesFrom {I : List Event → Translation → Prop} {F : List Event → Prop}
    {frames : List (Except Error Frame)} (hI : ∀ events t, I events t → F events)
    (hframe : ∀ frame, .ok frame ∈ frames → ∀ events t t' more, I events t →
      t.step frame = (t', .ok more) → I (events ++ more) t')
    (hfinish : ∀ events t t' more, I events t → t.finish = (t', .ok more) → F (events ++ more))
    (ending : Ending) (handed : Nat) {events : List Event} {t : Translation} (h : I events t) :
    F (events ++ told (deliveriesFrom t ending handed frames)) := by
  induction frames generalizing events t handed with
  | nil =>
    cases ending with
    | stallsUntilStop => simpa [deliveriesFrom] using hI events t h
    | closes =>
      simp only [deliveriesFrom]
      cases hend : t.finish with
      | mk t' given =>
        cases given with
        | error e => simpa [deliver] using hI events t h
        | ok more => simpa using hfinish events t t' more h hend
  | cons frame rest ih =>
    cases frame with
    | error e => simpa [deliveriesFrom] using hI events t h
    | ok frame =>
      have hrest : ∀ frame, .ok frame ∈ rest → ∀ events t t' more, I events t →
          t.step frame = (t', .ok more) → I (events ++ more) t' :=
        fun frame hf => hframe frame (List.mem_cons_of_mem _ hf)
      simp only [deliveriesFrom]
      cases hstep : t.step frame with
      | mk t' given =>
        cases given with
        | error e => simpa using hI events t h
        | ok more =>
          have hmore : I (events ++ more) t' :=
            hframe frame List.mem_cons_self events t t' more h hstep
          simpa [List.append_assoc] using ih hrest (handed + 1) hmore

end ChatWire
