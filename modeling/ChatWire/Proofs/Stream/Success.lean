import ChatWire.Proofs.Stream.Steps
import ChatWire.Stream.Reading

/-!
# Steps that succeed

`Step.Leads` says nothing of a step that fails. `Step.Brings` is its total counterpart, with the
same rules: the step succeeds, and what it leads to holds. A stream whose frames all succeed gives
their events (`streamEvents_of_sequence`).
-/

namespace ChatWire

namespace Step

variable {σ : Type} {I J K : List Event → σ → Prop}

/-- Where `I` holds of the events so far and the state, the step succeeds and `J` holds of them
after it. -/
def Brings (I J : List Event → σ → Prop) (step : Step σ) : Prop :=
  ∀ events s, I events s → ∃ s' more, step s = (s', .ok more) ∧ J (events ++ more) s'

theorem Brings.strengthen {step : Step σ} (h : Brings J K step)
    (hI : ∀ events s, I events s → J events s) : Brings I K step :=
  fun events s hs => h events s (hI events s hs)

theorem Brings.weaken {step : Step σ} (h : Brings I J step)
    (hJ : ∀ events s, J events s → K events s) : Brings I K step := by
  intro events s hI
  obtain ⟨s', more, hs, hmore⟩ := h events s hI
  exact ⟨s', more, hs, hJ _ _ hmore⟩

theorem brings_update {f : σ → σ} (h : ∀ events s, I events s → J events (f s)) :
    Brings I J (update f) := by
  intro events s hI
  refine ⟨f s, [], rfl, ?_⟩
  rw [List.append_nil]
  exact h events s hI

theorem brings_skip (h : ∀ events s, I events s → J events s) : Brings I J skip := brings_update h

theorem brings_emit {f : σ → σ × List Event}
    (h : ∀ events s, I events s → J (events ++ (f s).2) (f s).1) : Brings I J (emit f) :=
  fun events s hI => ⟨(f s).1, (f s).2, rfl, h events s hI⟩

theorem andThen_eq_ok {first second : Step σ} {s s' s'' : σ} {early late : List Event}
    (hfirst : first s = (s', .ok early)) (hsecond : second s' = (s'', .ok late)) :
    first.andThen second s = (s'', .ok (early ++ late)) := by
  simp only [Step.andThen, hfirst, hsecond]

theorem update_andThen (f : σ → σ) (second : Step σ) (s : σ) :
    (update f).andThen second s = second (f s) := by
  rcases hsecond : second (f s) with ⟨s', events | events⟩ <;>
    simp only [Step.andThen, update, hsecond, List.nil_append]

/-- Two steps succeed together only if both of them do. -/
theorem exists_of_andThen {first second : Step σ} {s s'' : σ} {events : List Event}
    (h : first.andThen second s = (s'', .ok events)) :
    ∃ s' early late, first s = (s', .ok early) ∧ second s' = (s'', .ok late) ∧
      early ++ late = events := by
  unfold Step.andThen at h
  split at h
  case h_1 => simp at h
  case h_2 s' early hfirst =>
    split at h
    case h_1 => simp at h
    case h_2 t late hsecond =>
      obtain ⟨rfl, hevents⟩ := Prod.mk.inj h
      exact ⟨s', early, late, hfirst, hsecond, Except.ok.inj hevents⟩

theorem Brings.andThen {first second : Step σ} (hfirst : Brings I J first)
    (hsecond : Brings J K second) : Brings I K (first.andThen second) := by
  intro events s hI
  obtain ⟨s', early, hs, hJ⟩ := hfirst events s hI
  obtain ⟨s'', late, hs', hK⟩ := hsecond _ s' hJ
  refine ⟨s'', early ++ late, andThen_eq_ok hs hs', ?_⟩
  rwa [← List.append_assoc]

theorem brings_sequence_cons {step : Step σ} {rest : List (Step σ)} (hstep : Brings I J step)
    (hrest : Brings J K (sequence rest)) : Brings I K (sequence (step :: rest)) :=
  hstep.andThen hrest

theorem sequence_append_eq_ok {steps more : List (Step σ)} {s s' s'' : σ} {early late : List Event}
    (hearly : sequence steps s = (s', .ok early)) (hlate : sequence more s' = (s'', .ok late)) :
    sequence (steps ++ more) s = (s'', .ok (early ++ late)) := by
  induction steps generalizing s early with
  | nil =>
    obtain ⟨rfl, hnil⟩ := Prod.mk.inj hearly
    obtain rfl : [] = early := Except.ok.inj hnil
    exact hlate
  | cons step rest ih =>
    obtain ⟨t, first, middle, hstep, hrest, rfl⟩ := exists_of_andThen hearly
    rw [List.append_assoc]
    exact andThen_eq_ok hstep (ih hrest)

theorem Brings.append {steps more : List (Step σ)} (hsteps : Brings I J (sequence steps))
    (hmore : Brings J K (sequence more)) : Brings I K (sequence (steps ++ more)) := by
  intro events s hI
  obtain ⟨s', early, hs, hJ⟩ := hsteps events s hI
  obtain ⟨s'', late, hs', hK⟩ := hmore _ s' hJ
  refine ⟨s'', early ++ late, sequence_append_eq_ok hs hs', ?_⟩
  rwa [← List.append_assoc]

/-- Steps for the elements of a list, where what holds depends on the elements already taken. -/
theorem brings_sequence_map {α : Type} {P : List α → List Event → σ → Prop} {f : α → Step σ}
    {xs : List α} (h : ∀ before x after, xs = before ++ x :: after →
      Brings (P before) (P (before ++ [x])) (f x)) :
    Brings (P []) (P xs) (sequence (xs.map f)) := by
  have hrest : ∀ rest before, xs = before ++ rest →
      Brings (P before) (P xs) (sequence (rest.map f)) := by
    intro rest
    induction rest with
    | nil =>
      rintro before rfl
      refine brings_skip fun events s hs => ?_
      rwa [List.append_nil]
    | cons x rest ih =>
      intro before hxs
      have hmore : xs = before ++ [x] ++ rest := by rw [hxs, List.append_assoc]; rfl
      exact brings_sequence_cons (h before x rest hxs) (ih _ hmore)
  exact hrest xs [] rfl

theorem sequence_wrapped {τ α : Type} (wrap : σ → τ) {f : α → Step σ} {g : α → Step τ}
    (h : ∀ x s, g x (wrap s) = (wrap (f x s).1, (f x s).2)) (xs : List α) {s s' : σ}
    {events : List Event} (hs : sequence (xs.map f) s = (s', .ok events)) :
    sequence (xs.map g) (wrap s) = (wrap s', .ok events) := by
  induction xs generalizing s events with
  | nil =>
    obtain ⟨rfl, hevents⟩ := Prod.mk.inj hs
    exact Prod.ext rfl hevents
  | cons x rest ih =>
    obtain ⟨t, early, late, hx, hrest, rfl⟩ := exists_of_andThen hs
    refine andThen_eq_ok ?_ (ih hrest)
    rw [h, hx]

end Step

/-! ## Streams of frames -/

/-- What comes of frames that all succeed is their events, and then what comes of the others. -/
theorem deliveriesFrom_sequence {frames : List Frame} {t t' : Translation} {events : List Event}
    (h : Step.sequence (frames.map fun frame t => t.step frame) t = (t', .ok events))
    (ending : Ending) (handed : Nat) (behind : List (Except Error Frame)) :
    ∃ handed', (deliveriesFrom t ending handed (frames.map .ok ++ behind)).map Delivery.item
      = events.map .ok ++ (deliveriesFrom t' ending handed' behind).map Delivery.item := by
  induction frames generalizing t events handed with
  | nil =>
    obtain ⟨rfl, hevents⟩ := Prod.mk.inj h
    obtain rfl : [] = events := Except.ok.inj hevents
    exact ⟨handed, rfl⟩
  | cons frame rest ih =>
    obtain ⟨u, early, late, hstep, hrest, rfl⟩ := Step.exists_of_andThen h
    obtain ⟨handed', hitems⟩ := ih hrest (handed + 1)
    refine ⟨handed', ?_⟩
    simp [deliveriesFrom, hstep, hitems, deliver, Function.comp_def]

theorem streamEvents_of_sequence {provider : Provider} {ids : CallIds} {frames : List Frame}
    {t t' : Translation} {events more : List Event}
    (h : Step.sequence (frames.map fun frame t => t.step frame) (.new provider ids)
      = (t, .ok events)) (hfinish : t.finish = (t', .ok more)) :
    streamEvents provider ids (frames.map .ok) = (events ++ more).map .ok := by
  obtain ⟨handed, hitems⟩ := deliveriesFrom_sequence h .closes 0 []
  rw [List.append_nil] at hitems
  rw [streamEvents, deliveries, hitems]
  simp [deliveriesFrom, hfinish, deliver, Function.comp_def]

/-- The events of a stream are those of the steps of its translation. -/
theorem streamEvents_of_steps {provider : Provider} {ids : CallIds} {σ : Type}
    (wrap : σ → Translation) {step : Frame → Step σ} {finish : Step σ} {s s' : σ}
    (hnew : Translation.new provider ids = wrap s)
    (hstep : ∀ frame s, (wrap s).step frame = (wrap (step frame s).1, (step frame s).2))
    (hfinish : ∀ s, (wrap s).finish = (wrap (finish s).1, (finish s).2))
    {frames : List Frame} {events : List Event}
    (h : (Step.sequence (frames.map step)).andThen finish s = (s', .ok events)) :
    streamEvents provider ids (frames.map .ok) = events.map .ok := by
  obtain ⟨t, early, late, hearly, hlate, rfl⟩ := Step.exists_of_andThen h
  have htranslated : Step.sequence (frames.map fun frame (t : Translation) => t.step frame)
      (.new provider ids) = (wrap t, .ok early) := by
    rw [hnew]
    exact Step.sequence_wrapped wrap hstep frames hearly
  have hend : (wrap t).finish = (wrap s', .ok late) := by rw [hfinish, hlate]
  exact streamEvents_of_sequence htranslated hend

/-- An event stands among the first items, or what stands before it goes on from them. -/
theorem exists_of_map_ok_append {now early : List Event} {e : Event}
    {rest behind : List (Except Error Event)}
    (h : now.map .ok ++ rest = early.map .ok ++ .ok e :: behind) :
    (∃ later, now = early ++ e :: later) ∨
      ∃ left, early = now ++ left ∧ rest = left.map .ok ++ .ok e :: behind := by
  have hinj : ∀ x y : Event, (.ok x : Except Error Event) = .ok y → x = y :=
    fun _ _ => Except.ok.inj
  rcases List.append_eq_append_iff.1 h with ⟨left, hleft, hrest⟩ | ⟨left, hleft, hrest⟩
  · obtain ⟨first, left, rfl, hfirst, rfl⟩ := List.map_eq_append_iff.1 hleft
    obtain rfl := (List.map_inj_right hinj).1 hfirst
    exact .inr ⟨left, rfl, hrest⟩
  · obtain ⟨first, left, rfl, hfirst, rfl⟩ := List.map_eq_append_iff.1 hleft
    obtain rfl := (List.map_inj_right hinj).1 hfirst
    cases left with
    | nil => exact .inr ⟨[], by simp, hrest.symm⟩
    | cons x later =>
      obtain rfl := Except.ok.inj (List.cons.inj hrest).1
      exact .inl ⟨later, rfl⟩

/-- An event of a stream comes with a frame, or when the stream ends behind the last of them. -/
theorem exists_of_deliveriesFrom {σ : Type} (wrap : σ → Translation) {step : Frame → Step σ}
    {finish : Step σ}
    (hstep : ∀ frame s, (wrap s).step frame = (wrap (step frame s).1, (step frame s).2))
    (hfinish : ∀ s, (wrap s).finish = (wrap (finish s).1, (finish s).2))
    {frames : List (Except Error Frame)} {s : σ} {ending : Ending} {handed : Nat}
    {early : List Event} {e : Event} {behind : List (Except Error Event)}
    (h : (deliveriesFrom (wrap s) ending handed frames).map Delivery.item
      = early.map .ok ++ .ok e :: behind) :
    ∃ (fs : List Frame) (rest : List (Except Error Frame)) (last : Step σ) (s' s'' : σ)
      (events first later : List Event), frames = fs.map .ok ++ rest ∧
      (rest = [] ∧ last = finish ∨ ∃ frame more, rest = .ok frame :: more ∧ last = step frame) ∧
      Step.sequence (fs.map step) s = (s', .ok events) ∧
      last s' = (s'', .ok (first ++ e :: later)) ∧ early = events ++ first := by
  have hfail (err : Error) (early : List Event) :
      [.error err] ≠ early.map .ok ++ .ok e :: behind := by
    cases early <;> nofun
  induction frames generalizing s handed early with
  | nil =>
    cases ending with
    | stallsUntilStop => simp [deliveriesFrom] at h
    | closes =>
      rw [deliveriesFrom, hfinish] at h
      cases hend : finish s with
      | mk s' given =>
        rw [hend] at h
        cases given with
        | error err => exact absurd h (hfail err early)
        | ok now =>
          have hnow : now.map .ok ++ [] = early.map .ok ++ Except.ok e :: behind := by
            rw [← h]
            simp [deliver, Function.comp_def]
          rcases exists_of_map_ok_append hnow with ⟨later, rfl⟩ | ⟨left, -, hnil⟩
          · exact ⟨[], [], finish, s, s', [], early, later, rfl, .inl ⟨rfl, rfl⟩, rfl, hend, rfl⟩
          · simp at hnil
  | cons frame rest ih =>
    cases frame with
    | error err => exact absurd h (hfail err early)
    | ok frame =>
      rw [deliveriesFrom, hstep] at h
      cases htaken : step frame s with
      | mk t given =>
        rw [htaken] at h
        cases given with
        | error err => exact absurd h (hfail err early)
        | ok now =>
          have hnow : now.map .ok ++ (deliveriesFrom (wrap t) ending (handed + 1) rest).map
              Delivery.item = early.map .ok ++ Except.ok e :: behind := by
            rw [← h]
            simp [deliver, Function.comp_def]
          rcases exists_of_map_ok_append hnow with ⟨later, rfl⟩ | ⟨left, rfl, hrest⟩
          · exact ⟨[], _, step frame, s, t, [], early, later, rfl, .inr ⟨frame, rest, rfl, rfl⟩,
              rfl, htaken, rfl⟩
          · obtain ⟨fs, more, last, s', s'', events, first, later, rfl, hlast, hevents, hgiven,
              rfl⟩ := ih hrest
            exact ⟨frame :: fs, more, last, s', s'', now ++ events, first, later, rfl, hlast,
              Step.andThen_eq_ok htaken hevents, hgiven, (List.append_assoc ..).symm⟩

end ChatWire
