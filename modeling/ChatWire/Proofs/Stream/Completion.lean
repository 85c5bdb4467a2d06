import ChatWire.Proofs.Stream.Drafts

/-!
# Completion

An assembly is fed the events of a transcript one by one. It gives a reply at an event exactly if
the events up to there are a complete transcript that ends with this event, and then the reply is
the one that the transcript tells (`Assembly.answers_eq_reply_iff`).

The events that lead an assembly to a draft are those of a message that has begun and not ended,
each taken by the draft; `Assembly.exists_of_run_eq_drafting` says so.
-/

namespace ChatWire

open Transcript (stepsAt IsWhole IsComplete)

variable {provider : Provider}

/-! ## Pings -/

namespace Transcript

/-- Pings add nothing to a reading that passes over them. -/
theorem filterMap_quiet {α : Type} {read : Event → Option α} (h : read .ping = none)
    (events : List Event) : (quiet events).filterMap read = events.filterMap read := by
  rw [quiet, List.filterMap_filter]
  refine List.filterMap_congr fun e _ => ?_
  by_cases he : e = .ping <;> simp [he, h]

theorem stepsAt_quiet (i : Nat) (events : List Event) :
    stepsAt i (quiet events) = stepsAt i events :=
  filterMap_quiet rfl events

theorem sender_quiet (events : List Event) : sender (quiet events) = sender events := by
  have h : ∀ es : List Event, sender es = ((es.filterMap Event.sender?).head?).getD .assistant := by
    intro es
    rw [sender, List.head?_filterMap]
  rw [h, h, filterMap_quiet rfl]

/-- Pings tell nothing of a reply. -/
theorem reply_quiet (events : List Event) :
    reply provider (quiet events) = reply provider events := by
  have husage : usage (quiet events) = usage events := by
    rw [usage_eq_foldl, usage_eq_foldl, filterMap_quiet rfl]
  have hcontent : content (quiet events) = content events := by
    have hblock : blockAt? (quiet events) = blockAt? events := by
      funext i
      rw [blockAt?, blockAt?, stepsAt_quiet]
    rw [content, content, husage, hblock, indices, indices, filterMap_quiet rfl]
  have hmetadata : metadata (quiet events) = metadata events := by
    rw [metadata, metadata, filterMap_quiet rfl]
  have hsequence : stopSequence? (quiet events) = stopSequence? events := by
    rw [stopSequence?, stopSequence?, filterMap_quiet rfl]
  have hword : stopWord? (quiet events) = stopWord? events := by
    rw [stopWord?, stopWord?, filterMap_quiet rfl]
  unfold reply
  rw [sender_quiet, hcontent, hmetadata, hsequence, hword, husage]

end Transcript

/-! ## Runs -/

namespace Assembly

/-- Takes an event; an assembly that fails has no next stage. -/
def accept (provider : Provider) (a : Assembly) (e : Event) : Except Error Assembly :=
  match a.apply provider e with
  | (a, .ok _) => .ok a
  | (_, .error err) => .error err

/-- Takes events one by one up to the first that makes the assembly fail. -/
def run (provider : Provider) (a : Assembly) (events : List Event) : Except Error Assembly :=
  events.foldlM (accept provider) a

/-- What an assembly answers to events that it is fed one by one, also when it has failed. -/
def answers (provider : Provider) (a : Assembly) : List Event → List (Except Error (Option Reply))
  | [] => []
  | e :: rest => (a.apply provider e).2 :: answers provider (a.apply provider e).1 rest

@[simp] theorem run_nil (a : Assembly) : run provider a [] = .ok a := rfl

theorem run_cons (a : Assembly) (e : Event) (rest : List Event) :
    run provider a (e :: rest) = (accept provider a e).bind fun a => run provider a rest := by
  rw [run, List.foldlM_cons]
  rfl

theorem run_append (a : Assembly) (first second : List Event) :
    run provider a (first ++ second)
      = (run provider a first).bind fun a => run provider a second := by
  rw [run, List.foldlM_append]
  rfl

theorem accept_ping (a : Assembly) : accept provider a .ping = .ok a := by
  simp [accept, apply]

/-- Pings change nothing. -/
theorem run_quiet (a : Assembly) (events : List Event) :
    run provider a (Transcript.quiet events) = run provider a events := by
  induction events generalizing a with
  | nil => rfl
  | cons e rest ih =>
    by_cases he : e = .ping
    · subst he
      rw [run_cons, accept_ping]
      exact ih a
    · have hquiet : Transcript.quiet (e :: rest) = e :: Transcript.quiet rest := by
        simp [Transcript.quiet, he]
      rw [hquiet, run_cons, run_cons]
      simp only [ih]

/-- A terminal assembly never gets back to a draft. -/
theorem run_of_isTerminal (provider : Provider) {a : Assembly} (ha : a.isTerminal)
    (events : List Event) (d : Draft) :
    run provider a events ≠ .ok (.drafting d) := by
  induction events with
  | nil => cases a <;> simp [isTerminal] at ha ⊢
  | cons e rest ih =>
    rw [run_cons]
    by_cases he : e = .ping
    · subst he
      rwa [accept_ping]
    · cases a <;> simp [isTerminal, accept, apply, he, Except.bind] at ha ⊢

/-- Inside a message an assembly does what its draft does. -/
theorem accept_drafting (d : Draft) {e : Event} (he : e.isInner) :
    accept provider (.drafting d) e = (d.take provider e).map .drafting := by
  by_cases hping : e = .ping
  · subst hping
    rfl
  · simp only [accept, apply, hping, if_false, Draft.advance_of_isInner d he]
    cases d.take provider e <;> rfl

theorem run_drafting (provider : Provider) (d : Draft) {events : List Event}
    (h : ∀ e ∈ events, e.isInner) :
    run provider (.drafting d) events
      = (events.foldlM (Draft.take provider) d).map .drafting := by
  induction events generalizing d with
  | nil => rfl
  | cons e rest ih =>
    rw [run_cons, accept_drafting d (h e List.mem_cons_self), List.foldlM_cons]
    cases d.take provider e with
    | error err => rfl
    | ok d' => exact ih d' fun e he => h e (List.mem_cons_of_mem _ he)

/-- Only events inside a message lead from a draft to a draft. -/
theorem isInner_of_run_drafting (provider : Provider) {d d' : Draft} {events : List Event}
    (h : run provider (.drafting d) events = .ok (.drafting d')) : ∀ e ∈ events, e.isInner := by
  induction events generalizing d with
  | nil => simp
  | cons e rest ih =>
    rw [run_cons] at h
    have he : e.isInner := by
      by_contra hnot
      cases e with
      | messageStop =>
        simp only [accept, apply, advance] at h
        cases hd : d.conclude provider with
        | error err => simp [hd, bind, Except.bind] at h
        | ok r =>
          have hterminal : Assembly.complete.isTerminal := rfl
          refine run_of_isTerminal provider hterminal rest d' ?_
          simpa [hd, bind, Except.bind, pure, Except.pure] using h
      | _ => simp_all [Event.isInner, accept, apply, advance, Except.bind]
    rw [accept_drafting d he] at h
    cases ht : d.take provider e with
    | error err => simp [ht, Except.map, Except.bind] at h
    | ok d'' =>
      intro x hx
      rcases List.mem_cons.1 hx with rfl | hx
      · exact he
      · exact ih (by simpa [ht, Except.map, Except.bind] using h) x hx

/-- After the beginning of a message and events inside it there is a draft that tells them, unless
the history of one block fails. -/
theorem run_messageStart (provider : Provider) (role : Role) (usage : TokenUsage)
    {inner : List Event} (h : ∀ e ∈ inner, e.isInner) :
    match run provider .waiting (.messageStart role usage :: inner) with
    | .ok a => ∃ d, a = .drafting d ∧ d.Tells provider (.messageStart role usage :: inner)
    | .error err =>
      ∃ i, Slot.after provider i (stepsAt i (.messageStart role usage :: inner)) = .error err := by
  have hfold := (Draft.tells_messageStart provider role usage).foldlM_take h
  have hrun : run provider .waiting (.messageStart role usage :: inner)
      = (inner.foldlM (Draft.take provider) { role, usage }).map .drafting :=
    run_drafting provider { role, usage } h
  rw [hrun]
  cases hd : inner.foldlM (Draft.take provider) { role, usage } with
  | error err =>
    rw [hd] at hfold
    exact hfold
  | ok d =>
    rw [hd] at hfold
    exact ⟨d, rfl, hfold⟩

/-- A draft comes of the beginning of a message and events inside it, and tells them. -/
theorem exists_of_run_eq_drafting {events : List Event} {d : Draft}
    (h : run provider .waiting events = .ok (.drafting d)) :
    (∃ role usage inner, Transcript.quiet events = .messageStart role usage :: inner ∧
      ∀ e ∈ inner, e.isInner) ∧ d.Tells provider (Transcript.quiet events) := by
  rw [← run_quiet] at h
  have hping : ∀ e ∈ Transcript.quiet events, e ≠ .ping := fun e he => by
    simpa using (List.mem_filter.1 he).2
  generalize Transcript.quiet events = quiet at h hping
  cases quiet with
  | nil => simp at h
  | cons e inner =>
    have he := hping e List.mem_cons_self
    rw [run_cons] at h
    cases e with
    | messageStart role usage =>
      have hinner : ∀ e ∈ inner, e.isInner := isInner_of_run_drafting provider h
      refine ⟨⟨role, usage, inner, rfl, hinner⟩, ?_⟩
      have hrun := run_messageStart provider role usage hinner
      rw [run_cons, h] at hrun
      obtain ⟨d', hd', htells⟩ := hrun
      rwa [Assembly.drafting.inj hd']
    | ping => exact absurd rfl he
    | _ => simp [accept, apply, begin, Except.bind] at h

/-! ## Answers -/

/-- Only the end of a message that has begun is answered with a reply. -/
theorem apply_eq_reply_iff (a : Assembly) (e : Event) (r : Reply) :
    (a.apply provider e).2 = .ok (some r) ↔
      e = .messageStop ∧ ∃ d, a = .drafting d ∧ d.conclude provider = .ok r := by
  by_cases hping : e = .ping
  · subst hping
    simp [apply]
  · cases a with
    | waiting => cases hbegin : begin e <;> simp [apply, hping, hbegin]
    | complete => simp [apply, hping]
    | failed => simp [apply, hping]
    | drafting d =>
      by_cases he : e.isInner
      · have hstop : e ≠ .messageStop := by
          rintro rfl
          simp [Event.isInner] at he
        simp only [apply, hping, if_false, Draft.advance_of_isInner d he, hstop, false_and]
        cases d.take provider e <;> simp [Except.map]
      · cases e with
        | messageStop =>
          simp only [apply, advance]
          cases hd : d.conclude provider <;>
            simp [hd, bind, Except.bind, pure, Except.pure]
        | _ => simp_all [Event.isInner, apply, advance]

/-- Nothing follows a failure. -/
theorem isTerminal_of_apply_eq_error {a a' : Assembly} {e : Event} {err : Error}
    (h : a.apply provider e = (a', .error err)) : a'.isTerminal := by
  by_cases hping : e = .ping
  · simp [apply, hping] at h
  · cases a with
    | waiting =>
      cases hbegin : begin e <;> simp [apply, hping, hbegin] at h
      rw [← h.1]
      rfl
    | drafting d =>
      cases hadvance : advance provider d e <;> simp [apply, hping, hadvance] at h
      rw [← h.1]
      rfl
    | complete =>
      simp only [apply, hping, if_false, Prod.mk.injEq] at h
      rw [← h.1]
      rfl
    | failed =>
      simp only [apply, hping, if_false, Prod.mk.injEq] at h
      rw [← h.1]
      rfl

/-- An answer is that of the stage before it. -/
theorem answers_eq_reply_iff_run (a : Assembly) (events : List Event) (k : Nat) (r : Reply) :
    (answers provider a events)[k]? = some (.ok (some r)) ↔
      events[k]? = some .messageStop ∧
        ∃ d, run provider a (events.take k) = .ok (.drafting d) ∧ d.conclude provider = .ok r := by
  induction events generalizing a k with
  | nil => simp [answers]
  | cons e rest ih =>
    cases k with
    | zero =>
      simp [answers, apply_eq_reply_iff]
    | succ k =>
      simp only [answers, List.getElem?_cons_succ, List.take_succ_cons, run_cons, ih]
      cases happly : a.apply provider e with
      | mk a' answer =>
        cases answer with
        | ok reply => simp [accept, happly, Except.bind]
        | error err =>
          -- A failed assembly gives no reply any more, and its run has ended.
          have hfailed : a'.isTerminal := isTerminal_of_apply_eq_error happly
          simp [accept, happly, Except.bind, run_of_isTerminal provider hfailed]

end Assembly

/-! ## Complete transcripts -/

namespace Transcript

/-- The end of a message adds nothing to what is told. -/
theorem reply_concat_messageStop (events : List Event) :
    reply provider (events ++ [.messageStop]) = reply provider events := by
  have hblock : blockAt? (events ++ [.messageStop]) = blockAt? events := by
    funext i
    simp [blockAt?, Event.stepAt?]
  have hindices : indices (events ++ [.messageStop]) = indices events := by
    have hnone : [Event.messageStop].filterMap Event.index? = [] := rfl
    rw [indices, indices, List.filterMap_append, hnone, List.append_nil]
  have husage : usage (events ++ [.messageStop]) = usage events := usage_concat events .messageStop
  have hcontent : content (events ++ [.messageStop]) = content events := by
    rw [content, content, husage, hblock, hindices]
  unfold reply
  rw [sender_concat rfl, husage, hcontent, stopWord?_concat, stopSequence?_concat, metadata_concat]
  rfl

/-- What comes before the end of a message in a complete transcript. -/
theorem isComplete_concat_iff (events : List Event) :
    IsComplete (events ++ [.messageStop]) ↔
      (∃ role usage inner, quiet events = .messageStart role usage :: inner ∧
        ∀ e ∈ inner, e.isInner) ∧
      ∀ i, stepsAt i events ≠ [] → IsWhole (stepsAt i events) := by
  have hquiet : quiet (events ++ [.messageStop]) = quiet events ++ [.messageStop] := by
    simp [quiet]
  have hsteps : ∀ i, stepsAt i (events ++ [.messageStop]) = stepsAt i events := by
    intro i
    simp [Event.stepAt?]
  constructor
  · rintro ⟨⟨role, usage, inner, hframed, hinner⟩, hblocks⟩
    rw [hquiet, ← List.cons_append] at hframed
    refine ⟨⟨role, usage, inner, List.append_cancel_right hframed, hinner⟩, fun i hi => ?_⟩
    rw [← hsteps] at hi ⊢
    exact hblocks i hi
  · rintro ⟨⟨role, usage, inner, hframed, hinner⟩, hblocks⟩
    refine ⟨⟨role, usage, inner, by rw [hquiet, hframed, List.cons_append], hinner⟩, fun i hi => ?_⟩
    rw [hsteps] at hi ⊢
    exact hblocks i hi

/-- Whole blocks have histories that do not fail. -/
theorem after_ne_error {events : List Event}
    (h : ∀ i, stepsAt i events ≠ [] → IsWhole (stepsAt i events)) (i : Nat) (err : Error) :
    Slot.after provider i (stepsAt i events) ≠ .error err := by
  by_cases hi : stepsAt i events = []
  · rw [hi, Slot.after_nil]
    intro h
    cases h
  · obtain ⟨o, fs, hsteps, hacc, hread⟩ := h i hi
    have htrace : (BlockTrace.stopped o fs).IsAccepted := hacc
    have hclose := (o.close_grown_eq_ok provider).2 ⟨hread, rfl⟩
    have hafter := Slot.after_steps provider i htrace
    rw [BlockTrace.steps, ← hsteps, BlockTrace.slot, hclose] at hafter
    rw [hafter]
    intro h
    cases h

end Transcript

/-- Fed to a new assembly one by one, the events of a transcript are answered with a reply exactly
at a message's end up to which the transcript is complete, and the reply is the one that it tells.
-/
theorem Assembly.answers_eq_reply_iff (provider : Provider) (events : List Event) (k : Nat)
    (r : Reply) :
    (Assembly.answers provider .waiting events)[k]? = some (.ok (some r)) ↔
      events[k]? = some .messageStop ∧ IsComplete (events.take (k + 1)) ∧
        r = Transcript.reply provider (events.take (k + 1)) := by
  rw [Assembly.answers_eq_reply_iff_run]
  refine and_congr_right fun hstop => ?_
  have htake : events.take (k + 1) = events.take k ++ [.messageStop] := by
    rw [List.take_add_one, hstop, Option.toList_some]
  rw [htake, Transcript.isComplete_concat_iff, Transcript.reply_concat_messageStop,
    ← Transcript.reply_quiet]
  constructor
  · rintro ⟨d, hrun, hd⟩
    obtain ⟨hframed, htells⟩ := Assembly.exists_of_run_eq_drafting hrun
    obtain ⟨hwhole, hr⟩ := (htells.conclude_eq_ok r).1 hd
    simp only [Transcript.stepsAt_quiet] at hwhole
    exact ⟨⟨hframed, hwhole⟩, hr⟩
  · rintro ⟨⟨⟨role, usage, inner, hframed, hinner⟩, hwhole⟩, hr⟩
    have hrun := Assembly.run_messageStart provider role usage hinner
    rw [← hframed, Assembly.run_quiet] at hrun
    cases ha : Assembly.run provider .waiting (events.take k) with
    | error err =>
      rw [ha] at hrun
      obtain ⟨i, hi⟩ := hrun
      rw [Transcript.stepsAt_quiet] at hi
      exact absurd hi (Transcript.after_ne_error hwhole i err)
    | ok a =>
      rw [ha] at hrun
      obtain ⟨d, rfl, htells⟩ := hrun
      refine ⟨d, rfl, (htells.conclude_eq_ok r).2 ⟨fun i => ?_, hr⟩⟩
      rw [Transcript.stepsAt_quiet]
      exact hwhole i

end ChatWire
