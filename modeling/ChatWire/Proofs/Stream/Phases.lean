import ChatWire.Proofs.Stream.Completion

/-!
# Phases of an assembly

An assembly may go on being fed after it has given its message or has failed. What one event can do
is said by `Assembly.apply_of_goesOn` and `Assembly.apply_of_isTerminal`; a whole run then gives no
answers but empty ones up to one event, and behind it the assembly never changes again
(`Assembly.answers_settle`).
-/

namespace ChatWire.Assembly

variable {provider : Provider}

/-- The stage after events that are fed one by one, also behind a failure. -/
def fed (provider : Provider) (a : Assembly) (events : List Event) : Assembly :=
  events.foldl (fun a e => (a.apply provider e).1) a

/-- From one phase to another. -/
inductive Moves : Assembly → Assembly → Prop
  | begins (d : Draft) : Moves .waiting (.drafting d)
  | completes (d : Draft) : Moves (.drafting d) .complete
  | neverBegins : Moves .waiting .failed
  | breaksOff (d : Draft) : Moves (.drafting d) .failed

/-- What an assembly that has come to an end answers: pings are welcome, and all else comes too
late. -/
def lateAnswer (a : Assembly) (e : Event) : Except Error (Option Reply) :=
  if e = .ping then .ok none else .error (.violation (.afterEnd a.phaseName))

/-- Whether an answer is a reply. -/
def isReply : Except Error (Option Reply) → Bool
  | .ok (some _) => true
  | _ => false

/-- The end that an answer tells of. -/
inductive Settles : Except Error (Option Reply) → Assembly → Prop
  | complete (r : Reply) : Settles (.ok (some r)) .complete
  | failed (e : Error) : Settles (.error e) .failed

/-! ## One event -/

theorem apply_ping (a : Assembly) : a.apply provider .ping = (a, .ok none) := by
  simp [apply]

theorem apply_of_isTerminal {a : Assembly} (ha : a.isTerminal) (e : Event) :
    a.apply provider e = (a, a.lateAnswer e) := by
  by_cases he : e = .ping
  · subst he
    rw [apply_ping, lateAnswer, if_pos rfl]
  · cases a with
    | waiting | drafting => simp [isTerminal] at ha
    | complete | failed => simp [apply, lateAnswer, he]

theorem advance_eq_ok {d : Draft} {e : Event} {a : Assembly} {reply : Option Reply}
    (h : advance provider d e = .ok (a, reply)) :
    (reply = none ∧ ∃ d', a = .drafting d') ∨ ∃ r, reply = some r ∧ a = .complete := by
  by_cases he : e.isInner
  · rw [Draft.advance_of_isInner d he] at h
    cases hd : d.take provider e with
    | error err => simp [hd, Except.map] at h
    | ok d' =>
      obtain ⟨rfl, rfl⟩ : .drafting d' = a ∧ none = reply := by simpa [hd, Except.map] using h
      exact .inl ⟨rfl, d', rfl⟩
  · cases e with
    | messageStop =>
      rw [advance] at h
      cases hd : d.conclude provider with
      | error err => simp [hd, bind, Except.bind] at h
      | ok r =>
        obtain ⟨rfl, rfl⟩ : .complete = a ∧ some r = reply := by
          simpa [hd, bind, Except.bind, pure, Except.pure] using h
        exact .inr ⟨r, rfl, rfl⟩
    | messageStart | failure => cases h
    | _ => exact absurd rfl he

theorem begin_eq_ok {e : Event} {a : Assembly} (he : e ≠ .ping) (h : begin e = .ok a) :
    ∃ d, a = .drafting d := by
  cases e with
  | messageStart role usage => exact ⟨_, (Except.ok.inj h).symm⟩
  | ping => exact absurd rfl he
  | _ => cases h

/-- An assembly that has not come to an end goes on without an answer, or comes to the end that its
answer tells of. -/
theorem apply_of_goesOn {a : Assembly} (ha : a.isTerminal = false) (e : Event) :
    (∃ a', a.apply provider e = (a', .ok none) ∧ a'.isTerminal = false ∧
        (a.phaseName = a'.phaseName ∨ Moves a a')) ∨
      ∃ a' answer, a.apply provider e = (a', answer) ∧ Settles answer a' ∧ Moves a a' := by
  by_cases he : e = .ping
  · subst he
    exact .inl ⟨a, apply_ping a, ha, .inl rfl⟩
  · cases a with
    | complete | failed => cases ha
    | waiting =>
      cases hbegin : begin e with
      | error err =>
        refine .inr ⟨.failed, .error err, ?_, .failed err, .neverBegins⟩
        simp [apply, he, hbegin]
      | ok a' =>
        obtain ⟨d, rfl⟩ := begin_eq_ok he hbegin
        refine .inl ⟨.drafting d, ?_, rfl, .inr (.begins d)⟩
        simp [apply, he, hbegin]
    | drafting d =>
      cases hadvance : advance provider d e with
      | error err =>
        refine .inr ⟨.failed, .error err, ?_, .failed err, .breaksOff d⟩
        simp [apply, he, hadvance]
      | ok next =>
        obtain ⟨a', reply⟩ := next
        have happly : apply provider (.drafting d) e = (a', .ok reply) := by
          simp [apply, he, hadvance]
        rcases advance_eq_ok hadvance with ⟨rfl, d', rfl⟩ | ⟨r, rfl, rfl⟩
        · exact .inl ⟨.drafting d', happly, rfl, .inl rfl⟩
        · exact .inr ⟨.complete, .ok (some r), happly, .complete r, .completes d⟩

theorem Settles.isTerminal {answer : Except Error (Option Reply)} {a : Assembly}
    (h : Settles answer a) : a.isTerminal := by
  cases h <;> rfl

/-! ## Runs -/

theorem fed_append (a : Assembly) (first second : List Event) :
    fed provider a (first ++ second) = fed provider (fed provider a first) second :=
  List.foldl_append

theorem fed_concat (a : Assembly) (events : List Event) (e : Event) :
    fed provider a (events ++ [e]) = ((fed provider a events).apply provider e).1 :=
  fed_append a events [e]

theorem answers_append (a : Assembly) (first second : List Event) :
    answers provider a (first ++ second)
      = answers provider a first ++ answers provider (fed provider a first) second := by
  induction first generalizing a with
  | nil => rfl
  | cons e rest ih => exact congrArg (_ :: ·) (ih (a.apply provider e).1)

theorem length_answers (a : Assembly) (events : List Event) :
    (answers provider a events).length = events.length := by
  induction events generalizing a with
  | nil => rfl
  | cons e rest ih => exact congrArg (· + 1) (ih _)

/-- At its end an assembly stays as it is, whatever comes. -/
theorem fed_of_isTerminal {a : Assembly} (ha : a.isTerminal) (events : List Event) :
    fed provider a events = a := by
  induction events with
  | nil => rfl
  | cons e rest ih =>
    show fed provider (a.apply provider e).1 rest = a
    rw [apply_of_isTerminal ha, ih]

theorem answers_of_isTerminal {a : Assembly} (ha : a.isTerminal) (events : List Event) :
    answers provider a events = events.map a.lateAnswer := by
  induction events with
  | nil => rfl
  | cons e rest ih => rw [answers, apply_of_isTerminal ha, ih, List.map_cons]

/-- Every stage is that before it, or has moved on from it to another phase, or is another stage of
the same phase. -/
theorem apply_moves (a : Assembly) (e : Event) :
    a.phaseName = (a.apply provider e).1.phaseName ∨ Moves a (a.apply provider e).1 := by
  cases ha : a.isTerminal with
  | true =>
    rw [apply_of_isTerminal ha]
    exact .inl rfl
  | false =>
    rcases apply_of_goesOn ha e with ⟨a', happly, -, hmoves⟩ | ⟨a', answer, happly, -, hmoves⟩
    · rwa [happly]
    · rw [happly]
      exact .inr hmoves

/-- An assembly that has not come to an end answers nothing to the events, or answers nothing up to
one of them, comes to its end with this one, and stays there. -/
theorem settles_of_goesOn {a : Assembly} (ha : a.isTerminal = false) (events : List Event) :
    answers provider a events = events.map (fun _ => .ok none) ∨
      ∃ before e after answer settled, events = before ++ e :: after ∧ Settles answer settled ∧
        answers provider a events
          = before.map (fun _ => .ok none) ++ answer :: after.map settled.lateAnswer ∧
        ∀ more, more <+: after → fed provider a (before ++ e :: more) = settled := by
  induction events generalizing a with
  | nil => exact .inl rfl
  | cons e rest ih =>
    rcases apply_of_goesOn ha e with ⟨a', happly, ha', -⟩ | ⟨a', answer, happly, hsettles, -⟩
    · have hanswers : answers provider a (e :: rest) = .ok none :: answers provider a' rest := by
        rw [answers, happly]
      rcases ih ha' with hnone | ⟨before, e', after, answer, settled, rfl, hsettles, hrest, hstays⟩
      · exact .inl (by rw [hanswers, hnone, List.map_cons])
      · refine .inr ⟨e :: before, e', after, answer, settled, rfl, hsettles, ?_, ?_⟩
        · rw [hanswers, hrest]
          rfl
        · intro more hmore
          show fed provider (a.apply provider e).1 (before ++ e' :: more) = settled
          rw [happly]
          exact hstays more hmore
    · refine .inr ⟨[], e, rest, answer, a', rfl, hsettles, ?_, ?_⟩
      · rw [answers, happly, answers_of_isTerminal hsettles.isTerminal]
        rfl
      · intro more _
        show fed provider (a.apply provider e).1 more = a'
        rw [happly]
        exact fed_of_isTerminal hsettles.isTerminal more

/-- At most one answer is a reply. -/
theorem countP_isReply_le {a : Assembly} (ha : a.isTerminal = false) (events : List Event) :
    (answers provider a events).countP isReply ≤ 1 := by
  have hnone : ∀ es : List Event,
      (es.map fun _ => (.ok none : Except Error (Option Reply))).countP isReply = 0 := by
    intro es
    rw [List.countP_map]
    exact List.countP_eq_zero.2 fun _ _ => Bool.false_ne_true
  rcases settles_of_goesOn ha events with hquiet | ⟨before, e, after, answer, settled, -, -, h, -⟩
  · rw [hquiet, hnone]
    exact Nat.zero_le 1
  · have hlate : (after.map settled.lateAnswer).countP isReply = 0 := by
      rw [List.countP_map]
      refine List.countP_eq_zero.2 fun x _ => ?_
      by_cases hx : x = .ping <;> simp [lateAnswer, isReply, hx]
    rw [h, List.countP_append, hnone, List.countP_cons, hlate]
    split <;> omega

/-- A ping changes neither the stage nor the answer to any later event. -/
theorem ping_changes_nothing (a : Assembly) (before after : List Event) :
    fed provider a (before ++ .ping :: after) = fed provider a (before ++ after) ∧
      answers provider a (before ++ .ping :: after) = answers provider a before ++
        .ok none :: (answers provider a (before ++ after)).drop before.length := by
  have hlength : before.length = (answers provider a before).length :=
    (length_answers a before).symm
  constructor
  · rw [fed_append, fed_append]
    show fed provider ((fed provider a before).apply provider .ping).1 after = _
    rw [apply_ping]
  · rw [answers_append, answers_append, answers, apply_ping, hlength, List.drop_left]

/-- Fed to a new assembly one by one and without stopping at a failure, events get no answers up to
the one, if any, that is answered with a reply or an error. With this one the assembly is complete
or has failed, and it stays so: later pings are answered with nothing, and all other events break
the order. There is at most one reply, the phases follow each other in one order, and pings change
nothing. -/
theorem answers_settle (provider : Provider) (events : List Event) :
    (answers provider .waiting events = events.map (fun _ => .ok none) ∨
      ∃ before e after answer settled, events = before ++ e :: after ∧ Settles answer settled ∧
        answers provider .waiting events
          = before.map (fun _ => .ok none) ++ answer :: after.map settled.lateAnswer ∧
        ∀ more, more <+: after → fed provider .waiting (before ++ e :: more) = settled) ∧
    (answers provider .waiting events).countP isReply ≤ 1 ∧
    (∀ before e after, events = before ++ e :: after →
      (fed provider .waiting before).phaseName
          = (fed provider .waiting (before ++ [e])).phaseName ∨
        Moves (fed provider .waiting before) (fed provider .waiting (before ++ [e]))) ∧
    ∀ before after, events = before ++ .ping :: after →
      fed provider .waiting (before ++ [.ping]) = fed provider .waiting before ∧
      fed provider .waiting events = fed provider .waiting (before ++ after) ∧
      answers provider .waiting events = answers provider .waiting before ++
        .ok none :: (answers provider .waiting (before ++ after)).drop before.length := by
  refine ⟨settles_of_goesOn rfl events, countP_isReply_le rfl events, ?_, ?_⟩
  · intro before e after _
    rw [fed_concat]
    exact apply_moves _ e
  · rintro before after rfl
    refine ⟨?_, ping_changes_nothing .waiting before after⟩
    rw [fed_concat, apply_ping]

end ChatWire.Assembly
