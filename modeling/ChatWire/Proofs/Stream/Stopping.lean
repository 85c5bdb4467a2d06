import ChatWire.Proofs.Stream.Completion
import ChatWire.Stream.Reading

/-!
# Readings that are asked to stop

A reading that is asked to stop ends as the reading would that is not asked, or is cancelled. What
it takes is the beginning of what the other one takes, and the deliveries that it takes after the
request are one at most (`readStream_stopped`). The deliveries of a stream come with rising numbers
of frames handed over (`rising_deliveries`), which is why a request that comes too late changes
nothing.
-/

namespace ChatWire

variable {provider : Provider} {stop : StopRequest} {ending : Ending} {total : Nat}

/-- The deliveries that a reading takes. -/
def taken (provider : Provider) (stop : StopRequest) (a : Assembly) (handed : Nat) :
    List Delivery → List Delivery
  | [] => []
  | d :: rest =>
    if stop.isMade handed then []
    else d :: match d.item with
      | .error _ => []
      | .ok event =>
        match a.apply provider event with
        | (a, .ok none) => taken provider stop a d.handed rest
        | _ => []

/-- The numbers of frames handed over rise, from one to another. -/
def Rising (first last : Nat) (ds : List Delivery) : Prop :=
  (first :: (ds.map Delivery.handed ++ [last])).Pairwise (· ≤ ·)

/-! ## Rising deliveries -/

theorem rising_cons {first last : Nat} {d : Delivery} {rest : List Delivery} :
    Rising first last (d :: rest) ↔ first ≤ d.handed ∧ Rising d.handed last rest := by
  have hfirst : (∀ x ∈ d.handed :: (rest.map Delivery.handed ++ [last]), first ≤ x) ∧
      Rising d.handed last rest ↔ first ≤ d.handed ∧ Rising d.handed last rest := by
    refine and_congr_left fun hrest => ?_
    rw [List.forall_mem_cons]
    refine and_iff_left_of_imp fun hd x hx => ?_
    exact hd.trans ((List.pairwise_cons.1 hrest).1 x hx)
  exact List.pairwise_cons.trans hfirst

theorem Rising.le {first last : Nat} {ds : List Delivery} (h : Rising first last ds) :
    first ≤ last :=
  (List.pairwise_cons.1 h).1 last (by simp)

theorem Rising.of_le {first first' last : Nat} {ds : List Delivery} (h : Rising first last ds)
    (hle : first' ≤ first) : Rising first' last ds := by
  obtain ⟨hfirst, hrest⟩ := List.pairwise_cons.1 h
  exact List.pairwise_cons.2 ⟨fun x hx => hle.trans (hfirst x hx), hrest⟩

theorem rising_nil {first last : Nat} (h : first ≤ last) : Rising first last [] := by
  simpa [Rising] using h

theorem Rising.deliver {first last : Nat} {ds : List Delivery} (h : Rising first last ds)
    (events : List Event) : Rising first last (deliver first (.ok events) ++ ds) := by
  induction events with
  | nil => exact h
  | cons e rest ih => exact rising_cons.2 ⟨le_rfl, ih⟩

theorem rising_deliveries (t : Translation) (handed : Nat) (frames : List (Except Error Frame)) :
    Rising handed (handed + frames.length) (deliveriesFrom t .closes handed frames) := by
  induction frames generalizing t handed with
  | nil =>
    rw [deliveriesFrom]
    cases t.finish.2 with
    | error e => exact rising_cons.2 ⟨le_rfl, rising_nil le_rfl⟩
    | ok events =>
      have h := (rising_nil (Nat.le_refl handed)).deliver events
      rwa [List.append_nil] at h
  | cons frame rest ih =>
    have hnext : handed + 1 + rest.length = handed + (frame :: rest).length := by
      rw [List.length_cons]
      omega
    have hfailed (e : Error) :
        Rising handed (handed + (frame :: rest).length) [⟨handed + 1, .error e⟩] := by
      rw [← hnext]
      exact rising_cons.2 ⟨Nat.le_succ handed, rising_nil (Nat.le_add_right _ _)⟩
    cases frame with
    | error e => exact hfailed e
    | ok frame =>
      rw [deliveriesFrom]
      rcases t.step frame with ⟨t', e | events⟩
      · exact hfailed e
      · have h := ((ih t' (handed + 1)).deliver events).of_le (Nat.le_succ handed)
        rwa [hnext] at h

/-! ## What a reading takes -/

/-- Nothing but the deliveries that it takes tells how a reading ends. -/
theorem readDeliveries_taken (a : Assembly) (handed : Nat) (ds : List Delivery) :
    readDeliveries provider stop ending total a handed (taken provider stop a handed ds)
      = readDeliveries provider stop ending total a handed ds := by
  induction ds generalizing a handed with
  | nil => rfl
  | cons d rest ih =>
    by_cases hmade : stop.isMade handed
    · simp [taken, readDeliveries, hmade]
    · cases hitem : d.item with
      | error e => simp [taken, readDeliveries, hmade, hitem]
      | ok event =>
        rcases happly : a.apply provider event with ⟨a', e | _ | reply⟩
        · simp [taken, readDeliveries, hmade, hitem, happly]
        · simpa [taken, readDeliveries, hmade, hitem, happly] using ih a' d.handed
        · simp [taken, readDeliveries, hmade, hitem, happly]

variable (provider) in
/-- After the request a reading takes one delivery at most: it looks for the request before each. -/
theorem exists_taken_eq_append (n : Nat) (a : Assembly) (handed : Nat) (ds : List Delivery) :
    ∃ before late, taken provider (some n) a handed ds = before ++ late ∧
      (∀ d ∈ before, d.handed < n) ∧ (∀ d ∈ late, n ≤ d.handed) ∧ late.length ≤ 1 := by
  induction ds generalizing a handed with
  | nil => exact ⟨[], [], rfl, by simp, by simp, Nat.zero_le 1⟩
  | cons d rest ih =>
    rw [taken]
    split
    case isTrue => exact ⟨[], [], rfl, by simp, by simp, Nat.zero_le 1⟩
    case isFalse =>
      by_cases hd : n ≤ d.handed
      · have hmade : StopRequest.isMade (some n) d.handed := by simpa [StopRequest.isMade] using hd
        have hnone (a' : Assembly) : taken provider (some n) a' d.handed rest = [] := by
          cases rest <;> simp [taken, hmade]
        refine ⟨[], [d], ?_, by simp, by simpa using hd, le_rfl⟩
        simp only [hnone]
        split
        · rfl
        · split <;> rfl
      · have hlt : d.handed < n := Nat.lt_of_not_le hd
        have halone : ∃ before late, [d] = before ++ late ∧
            (∀ d ∈ before, d.handed < n) ∧ (∀ d ∈ late, n ≤ d.handed) ∧ late.length ≤ 1 :=
          ⟨[d], [], rfl, by simpa using hlt, by simp, Nat.zero_le 1⟩
        split
        · exact halone
        · split
          · obtain ⟨before, late, htaken, hbefore, hlate, hlength⟩ := ih _ d.handed
            refine ⟨d :: before, late, by rw [htaken]; rfl, ?_, hlate, hlength⟩
            exact List.forall_mem_cons.2 ⟨hlt, hbefore⟩
          · exact halone

/-- The last delivery taken is the only one behind the request, if it is not one of those before. -/
theorem eq_singleton_of_getLast? {before late : List Delivery} {d : Delivery} {n : Nat}
    (hlast : (before ++ late).getLast? = some d) (hbefore : ∀ x ∈ before, x.handed < n)
    (hlength : late.length ≤ 1) (hd : n ≤ d.handed) : late = [d] := by
  cases late with
  | nil =>
    rw [List.append_nil] at hlast
    have hlt := hbefore d (List.mem_of_getLast? hlast)
    omega
  | cons x rest =>
    obtain rfl : rest = [] := by simpa using hlength
    rw [List.getLast?_concat] at hlast
    rw [Option.some.inj hlast]

/-- A reading that gives a reply has taken the end of the message last. -/
theorem getLast?_taken {a : Assembly} {handed : Nat} {ds : List Delivery} {reply : Reply}
    (h : (readDeliveries provider stop ending total a handed ds).result = .ok reply) :
    ∃ d, (taken provider stop a handed ds).getLast? = some d ∧ d.item = .ok .messageStop ∧
      d.handed = (readDeliveries provider stop ending total a handed ds).handed := by
  induction ds generalizing a handed with
  | nil =>
    unfold readDeliveries at h
    split at h
    · cases h
    · cases ending <;> cases h
  | cons d rest ih =>
    by_cases hmade : stop.isMade handed
    · simp [readDeliveries, hmade] at h
    · cases hitem : d.item with
      | error e => simp [readDeliveries, hmade, hitem] at h
      | ok event =>
        rcases happly : a.apply provider event with ⟨a', e | _ | r⟩
        · simp [readDeliveries, hmade, hitem, happly] at h
        · have hrest : (readDeliveries provider stop ending total a' d.handed rest).result
              = .ok reply := by
            simpa [readDeliveries, hmade, hitem, happly] using h
          obtain ⟨last, hlast, hend, hhanded⟩ := ih hrest
          refine ⟨last, ?_, hend, ?_⟩
          · simp [taken, hmade, hitem, happly, List.getLast?_cons, hlast]
          · simpa [readDeliveries, hmade, hitem, happly] using hhanded
        · obtain ⟨rfl, -⟩ := (a.apply_eq_reply_iff event r).1 (congrArg Prod.snd happly)
          refine ⟨d, ?_, hitem, ?_⟩
          · simp [taken, hmade, hitem, happly]
          · simp [readDeliveries, hmade, hitem, happly]

/-! ## With and without a request -/

theorem le_handed {a : Assembly} {handed : Nat} {ds : List Delivery} (h : Rising handed total ds) :
    handed ≤ (readDeliveries provider none .closes total a handed ds).handed := by
  induction ds generalizing a handed with
  | nil => simpa [readDeliveries, StopRequest.isMade] using h.le
  | cons d rest ih =>
    obtain ⟨hd, hrest⟩ := rising_cons.1 h
    cases hitem : d.item with
    | error e => simpa [readDeliveries, StopRequest.isMade, hitem] using hd
    | ok event =>
      rcases happly : a.apply provider event with ⟨a', e | _ | reply⟩
      · simpa [readDeliveries, StopRequest.isMade, hitem, happly] using hd
      · simpa [readDeliveries, StopRequest.isMade, hitem, happly] using hd.trans (ih hrest)
      · simpa [readDeliveries, StopRequest.isMade, hitem, happly] using hd

variable (provider) in
/-- A request that is made in time cancels the reading, and any other one changes nothing. -/
theorem readDeliveries_stopped (n : Nat) (a : Assembly) {handed : Nat} {ds : List Delivery}
    (h : Rising handed total ds) :
    (readDeliveries provider (some n) .closes total a handed ds
        = readDeliveries provider none .closes total a handed ds ∧
      taken provider (some n) a handed ds = taken provider none a handed ds) ∨
    (readDeliveries provider (some n) .closes total a handed ds).result = .error .cancelled ∧
      n ≤ (readDeliveries provider none .closes total a handed ds).handed ∧
      taken provider (some n) a handed ds <+: taken provider none a handed ds := by
  induction ds generalizing a handed with
  | nil =>
    by_cases hn : n ≤ handed
    · refine .inr ⟨by simp [readDeliveries, StopRequest.isMade, hn], hn.trans (le_handed h), ?_⟩
      exact List.nil_prefix
    · exact .inl ⟨by simp [readDeliveries, StopRequest.isMade, hn], rfl⟩
  | cons d rest ih =>
    by_cases hn : n ≤ handed
    · refine .inr ⟨by simp [readDeliveries, StopRequest.isMade, hn], hn.trans (le_handed h), ?_⟩
      simp [taken, StopRequest.isMade, hn]
    · obtain ⟨-, hrest⟩ := rising_cons.1 h
      cases hitem : d.item with
      | error e =>
        left
        simp [readDeliveries, taken, StopRequest.isMade, hn, hitem]
      | ok event =>
        rcases happly : a.apply provider event with ⟨a', e | _ | reply⟩
        · left
          simp [readDeliveries, taken, StopRequest.isMade, hn, hitem, happly]
        · rcases ih a' hrest with ⟨hsame, htaken⟩ | ⟨hcancelled, hle, hprefix⟩
          · left
            simpa [readDeliveries, taken, StopRequest.isMade, hn, hitem, happly]
              using ⟨hsame, htaken⟩
          · right
            simpa [readDeliveries, taken, StopRequest.isMade, hn, hitem, happly]
              using ⟨hcancelled, hle, hprefix⟩
        · left
          simp [readDeliveries, taken, StopRequest.isMade, hn, hitem, happly]

/-- The deliveries that a reading of a stream takes, when it may be asked to stop. -/
def takenFrom (provider : Provider) (ids : CallIds) (stop : StopRequest)
    (frames : List (Except Error Frame)) : List Delivery :=
  taken provider stop .waiting 0 (deliveries provider ids .closes frames)

/-- Asked to stop when so many frames have been handed over, a reading ends as it would have ended
without the request, or is cancelled. It is cancelled if the request is made before any frame, and
it is not if it would have ended with fewer frames. It takes what it would have taken without the
request, up to one delivery behind the request at most, and nothing that it does not take tells how
it ends; if it gives a reply after all, that delivery is the end of the message with which the
reading would have ended anyway. -/
theorem readStream_stopped (provider : Provider) (ids : CallIds)
    (frames : List (Except Error Frame)) (n : Nat) :
    ((readStream provider ids (some n) .closes frames).result = readReply provider ids frames ∨
      (readStream provider ids (some n) .closes frames).result = .error .cancelled) ∧
    (readStream provider ids (some 0) .closes frames).result = .error .cancelled ∧
    ((readStream provider ids none .closes frames).handed < n →
      (readStream provider ids (some n) .closes frames).result = readReply provider ids frames) ∧
    ∃ before late, takenFrom provider ids (some n) frames = before ++ late ∧
      before ++ late <+: takenFrom provider ids none frames ∧
      (∀ d ∈ before, d.handed < n) ∧ (∀ d ∈ late, n ≤ d.handed) ∧ late.length ≤ 1 ∧
      readDeliveries provider (some n) .closes frames.length .waiting 0 (before ++ late)
        = readStream provider ids (some n) .closes frames ∧
      ∀ reply, (readStream provider ids (some n) .closes frames).result = .ok reply →
        n ≤ (readStream provider ids (some n) .closes frames).handed →
        ∃ d, late = [d] ∧ d.item = .ok .messageStop ∧
          takenFrom provider ids none frames = before ++ [d] ∧
          readReply provider ids frames = .ok reply := by
  have hrising : Rising 0 frames.length (deliveries provider ids .closes frames) := by
    have h := rising_deliveries (.new provider ids) 0 frames
    rwa [Nat.zero_add] at h
  have hends := readDeliveries_stopped provider n .waiting hrising
  obtain ⟨before, late, htaken, hbefore, hlate, hlength⟩ :=
    exists_taken_eq_append provider n .waiting 0 (deliveries provider ids .closes frames)
  refine ⟨?_, ?_, ?_, before, late, htaken, ?_, hbefore, hlate, hlength, ?_, ?_⟩
  · rcases hends with ⟨hsame, -⟩ | ⟨hcancelled, -⟩
    · exact .inl (congrArg Reading.result hsame)
    · exact .inr hcancelled
  · rw [readStream]
    cases deliveries provider ids .closes frames <;> simp [readDeliveries, StopRequest.isMade]
  · intro hlate
    rcases hends with ⟨hsame, -⟩ | ⟨-, hle, -⟩
    · exact congrArg Reading.result hsame
    · exact absurd hle (Nat.not_le_of_lt hlate)
  · rw [← htaken]
    rcases hends with ⟨-, hsame⟩ | ⟨-, -, hprefix⟩
    · rw [hsame]
      exact List.prefix_rfl
    · exact hprefix
  · rw [← htaken]
    exact readDeliveries_taken .waiting 0 _
  · intro reply hreply hmade
    rcases hends with ⟨hsame, hsameTaken⟩ | ⟨hcancelled, -⟩
    · obtain ⟨d, hlast, hend, hhanded⟩ := getLast?_taken hreply
      have hd : n ≤ d.handed := hhanded ▸ hmade
      obtain rfl : late = [d] := eq_singleton_of_getLast? (htaken ▸ hlast) hbefore hlength hd
      refine ⟨d, rfl, hend, ?_, ?_⟩
      · rw [takenFrom, ← hsameTaken, htaken]
      · exact (congrArg Reading.result hsame).symm.trans hreply
    · have hnot := hcancelled.symm.trans hreply
      cases hnot

end ChatWire
