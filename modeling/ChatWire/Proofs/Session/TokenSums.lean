import ChatWire.Proofs.Dialect.Replies
import ChatWire.Proofs.Session.Accounting

/-!
# Sums of token counts

A provider may report any counts. The sum behind `TokenUsage.totalInput` stops at the greatest
count, but the output that is reported in two parts, what a charge is reckoned with, and the totals
of a conversation are checked sums: where one of them is too large for a word, the program stops.
How far a run gets depends on nothing but what is added without a bound (`token_sums_overflow`).
-/

namespace ChatWire

/-! ## Conversations -/

namespace Conversation

/-- What a conversation amounts to when its counts are added without a bound. -/
structure Tally where
  /-- The counts of all messages but the last; none where there is no message. -/
  earlier : Option Nat
  /-- The count of the last message. -/
  last : Nat

/-- All counts. -/
def Tally.sum (t : Tally) : Nat := t.earlier.getD 0 + t.last

/-- Adds an entry. A reply charges the last message with what the input leaves for it. -/
def Tally.record (t : Tally) : Entry → Tally
  | .plain m => ⟨some t.sum, m.tokenCount.toNat⟩
  | .reply _ input output => ⟨some ((t.earlier.map (max input.toNat)).getD 0), output.toNat⟩

/-- What a conversation amounts to. -/
def tally (c : Conversation) : Tally :=
  match c.messages.getLast? with
  | none => ⟨none, 0⟩
  | some last => ⟨some (tokenSum c.messages.dropLast), last.tokenCount.toNat⟩

@[simp] theorem tally_nil : tally ⟨[]⟩ = ⟨none, 0⟩ := rfl

@[simp] theorem tally_concat (earlier : List Message) (last : Message) :
    tally ⟨earlier ++ [last]⟩ = ⟨some (tokenSum earlier), last.tokenCount.toNat⟩ := by
  simp [tally]

theorem sum_tally (c : Conversation) : c.tally.sum = tokenSum c.messages := by
  obtain ⟨messages⟩ := c
  rcases List.eq_nil_or_concat' messages with rfl | ⟨earlier, last, rfl⟩
  · rfl
  · rw [tally_concat, tokenSum_append, tokenSum_singleton]
    rfl

/-- An entry that is added does what it does without a bound. -/
theorem tally_record {c c' : Conversation} {e : Entry} (h : c.record e = .ok c') :
    c'.tally = c.tally.record e := by
  cases e with
  | plain m =>
    obtain rfl := Except.ok.inj h
    rw [append, tally_concat, ← sum_tally]
    rfl
  | reply m input output =>
    obtain ⟨accounted, -, hmessages⟩ := appendReply_eq_ok_iff.1 h
    have hsum := tokenSum_appendReply h
    obtain ⟨messages'⟩ := c'
    obtain rfl := hmessages
    rw [tokenSum_append, tokenSum_singleton] at hsum
    rw [tally_concat, Nat.add_right_cancel hsum]
    obtain ⟨messages⟩ := c
    rcases List.eq_nil_or_concat' messages with rfl | ⟨earlier, last, rfl⟩
    · rfl
    · rw [tally_concat, if_neg (by simp), List.dropLast_concat]
      rfl

theorem exists_total_iff (c : Conversation) :
    (∃ total, c.total = .ok total) ↔ tokenSum c.messages < UInt64.size := by
  simp only [total, totalTokens_eq, countOf_eq_ok_iff]
  constructor
  · rintro ⟨n, hn⟩
    rw [← hn]
    exact n.toNat_lt
  · intro h
    exact ⟨_, UInt64.toNat_ofNat_of_lt' h⟩

/-! ## Runs of entries -/

variable {c : Conversation} {entries : List Entry} {k : Nat}

/-- What an account amounts to when so many of the entries have been added. -/
def Tally.stage (t : Tally) (entries : List Entry) (k : Nat) : Tally :=
  (entries.take k).foldl record t

theorem tally_stage {c' : Conversation} (h : c.stage entries k = .ok c') :
    c'.tally = c.tally.stage entries k := by
  induction k generalizing c' with
  | zero =>
    obtain rfl := Except.ok.inj h
    rfl
  | succ k ih =>
    cases hentry : entries[k]? with
    | none =>
      rw [stage_succ_of_none hentry] at h
      rw [ih h, Tally.stage, Tally.stage, List.take_add_one, hentry, Option.toList_none,
        List.append_nil]
    | some e =>
      rw [stage_succ hentry] at h
      obtain ⟨b, hb, hrecord⟩ := Dialect.bind_eq_ok_iff.1 h
      rw [tally_record hrecord, ih hb, Tally.stage, Tally.stage, List.take_add_one, hentry,
        Option.toList_some, List.foldl_append]
      rfl

/-- Up to the first sum that is too large the entries are added, and the totals are checked. -/
theorem exists_stage_of_tally
    (h : ∀ j < k, (c.tally.stage entries j).sum < UInt64.size) :
    ∃ c', c.stage entries k = .ok c' ∧ c'.total = countOf (c.tally.stage entries k).sum := by
  have hsum (j : Nat) (b : Conversation) (hj : j < k) (hb : c.stage entries j = .ok b) :
      tokenSum b.messages < UInt64.size := by
    rw [← sum_tally, tally_stage hb]
    exact h j hj
  obtain ⟨c', hc'⟩ := exists_stage hsum
  refine ⟨c', hc', ?_⟩
  rw [total, totalTokens_eq, ← sum_tally, tally_stage hc']

/-- A run of entries gets by without an overflow if the sums that are taken without a bound are
small. -/
theorem totals_stage_iff (c : Conversation) (entries : List Entry) :
    (∀ k, ∃ c' total, c.stage entries k = .ok c' ∧ c'.total = .ok total) ↔
      ∀ k, (c.tally.stage entries k).sum < UInt64.size := by
  constructor
  · intro h k
    obtain ⟨c', n, hc', htotal⟩ := h k
    rw [← tally_stage hc', sum_tally, ← exists_total_iff]
    exact ⟨n, htotal⟩
  · intro h k
    obtain ⟨c', hc', htotal⟩ := exists_stage_of_tally fun j _ => h j
    exact ⟨c', _, hc', htotal.trans (countOf_of_lt (h k))⟩

end Conversation

/-! ## Runs of turns -/

namespace Session

/-- The report that a turn records with its reply, if it records any. -/
def recorded (s : Session) (x : Exchange) : Option TokenUsage :=
  match (s.turn x).result, x.received s.provider with
  | .ok outcome, .ok reply => outcome.message?.map fun _ => reply.usage
  | _, _ => none

/-- The reports that a run of turns records. -/
def reports (s : Session) : List Exchange → List TokenUsage
  | [] => []
  | x :: rest => (s.recorded x).toList ++ (s.turn x).session.reports rest

/-- The sum of counts behind a report, taken without a bound. -/
def charged (n : Nat) (u : TokenUsage) : Nat := max u.totalInput.toNat n + u.output.toNat

theorem le_foldl_charged (n : Nat) (usages : List TokenUsage) : n ≤ usages.foldl charged n := by
  induction usages generalizing n with
  | nil => exact le_rfl
  | cons u rest ih =>
    have hfirst : n ≤ charged n u := by
      unfold charged
      omega
    exact hfirst.trans (ih _)

/-- A turn adds nothing, or what is reported. -/
theorem tokenSum_turn {s : Session} (h : tokenSum s.conversation.messages < UInt64.size)
    (x : Exchange) : tokenSum (s.turn x).session.conversation.messages
      = (s.recorded x).toList.foldl charged (tokenSum s.conversation.messages) := by
  have hrecords := s.turn_records x
  rw [recorded]
  cases hresult : (s.turn x).result with
  | error e =>
    rw [hresult] at hrecords
    rcases hrecords with hsame | ⟨-, hsum, -⟩
    · rw [hsame]
      rfl
    · exact absurd h (Nat.not_lt.2 hsum)
  | ok outcome =>
    rw [hresult] at hrecords
    cases outcome with
    | withheld reason =>
      obtain ⟨reply, hreceived, -⟩ := exists_reply_of_turn hresult
      rw [hreceived, show _ = _ from hrecords]
      rfl
    | complete m | cutShort m =>
      obtain ⟨-, reply, hreceived, -, charge, hlater, hcharge⟩ := hrecords
      rw [hreceived, hlater, tokenSum_append]
      simp only [Outcome.message?, Option.map_some, Option.toList_some, List.foldl_cons,
        List.foldl_nil, charged, tokenSum, List.map_cons, List.map_nil, List.sum_cons,
        List.sum_nil, hcharge]
      omega

/-- No turn makes the sum smaller. -/
theorem tokenSum_le_turn (s : Session) (x : Exchange) :
    tokenSum s.conversation.messages ≤ tokenSum (s.turn x).session.conversation.messages := by
  rcases s.turn_pair x with hsame | ⟨-, charge, reply, hlater, -⟩ | ⟨-, hlater⟩
  · rw [hsame]
  · rw [hlater, tokenSum_append]
    exact Nat.le_add_right _ _
  · rw [hlater]
    exact tokenSum_le_concat _ _

theorem stage_zero (s : Session) (exchanges : List Exchange) : s.stage exchanges 0 = s := rfl

theorem stage_cons (s : Session) (x : Exchange) (rest : List Exchange) (k : Nat) :
    s.stage (x :: rest) (k + 1) = (s.turn x).session.stage rest k := rfl

/-- A run of turns gets by without an overflow if the last total does, and this depends on the
reports. -/
theorem totals_stage_iff (s : Session) (exchanges : List Exchange) :
    (∀ k, ∃ total, (s.stage exchanges k).conversation.total = .ok total) ↔
    (s.reports exchanges).foldl charged (tokenSum s.conversation.messages) < UInt64.size := by
  simp only [Conversation.exists_total_iff]
  induction exchanges generalizing s with
  | nil =>
    have hstage (k : Nat) : s.stage [] k = s := by rw [stage, List.take_nil, after_nil]
    simp only [hstage, reports, List.foldl_nil, forall_const]
  | cons x rest ih =>
    rw [← Nat.and_forall_add_one]
    simp only [stage_zero, stage_cons, ih, reports, List.foldl_append]
    constructor
    · rintro ⟨hstart, hrest⟩
      rwa [tokenSum_turn hstart] at hrest
    · intro hrest
      have hstart : tokenSum s.conversation.messages < UInt64.size :=
        ((le_foldl_charged _ _).trans (le_foldl_charged _ _)).trans_lt hrest
      exact ⟨hstart, by rwa [tokenSum_turn hstart]⟩

theorem tokenSum_stage_mono (s : Session) (exchanges : List Exchange) :
    Monotone fun k => tokenSum (s.stage exchanges k).conversation.messages := by
  refine monotone_nat_of_le_succ fun k => ?_
  cases hexchange : exchanges[k]? with
  | none =>
    rw [stage, stage, List.take_add_one, hexchange, Option.toList_none, List.append_nil]
  | some x =>
    rw [stage_succ hexchange]
    exact tokenSum_le_turn _ x

/-- Once a turn has brought more than fits into a word, there is no total any more. -/
theorem total_of_overflow {s : Session} {exchanges : List Exchange} {k l : Nat} {x : Exchange}
    {u : TokenUsage} (hx : exchanges[k]? = some x)
    (hsmall : tokenSum (s.stage exchanges k).conversation.messages < UInt64.size)
    (hrecorded : (s.stage exchanges k).recorded x = some u)
    (hlarge : UInt64.size ≤ charged (tokenSum (s.stage exchanges k).conversation.messages) u)
    (hkl : k < l) : (s.stage exchanges l).conversation.total = .error .overflow := by
  have hsum := tokenSum_turn hsmall x
  rw [hrecorded, Option.toList_some, List.foldl_cons, List.foldl_nil, ← stage_succ hx] at hsum
  have hlater := tokenSum_stage_mono s exchanges (Nat.succ_le_of_lt hkl)
  rw [Conversation.total, totalTokens_eq]
  exact countOf_of_le (hlarge.trans (hsum.ge.trans hlater))

end Session

/-! ## All sums -/

/-- The input of a report saturates. Its output, what a charge is reckoned with, and the totals of a
conversation are checked sums. So a report is read if the two parts of its output fit together. A
run of entries goes well as long as the sums fit that are taken without a bound, and the total
behind the first one that does not fit is an overflow. A run of turns goes well if the last such sum
fits; a turn whose sum is the first that does not fit leaves no total, then or later. -/
theorem token_sums_overflow (usage : Json) (u : TokenUsage) (c : Conversation)
    (entries : List Conversation.Entry) (s : Session) (exchanges : List Exchange) :
    (u.totalInput.toNat
        = min (u.input.toNat + u.cacheCreated.toNat + u.cacheRead.toNat) (UInt64.size - 1) ∧
      (Gemini.decodeUsage usage).map TokenUsage.output = countOf (Gemini.outputSum usage)) ∧
    (c.total = countOf (tokenSum c.messages) ∧
      (∀ m input output e, c.appendReply m input output = .error e ↔
        UInt64.size ≤ tokenSum c.messages.dropLast ∧ e = .overflow) ∧
      (∀ k, (∀ j < k, (c.tally.stage entries j).sum < UInt64.size) →
        ∃ c', c.stage entries k = .ok c' ∧ c'.total = countOf (c.tally.stage entries k).sum) ∧
      ((∀ k, ∃ c' total, c.stage entries k = .ok c' ∧ c'.total = .ok total) ↔
        ∀ k, (c.tally.stage entries k).sum < UInt64.size)) ∧
    (((∀ k, ∃ total, (s.stage exchanges k).conversation.total = .ok total) ↔
        (s.reports exchanges).foldl Session.charged (tokenSum s.conversation.messages)
          < UInt64.size) ∧
      ∀ k x v, exchanges[k]? = some x → (s.stage exchanges k).recorded x = some v →
        tokenSum (s.stage exchanges k).conversation.messages < UInt64.size →
        UInt64.size ≤ Session.charged (tokenSum (s.stage exchanges k).conversation.messages) v →
        ∀ l, k < l → (s.stage exchanges l).conversation.total = .error .overflow) :=
  ⟨⟨u.totalInput_toNat, Gemini.decodeUsage_eq usage⟩,
    ⟨totalTokens_eq c.messages, fun _ _ _ _ => Conversation.appendReply_eq_error_iff,
      fun _ h => Conversation.exists_stage_of_tally h, Conversation.totals_stage_iff c entries⟩,
    Session.totals_stage_iff s exchanges,
    fun _ _ _ hx hrecorded hsmall hlarge _ hkl =>
      Session.total_of_overflow hx hsmall hrecorded hlarge hkl⟩

/-! ### Sums that do not fit -/

/-- A reply with a report whose two counts fit, and not their sum. -/
def longReply : Json := .object [
  ("choices", .array [.object [
    ("message", .object [("content", .string "Hi."), ("role", .string "assistant")])]]),
  ("usage", .object [
    ("completion_tokens", .number (.whole 1)),
    ("prompt_tokens", .number (.whole 18446744073709551615))])]

/-- A session that has just begun. -/
def newSession : Session := SessionSetup.start { provider := .openai, model := "m" }

/-- A turn that brings this reply. -/
def longTurn : Exchange :=
  .whole (.ofText .user "Hello.") .numbered (.ok (Bytes.ofString longReply.toText))

/-- What the reply reports. -/
def longUsage : TokenUsage := { input := 18446744073709551615, output := 1 }

theorem received_longTurn : longTurn.received newSession.provider
    = .ok ⟨.ofText .assistant "Hi.", longUsage⟩ := by
  have hparse : Dialect.parseBody .openai (Bytes.ofString longReply.toText) = .ok longReply :=
    Dialect.parseBody_toText .openai (by decide) (by decide +kernel)
  have hprovider : newSession.provider = .openai := rfl
  rw [hprovider, longTurn, Exchange.received, Except.bind, Provider.decodeReply,
    OpenAI.decodeReply, hparse]
  decide +kernel

theorem recorded_longTurn : newSession.recorded longTurn = some longUsage := by
  rw [Session.recorded, Session.turn_result (by decide), received_longTurn]
  decide +kernel

/-- Neither a report can always be read nor a total always be taken. -/
theorem token_sums_not_always_fit :
    (¬ ∀ usage : Json, ∃ u, Gemini.decodeUsage usage = .ok u) ∧
    ¬ ∀ (s : Session) (x : Exchange), ∃ n, (s.turn x).session.conversation.total = .ok n := by
  constructor
  · intro h
    obtain ⟨u, hu⟩ := h Gemini.longOutput
    cases hu
  · intro h
    obtain ⟨n, hn⟩ := h newSession longTurn
    have hsmall : tokenSum newSession.conversation.messages < UInt64.size := by decide
    have hsum := Session.tokenSum_turn hsmall longTurn
    rw [recorded_longTurn] at hsum
    rw [Conversation.total, totalTokens_eq, hsum] at hn
    cases hn

end ChatWire
