import ChatWire.Proofs.Session.Recording
import Mathlib.Algebra.Ring.Parity
import Mathlib.Data.List.Basic
import Mathlib.Order.Monotone.Basic

/-!
# Token accounts of a conversation

Whatever is added to a conversation, the messages that it had stay what they are but for the token
count of the last, and the total is told by the latest report: it is the greater of the reported
input and of what the earlier messages were charged with, and the output
(`Conversation.tokenSum_appendReply`). So in a run of messages and replies in turn the total never
falls, and it is what the provider says as long as the provider does not say less than was accounted
for (`Conversation.entries_settle_accounts`).
-/

namespace ChatWire

namespace Conversation

/-- What is added to a conversation. -/
inductive Entry where
  /-- A message, without any report. -/
  | plain (message : Message)
  /-- A reply, with the counts that the provider reported for the exchange. -/
  | reply (message : Message) (input output : UInt64)

/-- Adds an entry. -/
def record (c : Conversation) : Entry → Except Error Conversation
  | .plain m => .ok (c.append m)
  | .reply m input output => c.appendReply m input output

/-- The conversation when so many of the entries have been added. -/
def stage (c : Conversation) (entries : List Entry) (k : Nat) : Except Error Conversation :=
  (entries.take k).foldlM record c

/-- Messages without a charge at the even places, replies with their reports at the odd ones. -/
structure Alternates (entries : List Entry) : Prop where
  even : ∀ k e, entries[2 * k]? = some e → ∃ m, e = .plain m ∧ m.tokenCount = 0
  odd : ∀ k e, entries[2 * k + 1]? = some e → ∃ m input output, e = .reply m input output

/-- What an entry makes of the messages. A message is added as it is. A reply is added with the
output as its count; it charges the message before it and changes nothing else, and the total is
then the output and the greater of the input and of the total of the messages before this one. -/
def Accounts (before after : Conversation) : Entry → Prop
  | .plain m => after.messages = before.messages ++ [m]
  | .reply m input output =>
    (∃ charge : UInt64, after.messages = before.messages.dropLast ++
      (before.messages.getLast?.map ({ · with tokenCount := charge })).toList ++
        [{ m with tokenCount := output }]) ∧
    ∃ accounted total, totalTokens before.messages.dropLast = .ok accounted ∧
      after.total = .ok total ∧
      total.toNat =
        (if before.messages = [] then 0 else max input.toNat accounted.toNat) + output.toNat

/-- The messages that were there are there, in their places, but for their token counts. -/
def Extends (before after : Conversation) : Prop :=
  ∀ (j : Nat) (m : Message), before.messages[j]? = some m →
    ∃ count : UInt64, after.messages[j]? = some { m with tokenCount := count }

theorem Extends.refl (c : Conversation) : Extends c c := fun _ m h => ⟨m.tokenCount, h⟩

theorem Extends.trans {a b c : Conversation} (hab : Extends a b) (hbc : Extends b c) :
    Extends a c := by
  intro j m hm
  obtain ⟨count, hb⟩ := hab j m hm
  obtain ⟨count', hc⟩ := hbc j _ hb
  exact ⟨count', hc⟩

/-! ## One entry -/

section OneEntry

variable {c c' : Conversation} {m : Message} {input output : UInt64} {e : Entry}

/-- A reply charges the last message with what the total of the earlier ones leaves of the input. -/
theorem appendReply_eq_ok_iff : c.appendReply m input output = .ok c' ↔
    ∃ accounted, totalTokens c.messages.dropLast = .ok accounted ∧
      c'.messages = c.messages.dropLast ++
        (c.messages.getLast?.map
          ({ · with tokenCount := saturatingSub input accounted })).toList ++
        [{ m with tokenCount := output }] := by
  obtain ⟨messages⟩ := c
  obtain ⟨messages'⟩ := c'
  rcases List.eq_nil_or_concat' messages with rfl | ⟨earlier, last, rfl⟩
  · have hreply : appendReply ⟨[]⟩ m input output = .ok ⟨[{ m with tokenCount := output }]⟩ := rfl
    have hnothing : totalTokens [] = .ok 0 := rfl
    simp [hreply, hnothing, eq_comm]
  · have hpair := appendReply_append ⟨earlier⟩ last m input output
    rw [append] at hpair
    rw [hpair, Dialect.map_eq_ok_iff]
    simp [eq_comm]

theorem appendReply_eq_error_iff {err : Error} : c.appendReply m input output = .error err ↔
    UInt64.size ≤ tokenSum c.messages.dropLast ∧ err = .overflow := by
  obtain ⟨messages⟩ := c
  rcases List.eq_nil_or_concat' messages with rfl | ⟨earlier, last, rfl⟩
  · exact iff_of_false nofun fun h => absurd h.1 (by decide)
  · have hpair := appendReply_append ⟨earlier⟩ last m input output
    rw [append] at hpair
    rw [hpair, Dialect.map_eq_error_iff, totalTokens_eq, countOf_eq_error_iff,
      List.dropLast_concat]

/-- The sum of counts behind a reply: the charge fills up what the earlier messages leave of the
input, and where they leave nothing it is zero. -/
theorem tokenSum_appendReply (h : c.appendReply m input output = .ok c') :
    tokenSum c'.messages
      = (if c.messages = [] then 0 else max input.toNat (tokenSum c.messages.dropLast))
        + output.toNat := by
  obtain ⟨accounted, haccounted, hmessages⟩ := appendReply_eq_ok_iff.1 h
  rw [totalTokens_eq, countOf_eq_ok_iff] at haccounted
  obtain ⟨messages⟩ := c
  rcases List.eq_nil_or_concat' messages with rfl | ⟨earlier, last, rfl⟩
  · rw [hmessages]
    simp [tokenSum]
  · rw [List.dropLast_concat] at haccounted
    rw [hmessages, if_neg (by simp)]
    simp only [List.dropLast_concat, List.getLast?_concat, Option.map_some, Option.toList_some,
      tokenSum_append, tokenSum_singleton, saturatingSub_toNat, haccounted]
    omega

/-- A message that is added adds its count to the total. -/
theorem tokenSum_append_plain (c : Conversation) (m : Message) :
    tokenSum (c.append m).messages = tokenSum c.messages + m.tokenCount.toNat := by
  rw [append, tokenSum_append, tokenSum_singleton]

theorem tokenSum_dropLast_le (messages : List Message) :
    tokenSum messages.dropLast ≤ tokenSum messages := by
  rcases List.eq_nil_or_concat' messages with rfl | ⟨earlier, last, rfl⟩
  · exact le_rfl
  · rw [List.dropLast_concat]
    exact tokenSum_le_concat earlier last

/-- An entry can be added to a conversation whose counts can be added up. -/
theorem exists_record (h : tokenSum c.messages < UInt64.size) (e : Entry) :
    ∃ c', c.record e = .ok c' := by
  cases e with
  | plain m => exact ⟨_, rfl⟩
  | reply m input output =>
    cases hreply : c.appendReply m input output with
    | ok c' => exact ⟨c', hreply⟩
    | error err =>
      have hsum := (appendReply_eq_error_iff.1 hreply).1
      exact absurd (hsum.trans (tokenSum_dropLast_le _)) (Nat.not_le.2 h)

theorem record_extends (h : c.record e = .ok c') : Extends c c' := by
  intro j m hm
  obtain ⟨hlt, -⟩ := List.getElem?_eq_some_iff.1 hm
  cases e with
  | plain added =>
    obtain rfl := Except.ok.inj h
    refine ⟨m.tokenCount, ?_⟩
    rw [append, List.getElem?_append_left hlt]
    exact hm
  | reply added input output =>
    obtain ⟨accounted, -, hmessages⟩ := appendReply_eq_ok_iff.1 h
    obtain ⟨messages⟩ := c
    rcases List.eq_nil_or_concat' messages with rfl | ⟨earlier, last, rfl⟩
    · cases hlt
    · simp only [List.dropLast_concat, List.getLast?_concat, Option.map_some,
        Option.toList_some] at hmessages
      by_cases hj : j < earlier.length
      · rw [List.getElem?_append_left hj] at hm
        refine ⟨m.tokenCount, ?_⟩
        rw [hmessages, List.append_assoc, List.getElem?_append_left hj]
        exact hm
      · -- the only other message is the last, which is charged
        have hlast : j = earlier.length := by
          simp only [List.length_append, List.length_singleton] at hlt
          omega
        subst hlast
        rw [List.getElem?_concat_length] at hm
        obtain rfl := Option.some.inj hm
        refine ⟨saturatingSub input accounted, ?_⟩
        rw [hmessages, List.append_assoc, List.getElem?_append_right le_rfl, Nat.sub_self]
        rfl

theorem record_accounts (h : c.record e = .ok c') (hsum : tokenSum c'.messages < UInt64.size) :
    Accounts c c' e := by
  cases e with
  | plain m =>
    obtain rfl := Except.ok.inj h
    rfl
  | reply m input output =>
    obtain ⟨accounted, haccounted, hmessages⟩ := appendReply_eq_ok_iff.1 h
    refine ⟨⟨_, hmessages⟩, accounted, .ofNat (tokenSum c'.messages), haccounted, ?_, ?_⟩
    · rw [total, totalTokens_eq, countOf_of_lt hsum]
    · rw [totalTokens_eq, countOf_eq_ok_iff] at haccounted
      rw [UInt64.toNat_ofNat_of_lt' hsum, tokenSum_appendReply h, haccounted]

end OneEntry

/-! ## Runs of entries -/

section Runs

variable {c : Conversation} {entries : List Entry} {k : Nat} {e : Entry}

theorem stage_succ (h : entries[k]? = some e) :
    c.stage entries (k + 1) = c.stage entries k >>= fun c => c.record e := by
  rw [stage, List.take_add_one, h, Option.toList_some, List.foldlM_append]
  congr 1
  funext c
  rw [List.foldlM_cons]
  exact bind_pure _

theorem stage_succ_of_none (h : entries[k]? = none) :
    c.stage entries (k + 1) = c.stage entries k := by
  rw [stage, List.take_add_one, h, Option.toList_none, List.append_nil]
  rfl

/-- The entries can be added one after the other as long as the counts can be added up. -/
theorem exists_stage
    (hsum : ∀ j c', j < k → c.stage entries j = .ok c' → tokenSum c'.messages < UInt64.size) :
    ∃ c', c.stage entries k = .ok c' := by
  induction k with
  | zero => exact ⟨c, rfl⟩
  | succ k ih =>
    obtain ⟨b, hb⟩ := ih fun j c' hj => hsum j c' (Nat.lt_succ_of_lt hj)
    cases hentry : entries[k]? with
    | none => exact ⟨b, by rw [stage_succ_of_none hentry, hb]⟩
    | some e =>
      obtain ⟨c', hc'⟩ := exists_record (hsum k b (Nat.lt_succ_self k) hb) e
      exact ⟨c', by rw [stage_succ hentry, hb]; exact hc'⟩

variable {run : Nat → Conversation} (hrun : ∀ k, c.stage entries k = .ok (run k))

include hrun

theorem run_succ (h : entries[k]? = some e) : (run k).record e = .ok (run (k + 1)) := by
  rw [← hrun (k + 1), stage_succ h, hrun k]
  rfl

theorem run_succ_of_none (h : entries[k]? = none) : run (k + 1) = run k :=
  Except.ok.inj (by rw [← hrun (k + 1), stage_succ_of_none h, hrun k])

theorem run_extends {k l : Nat} (h : k ≤ l) : Extends (run k) (run l) := by
  induction l, h using Nat.le_induction with
  | base => exact .refl _
  | succ l _ ih =>
    refine ih.trans ?_
    cases hentry : entries[l]? with
    | none =>
      rw [run_succ_of_none hrun hentry]
      exact .refl _
    | some e => exact record_extends (run_succ hrun hentry)

variable (h : Alternates entries)

include h

/-- A message without a charge leaves the total as it is. -/
theorem tokenSum_run_of_even {j : Nat} :
    tokenSum (run (2 * j + 1)).messages = tokenSum (run (2 * j)).messages := by
  cases hentry : entries[2 * j]? with
  | none => rw [run_succ_of_none hrun hentry]
  | some e =>
    obtain ⟨m, rfl, hcount⟩ := h.even j e hentry
    obtain hnext : (run (2 * j)).append m = run (2 * j + 1) :=
      Except.ok.inj (run_succ hrun hentry)
    rw [← hnext, tokenSum_append_plain, hcount, UInt64.toNat_zero, Nat.add_zero]

/-- A reply behind a message without a charge: nothing that was accounted for is given up. -/
theorem tokenSum_run_of_odd {j : Nat} {m : Message} {input output : UInt64}
    (hentry : entries[2 * j + 1]? = some (.reply m input output)) :
    tokenSum (run (2 * j + 2)).messages
      = max input.toNat (tokenSum (run (2 * j + 1)).messages) + output.toNat := by
  obtain ⟨hlt, -⟩ := List.getElem?_eq_some_iff.1 hentry
  have hlast : entries[2 * j]? = some entries[2 * j] := List.getElem?_eq_getElem (by omega)
  obtain ⟨last, hplain, -⟩ := h.even j _ hlast
  rw [hplain] at hlast
  obtain hbefore : (run (2 * j)).append last = run (2 * j + 1) :=
    Except.ok.inj (run_succ hrun hlast)
  have hreply := tokenSum_appendReply (run_succ hrun hentry)
  rw [← hbefore, append, if_neg (by simp), List.dropLast_concat,
    ← tokenSum_run_of_even hrun h] at hreply
  exact hreply

theorem tokenSum_run_le (k : Nat) :
    tokenSum (run k).messages ≤ tokenSum (run (k + 1)).messages := by
  obtain ⟨j, rfl | rfl⟩ := Nat.even_or_odd' k
  · exact (tokenSum_run_of_even hrun h).ge
  · cases hentry : entries[2 * j + 1]? with
    | none => rw [run_succ_of_none hrun hentry]
    | some e =>
      obtain ⟨m, input, output, rfl⟩ := h.odd j e hentry
      rw [tokenSum_run_of_odd hrun h hentry]
      omega

/-- Behind a report that does not fall short of what was accounted for, the sum of counts is what
was reported, and it stays so when the next message is added. -/
theorem tokenSum_run_of_report {m : Message} {input output : UInt64}
    (hentry : entries[k]? = some (.reply m input output))
    (hinput : tokenSum (run k).messages ≤ input.toNat) :
    tokenSum (run (k + 1)).messages = input.toNat + output.toNat ∧
      tokenSum (run (k + 2)).messages = input.toNat + output.toNat := by
  obtain ⟨j, rfl | rfl⟩ := Nat.even_or_odd' k
  · obtain ⟨_, hplain, -⟩ := h.even j _ hentry
    cases hplain
  · have hreply := tokenSum_run_of_odd hrun h hentry
    rw [Nat.max_eq_left hinput] at hreply
    exact ⟨hreply, (tokenSum_run_of_even hrun h (j := j + 1)).trans hreply⟩

end Runs

/-- Adding to a conversation changes no message that it has, but for the count of the last one when
a report comes, and the total is what the report makes it. Where messages without a charge and
replies are added in turn, the total never falls, and it is the input and the output of the latest
report if this input is no less than the total before it. All this as long as the counts can be
added up, and then no entry fails and no total. -/
theorem entries_settle_accounts (c : Conversation) (entries : List Entry)
    (hsum : ∀ k c', c.stage entries k = .ok c' → tokenSum c'.messages < UInt64.size) :
    ∃ (run : Nat → Conversation) (total : Nat → UInt64),
      (∀ k, c.stage entries k = .ok (run k) ∧ (run k).total = .ok (total k)) ∧
      (∀ k e, entries[k]? = some e → Accounts (run k) (run (k + 1)) e) ∧
      (∀ k l, k ≤ l → Extends (run k) (run l)) ∧
      (Alternates entries →
        (∀ k l, k ≤ l → total k ≤ total l) ∧
        ∀ k m input output, entries[k]? = some (.reply m input output) → total k ≤ input →
          (total (k + 1)).toNat = input.toNat + output.toNat ∧
          (total (k + 2)).toNat = input.toNat + output.toNat) := by
  have hstages (k : Nat) : ∃ c', c.stage entries k = .ok c' :=
    exists_stage fun j c' _ => hsum j c'
  choose run hrun using hstages
  have hsmall (k : Nat) : tokenSum (run k).messages < UInt64.size := hsum k _ (hrun k)
  have htotal (k : Nat) : (UInt64.ofNat (tokenSum (run k).messages)).toNat
      = tokenSum (run k).messages := UInt64.toNat_ofNat_of_lt' (hsmall k)
  refine ⟨run, fun k => .ofNat (tokenSum (run k).messages), fun k => ⟨hrun k, ?_⟩,
    fun k e he => record_accounts (run_succ hrun he) (hsmall (k + 1)),
    fun k l hkl => run_extends hrun hkl, fun halternates => ⟨fun k l hkl => ?_, ?_⟩⟩
  · rw [Conversation.total, totalTokens_eq, countOf_of_lt (hsmall k)]
  · have hmono : Monotone fun k => tokenSum (run k).messages :=
      monotone_nat_of_le_succ (tokenSum_run_le hrun halternates)
    rw [UInt64.le_iff_toNat_le, htotal, htotal]
    exact hmono hkl
  · intro k m input output he hinput
    rw [UInt64.le_iff_toNat_le, htotal] at hinput
    rw [htotal, htotal]
    exact tokenSum_run_of_report hrun halternates he hinput

/-- A conversation with a message that was charged before. -/
def greeting : Conversation :=
  ⟨[{ role := .user, content := [.text "Hello."], tokenCount := 12 }]⟩

/-- Two exchanges, of which the second is reported with less input than was accounted for. -/
def smallTalk : List Entry := [
  .plain (.ofText .user "How are you?"), .reply (.ofText .assistant "Fine.") 20 5,
  .plain (.ofText .user "Good."), .reply (.ofText .assistant "Yes.") 10 2]

theorem alternates_smallTalk : Alternates smallTalk where
  even k e he := by
    match k with
    | 0 | 1 => exact ⟨_, (Option.some.inj he).symm, rfl⟩
    | k + 2 =>
      have hlength : smallTalk.length = 4 := rfl
      rw [List.getElem?_eq_none (by omega)] at he
      cases he
  odd k e he := by
    match k with
    | 0 | 1 => exact ⟨_, _, _, (Option.some.inj he).symm⟩
    | k + 2 =>
      have hlength : smallTalk.length = 4 := rfl
      rw [List.getElem?_eq_none (by omega)] at he
      cases he

theorem tokenSum_smallTalk (k : Nat) (c : Conversation) (h : greeting.stage smallTalk k = .ok c) :
    tokenSum c.messages < UInt64.size := by
  have hstages : ∀ i : Fin 5, (greeting.stage smallTalk i).toOption.all fun c =>
      decide (tokenSum c.messages < UInt64.size) := by decide +kernel
  have hlast : greeting.stage smallTalk k = greeting.stage smallTalk (min k 4) :=
    congrArg (List.foldlM record greeting) List.take_eq_take_min
  have hstage := hstages ⟨min k 4, by omega⟩
  rw [← hlast, h] at hstage
  exact of_decide_eq_true hstage

theorem entries_settle_accounts_smallTalk :
    (∀ k c, greeting.stage smallTalk k = .ok c → tokenSum c.messages < UInt64.size) ∧
    Alternates smallTalk ∧ ∃ (run : Nat → Conversation) (total : Nat → UInt64),
      (∀ k, greeting.stage smallTalk k = .ok (run k) ∧ (run k).total = .ok (total k)) ∧
      Accounts (run 3) (run 4) (.reply (.ofText .assistant "Yes.") 10 2) ∧
      total 0 ≤ total 4 ∧ (total 2).toNat = 20 + 5 := by
  obtain ⟨run, total, hrun, haccounts, -, hturns⟩ :=
    entries_settle_accounts greeting smallTalk tokenSum_smallTalk
  obtain ⟨hrising, hreports⟩ := hturns alternates_smallTalk
  have hfirst : total 1 = 12 := by
    have hstage : greeting.stage smallTalk 1 >>= Conversation.total = .ok 12 := by decide +kernel
    rw [(hrun 1).1] at hstage
    exact Except.ok.inj ((hrun 1).2.symm.trans hstage)
  have hinput : total 1 ≤ 20 := by
    rw [hfirst]
    decide
  exact ⟨tokenSum_smallTalk, alternates_smallTalk, run, total, hrun, haccounts 3 _ rfl,
    hrising 0 4 (by omega), (hreports 1 _ 20 5 rfl hinput).1⟩

end Conversation

end ChatWire
