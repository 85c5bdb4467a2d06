import ChatWire.Conversation
import ChatWire.Dialect.Gemini
import ChatWire.Proofs.Dialect.Basic
import Mathlib.Algebra.GroupWithZero.Nat

/-!
# Sums of counts

Counts are words, and there are three ways to reckon with them. A checked sum is the sum where this
is a word, and an overflow otherwise (`addCounts_eq`); a saturating sum stops at the greatest word,
and a saturating difference at zero. So what is reckoned with words is told by what is reckoned
with numbers. The totals of a conversation (`totalTokens_eq`) and the output in a report of two
parts (`Gemini.decodeUsage_eq`) are checked sums.
-/

namespace ChatWire

open Dialect

/-! ## Words -/

/-- The count that a number is, if it is small enough for a word. -/
def countOf (n : Nat) : Except Error UInt64 :=
  if n < UInt64.size then .ok (.ofNat n) else .error .overflow

variable {a b c : UInt64} {n : Nat} {e : Error}

theorem countOf_of_lt (h : n < UInt64.size) : countOf n = .ok (.ofNat n) := if_pos h

theorem countOf_of_le (h : UInt64.size ≤ n) : countOf n = .error .overflow :=
  if_neg (Nat.not_lt.2 h)

@[simp] theorem countOf_toNat (c : UInt64) : countOf c.toNat = .ok c := by
  rw [countOf_of_lt c.toNat_lt, UInt64.ofNat_toNat]

theorem countOf_eq_ok_iff : countOf n = .ok c ↔ c.toNat = n := by
  constructor
  · intro h
    unfold countOf at h
    split at h
    case isTrue hlt =>
      rw [← Except.ok.inj h]
      exact UInt64.toNat_ofNat_of_lt' hlt
    case isFalse => cases h
  · rintro rfl
    exact countOf_toNat c

theorem countOf_eq_error_iff : countOf n = .error e ↔ UInt64.size ≤ n ∧ e = .overflow := by
  unfold countOf
  split
  case isTrue hlt => exact iff_of_false nofun fun h => absurd hlt (Nat.not_lt.2 h.1)
  case isFalse hle =>
    rw [Except.error.injEq, eq_comm]
    exact (and_iff_right (Nat.not_lt.1 hle)).symm

theorem addCounts_eq (a b : UInt64) : addCounts a b = countOf (a.toNat + b.toNat) := by
  unfold addCounts
  split
  case isTrue hlt =>
    rw [eq_comm, countOf_eq_ok_iff, UInt64.toNat_add]
    exact Nat.mod_eq_of_lt hlt
  case isFalse hle => exact (countOf_of_le (Nat.not_lt.1 hle)).symm

/-- A sum that is too large does not become smaller by what is added to it. -/
theorem countOf_bind_add (m n : Nat) :
    (countOf m >>= fun a => countOf (a.toNat + n)) = countOf (m + n) := by
  by_cases hlt : m < UInt64.size
  · rw [countOf_of_lt hlt]
    exact congrArg (fun k => countOf (k + n)) (UInt64.toNat_ofNat_of_lt' hlt)
  · have hle : UInt64.size ≤ m := Nat.not_lt.1 hlt
    rw [countOf_of_le hle, countOf_of_le (Nat.le_trans hle (Nat.le_add_right m n))]
    rfl

theorem saturatingSub_toNat (a b : UInt64) : (saturatingSub a b).toNat = a.toNat - b.toNat := by
  unfold saturatingSub
  split
  case isTrue h => exact UInt64.toNat_sub_of_le _ _ h
  case isFalse h =>
    have hlt : a.toNat < b.toNat := UInt64.lt_iff_toNat_lt.1 (UInt64.not_le.1 h)
    rw [UInt64.toNat_zero]
    omega

theorem saturatingAdd_toNat (a b : UInt64) :
    (saturatingAdd a b).toNat = min (a.toNat + b.toNat) (UInt64.size - 1) := by
  have ha := a.toNat_lt
  have hb := b.toNat_lt
  -- the sum that wraps is smaller than its first part
  have hwraps : a + b < a ↔ (a.toNat + b.toNat) % 2 ^ 64 < a.toNat := by
    rw [UInt64.lt_iff_toNat_lt, UInt64.toNat_add]
  unfold saturatingAdd
  split
  case isTrue h =>
    rw [hwraps] at h
    have hlarge : UInt64.size - 1 ≤ a.toNat + b.toNat := by
      change 2 ^ 64 - 1 ≤ _
      omega
    rw [Nat.min_eq_right hlarge]
    rfl
  case isFalse h =>
    rw [hwraps] at h
    have hsmall : a.toNat + b.toNat ≤ UInt64.size - 1 := by
      change _ ≤ 2 ^ 64 - 1
      omega
    rw [Nat.min_eq_left hsmall, UInt64.toNat_add]
    omega

theorem TokenUsage.totalInput_toNat (u : TokenUsage) : u.totalInput.toNat
    = min (u.input.toNat + u.cacheCreated.toNat + u.cacheRead.toNat) (UInt64.size - 1) := by
  rw [totalInput, saturatingAdd_toNat, saturatingAdd_toNat]
  omega

/-! ## Messages -/

/-- The sum of token counts. -/
def tokenSum (messages : List Message) : Nat := (messages.map fun m => m.tokenCount.toNat).sum

theorem tokenSum_append (first second : List Message) :
    tokenSum (first ++ second) = tokenSum first + tokenSum second := by
  rw [tokenSum, List.map_append, List.sum_append]
  rfl

theorem tokenSum_singleton (m : Message) : tokenSum [m] = m.tokenCount.toNat := by
  simp [tokenSum]

theorem tokenSum_le_concat (earlier : List Message) (last : Message) :
    tokenSum earlier ≤ tokenSum (earlier ++ [last]) := by
  rw [tokenSum_append]
  exact Nat.le_add_right _ _

theorem totalTokens_eq (messages : List Message) :
    totalTokens messages = countOf (tokenSum messages) := by
  have hfold : ∀ (messages : List Message) (n : UInt64),
      messages.foldlM (fun n m => addCounts n m.tokenCount) n
        = countOf (n.toNat + tokenSum messages) := by
    intro messages
    induction messages with
    | nil => intro n; exact (countOf_toNat n).symm
    | cons m rest ih =>
      intro n
      have hrest : (fun k => rest.foldlM (fun n m => addCounts n m.tokenCount) k)
          = fun k => countOf (k.toNat + tokenSum rest) := funext ih
      rw [List.foldlM_cons, addCounts_eq, hrest, countOf_bind_add, Nat.add_assoc]
      rfl
  rw [totalTokens, hfold, UInt64.toNat_zero, Nat.zero_add]

/-! ## Reports -/

namespace Gemini

variable {usage : Json}

/-- The two parts of the output in a report, added up. -/
def outputSum (usage : Json) : Nat :=
  (countField usage "candidates_token_count" "candidatesTokenCount").toNat
    + (countField usage "thoughts_token_count" "thoughtsTokenCount").toNat

theorem decodeUsage_eq (usage : Json) :
    (decodeUsage usage).map TokenUsage.output = countOf (outputSum usage) := by
  rw [decodeUsage, addCounts_eq, outputSum]
  cases countOf _ <;> rfl

theorem decodeUsage_eq_error_iff :
    decodeUsage usage = .error e ↔ UInt64.size ≤ outputSum usage ∧ e = .overflow := by
  rw [← countOf_eq_error_iff, ← decodeUsage_eq, map_eq_error_iff]

/-- Where there need not be a report, nothing but its sum can fail either. -/
theorem eq_overflow_of_report {report : Option Json}
    (h : (report.map decodeUsage).getD (pure {}) = .error e) : e = .overflow := by
  cases report with
  | none => cases h
  | some usage => exact (decodeUsage_eq_error_iff.1 h).2

/-- A report whose two output counts fit, and not their sum. -/
def longOutput : Json := .object [
  ("candidatesTokenCount", .number (.whole 18446744073709551615)),
  ("thoughtsTokenCount", .number (.whole 1))]

end Gemini

end ChatWire
