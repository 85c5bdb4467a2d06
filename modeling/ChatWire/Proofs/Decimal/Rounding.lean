import ChatWire.BinaryNumber
import Mathlib.Tactic.Ring
import Mathlib.Tactic.Linarith

/-!
# Rounding to a binary format

The magnitude nearest to a quotient is finite as long as the quotient stays below the middle between
the greatest magnitude and the next power of two (`BinaryFormat.nearestRank_lt`), and in the normal
range it exceeds the quotient by at most half a unit in its last place
(`BinaryFormat.units_nearestRank_le`).
-/

namespace ChatWire

/-! ## Rounding a quotient -/

theorem le_roundHalfEven (n d : Nat) : n / d ≤ roundHalfEven n d := by
  simp only [roundHalfEven]
  split <;> omega

theorem roundHalfEven_le_succ (n d : Nat) : roundHalfEven n d ≤ n / d + 1 := by
  simp only [roundHalfEven]
  split <;> omega

/-- A rounded quotient is at most a half too great. -/
theorem two_mul_roundHalfEven_mul_le (n : Nat) {d : Nat} (hd : 0 < d) :
    2 * roundHalfEven n d * d ≤ 2 * n + d := by
  have hn : d * (n / d) + n % d = n := Nat.div_add_mod n d
  have hr : n % d < d := Nat.mod_lt n hd
  simp only [roundHalfEven]
  split
  · have hdown : 2 * (n / d) * d = 2 * (d * (n / d)) := by ring
    omega
  case isFalse h =>
    have hhalf : d ≤ 2 * (n % d) := by
      by_contra hlt
      simp [Nat.lt_of_not_le hlt] at h
    have hup : 2 * (n / d + 1) * d = 2 * (d * (n / d)) + 2 * d := by ring
    omega

namespace BinaryFormat

variable {f : BinaryFormat}

/-! ## Ranks and magnitudes -/

theorem unitsInOne_eq (f : BinaryFormat) :
    f.unitsInOne = 2 ^ ((f.finiteExponents - 1) / 2 - 1 + f.fractionBits) := rfl

theorem rankBound_eq (f : BinaryFormat) : f.rankBound = f.finiteExponents * 2 ^ f.fractionBits :=
  rfl

theorem units_eq (f : BinaryFormat) (rank : Nat) :
    f.units rank = if rank < 2 ^ f.fractionBits then rank
      else (2 ^ f.fractionBits + rank % 2 ^ f.fractionBits) * 2 ^ (rank / 2 ^ f.fractionBits - 1) :=
  rfl

/-- Magnitudes in a binade and at its upper end. -/
theorem units_add (k : Nat) {m : Nat} (hm : 2 ^ f.fractionBits ≤ m)
    (hm' : m ≤ 2 * 2 ^ f.fractionBits) :
    f.units (k * 2 ^ f.fractionBits + m) = m * 2 ^ k := by
  have hP : 0 < 2 ^ f.fractionBits := by positivity
  generalize hp : 2 ^ f.fractionBits = P at hm hm' hP
  rw [units_eq, hp, if_neg (by nlinarith)]
  rcases Nat.lt_or_ge m (2 * P) with hlt | hge
  · obtain ⟨j, rfl⟩ : ∃ j, m = P + j := ⟨m - P, by omega⟩
    have hrank : k * P + (P + j) = j + P * (k + 1) := by ring
    have hj : j < P := by omega
    rw [hrank, Nat.add_mul_mod_self_left, Nat.mod_eq_of_lt hj, Nat.add_mul_div_left _ _ hP,
      Nat.div_eq_of_lt hj]
    congr 2
    omega
  · obtain rfl : m = 2 * P := by omega
    have hrank : k * P + 2 * P = P * (k + 2) := by ring
    rw [hrank, Nat.mul_mod_right, Nat.mul_div_cancel_left _ hP, Nat.add_zero,
      show k + 2 - 1 = k + 1 by omega, Nat.pow_succ]
    ring

/-- A greater rank has a greater magnitude. -/
theorem units_mono {r s : Nat} (h : r ≤ s) : f.units r ≤ f.units s := by
  have hP : 0 < 2 ^ f.fractionBits := by positivity
  refine monotone_nat_of_le_succ (fun r => ?_) h
  rcases Nat.lt_trichotomy (r + 1) (2 ^ f.fractionBits) with hlt | heq | hgt
  · have hr : r < 2 ^ f.fractionBits := by omega
    rw [units_eq, units_eq, if_pos hr, if_pos hlt]
    omega
  · have hr : r < 2 ^ f.fractionBits := by omega
    have htop := f.units_add 0 (Nat.le_refl (2 ^ f.fractionBits)) (by omega)
    rw [Nat.zero_mul, Nat.zero_add, Nat.pow_zero, Nat.mul_one] at htop
    rw [heq, htop, units_eq, if_pos hr]
    omega
  · obtain ⟨k, m, hm, hm', rfl⟩ : ∃ k m, 2 ^ f.fractionBits ≤ m ∧ m < 2 * 2 ^ f.fractionBits ∧
        r = k * 2 ^ f.fractionBits + m := by
      have hone : 1 ≤ r / 2 ^ f.fractionBits := (Nat.one_le_div_iff hP).2 (by omega)
      have hmod := Nat.mod_lt r hP
      refine ⟨r / 2 ^ f.fractionBits - 1, 2 ^ f.fractionBits + r % 2 ^ f.fractionBits, by omega,
        by omega, ?_⟩
      have hdiv := Nat.div_add_mod r (2 ^ f.fractionBits)
      obtain ⟨j, hj⟩ : ∃ j, r / 2 ^ f.fractionBits = j + 1 := ⟨_, (Nat.sub_add_cancel hone).symm⟩
      rw [hj] at hdiv ⊢
      rw [Nat.add_sub_cancel]
      nlinarith
    rw [Nat.add_assoc, f.units_add k hm (by omega), f.units_add k (by omega) (by omega)]
    exact Nat.mul_le_mul_right _ (by omega)

/-! ## The nearest magnitude -/

/-- How far a quotient is shifted so that its digits fit the format. -/
def shift (f : BinaryFormat) (n d : Nat) : Nat :=
  Nat.log2 (n * f.unitsInOne / d) - f.fractionBits

/-- The rounded significand of a quotient. -/
def significand (f : BinaryFormat) (n d : Nat) : Nat :=
  roundHalfEven (n * f.unitsInOne) (d * 2 ^ f.shift n d)

theorem nearestRank_eq (n d : Nat) :
    f.nearestRank n d = f.shift n d * 2 ^ f.fractionBits + f.significand n d := rfl

theorem significand_le (n d : Nat) : f.significand n d ≤ 2 * 2 ^ f.fractionBits := by
  have hlog : n * f.unitsInOne / d < 2 ^ (Nat.log2 (n * f.unitsInOne / d) + 1) := Nat.lt_log2_self
  have hpow : 2 ^ (Nat.log2 (n * f.unitsInOne / d) + 1)
      ≤ 2 ^ f.shift n d * (2 * 2 ^ f.fractionBits) := by
    rw [← Nat.pow_succ', ← Nat.pow_add]
    exact Nat.pow_le_pow_right (by decide) (by rw [shift]; omega)
  have hdiv : n * f.unitsInOne / (d * 2 ^ f.shift n d) < 2 * 2 ^ f.fractionBits := by
    rw [← Nat.div_div_eq_div_mul]
    exact Nat.div_lt_of_lt_mul (by omega)
  have hround := roundHalfEven_le_succ (n * f.unitsInOne) (d * 2 ^ f.shift n d)
  rw [significand]
  omega

/-- In the normal range the shift leaves as many digits as the format has. -/
theorem pow_mul_pow_shift {n d : Nat} (h : 2 ^ f.fractionBits ≤ n * f.unitsInOne / d) :
    2 ^ f.fractionBits * 2 ^ f.shift n d = 2 ^ Nat.log2 (n * f.unitsInOne / d) := by
  have hP : 0 < 2 ^ f.fractionBits := by positivity
  have hlog : f.fractionBits ≤ Nat.log2 (n * f.unitsInOne / d) := (Nat.le_log2 (by omega)).2 h
  rw [← Nat.pow_add, shift]
  congr 1
  omega

/-- In the normal range no digit of the significand is missing. -/
theorem le_significand {n d : Nat} (h : 2 ^ f.fractionBits ≤ n * f.unitsInOne / d) :
    2 ^ f.fractionBits ≤ n * f.unitsInOne / (d * 2 ^ f.shift n d) := by
  have hP : 0 < 2 ^ f.fractionBits := by positivity
  rw [← Nat.div_div_eq_div_mul, Nat.le_div_iff_mul_le (by positivity), pow_mul_pow_shift h]
  exact Nat.log2_self_le (by omega)

/-- The magnitude of the nearest rank is the significand, shifted back. -/
theorem units_nearestRank (n d : Nat) :
    f.units (f.nearestRank n d) = f.significand n d * 2 ^ f.shift n d := by
  rw [nearestRank_eq]
  rcases Nat.lt_or_ge (f.significand n d) (2 ^ f.fractionBits) with hlt | hge
  · -- A short significand has not been shifted.
    have hshift : f.shift n d = 0 := by
      by_contra hne
      have hlog : f.fractionBits < Nat.log2 (n * f.unitsInOne / d) := by
        rw [shift] at hne
        omega
      have hq : n * f.unitsInOne / d ≠ 0 := by
        intro hzero
        simp [hzero] at hlog
      have hnormal : 2 ^ f.fractionBits ≤ n * f.unitsInOne / d :=
        (Nat.le_log2 hq).1 (Nat.le_of_lt hlog)
      have hle := f.le_significand hnormal
      have hround := le_roundHalfEven (n * f.unitsInOne) (d * 2 ^ f.shift n d)
      rw [significand] at hlt
      omega
    rw [hshift, Nat.zero_mul, Nat.zero_add, units_eq, if_pos hlt, Nat.pow_zero, Nat.mul_one]
  · exact f.units_add _ hge (f.significand_le n d)

/-- The nearest magnitude is finite below the middle between the greatest magnitude and the next
power of two. -/
theorem nearestRank_lt {n d : Nat} (hd : 0 < d) (hf : 2 ≤ f.finiteExponents)
    (h : 2 * (n * f.unitsInOne)
      < (4 * 2 ^ f.fractionBits - 1) * 2 ^ (f.finiteExponents - 2) * d) :
    f.nearestRank n d < f.rankBound := by
  have hP : 0 < 2 ^ f.fractionBits := by positivity
  have hle := f.significand_le n d
  have hshift : f.shift n d ≤ f.finiteExponents - 2 := by
    have hq : n * f.unitsInOne / d < 2 ^ (f.fractionBits + (f.finiteExponents - 2) + 1) := by
      refine Nat.div_lt_of_lt_mul ?_
      have hpow : 2 ^ (f.fractionBits + (f.finiteExponents - 2) + 1)
          = 2 * 2 ^ f.fractionBits * 2 ^ (f.finiteExponents - 2) := by
        rw [Nat.pow_succ, Nat.pow_add]
        ring
      have hless : (4 * 2 ^ f.fractionBits - 1) * 2 ^ (f.finiteExponents - 2) * d
          ≤ 4 * 2 ^ f.fractionBits * 2 ^ (f.finiteExponents - 2) * d :=
        Nat.mul_le_mul_right _ (Nat.mul_le_mul_right _ (Nat.sub_le _ _))
      rw [hpow]
      nlinarith
    rw [shift]
    by_cases hzero : n * f.unitsInOne / d = 0
    · simp [hzero]
    · have hlog := (Nat.log2_lt hzero).2 hq
      omega
  rw [nearestRank_eq, rankBound_eq]
  rcases Nat.lt_or_ge (f.shift n d) (f.finiteExponents - 2) with hlt | hge
  · obtain ⟨k, hk⟩ : ∃ k, f.finiteExponents = f.shift n d + 3 + k :=
      ⟨f.finiteExponents - f.shift n d - 3, by omega⟩
    rw [hk]
    nlinarith
  · -- In the last binade the significand must not be rounded up to the next power of two.
    have heq : f.shift n d = f.finiteExponents - 2 := by omega
    have hround := two_mul_roundHalfEven_mul_le (n * f.unitsInOne)
      (d := d * 2 ^ f.shift n d) (by positivity)
    have hless : f.significand n d < 2 * 2 ^ f.fractionBits := by
      by_contra hnot
      have hbig : 2 * 2 ^ f.fractionBits ≤ f.significand n d := by omega
      have hmul : 2 * (2 * 2 ^ f.fractionBits) * (d * 2 ^ f.shift n d)
          ≤ 2 * f.significand n d * (d * 2 ^ f.shift n d) :=
        Nat.mul_le_mul_right _ (Nat.mul_le_mul_left _ hbig)
      rw [significand] at hmul
      rw [heq] at hround hmul
      have hsub : (4 * 2 ^ f.fractionBits - 1) * 2 ^ (f.finiteExponents - 2) * d
          + d * 2 ^ (f.finiteExponents - 2)
          = 2 * (2 * 2 ^ f.fractionBits) * (d * 2 ^ (f.finiteExponents - 2)) := by
        obtain ⟨c, hc⟩ : ∃ c, 4 * 2 ^ f.fractionBits = c + 1 :=
          ⟨4 * 2 ^ f.fractionBits - 1, by omega⟩
        have htwice : 2 * (2 * 2 ^ f.fractionBits) = c + 1 := by omega
        rw [hc, htwice, Nat.add_sub_cancel]
        ring
      omega
    obtain ⟨k, hk⟩ : ∃ k, f.finiteExponents = k + 2 := ⟨f.finiteExponents - 2, by omega⟩
    rw [heq, hk, Nat.add_sub_cancel]
    nlinarith

/-- In the normal range a magnitude is too great by at most half a unit in its last place. -/
theorem units_nearestRank_le {n d : Nat} (hd : 0 < d)
    (h : 2 ^ f.fractionBits ≤ n * f.unitsInOne / d) :
    2 * 2 ^ f.fractionBits * f.units (f.nearestRank n d) * d
      ≤ (2 * 2 ^ f.fractionBits + 1) * (n * f.unitsInOne) := by
  have hround := two_mul_roundHalfEven_mul_le (n * f.unitsInOne)
    (d := d * 2 ^ f.shift n d) (by positivity)
  have hnormal : 2 ^ f.fractionBits * (d * 2 ^ f.shift n d) ≤ n * f.unitsInOne :=
    (Nat.le_div_iff_mul_le (by positivity)).1 (f.le_significand h)
  rw [units_nearestRank, significand]
  calc 2 * 2 ^ f.fractionBits
        * (roundHalfEven (n * f.unitsInOne) (d * 2 ^ f.shift n d) * 2 ^ f.shift n d) * d
      = 2 ^ f.fractionBits * (2 * roundHalfEven (n * f.unitsInOne) (d * 2 ^ f.shift n d)
          * (d * 2 ^ f.shift n d)) := by ring
    _ ≤ 2 ^ f.fractionBits * (2 * (n * f.unitsInOne) + d * 2 ^ f.shift n d) :=
      Nat.mul_le_mul_left _ hround
    _ = 2 * 2 ^ f.fractionBits * (n * f.unitsInOne)
          + 2 ^ f.fractionBits * (d * 2 ^ f.shift n d) := by ring
    _ ≤ (2 * 2 ^ f.fractionBits + 1) * (n * f.unitsInOne) := by linarith

/-- A quotient that is at least one has a nearest magnitude that is. -/
theorem unitsInOne_le_units_nearestRank {n d : Nat} (hd : 0 < d) (hn : d ≤ n)
    (hf : 2 ^ f.fractionBits ≤ f.unitsInOne) : f.unitsInOne ≤ f.units (f.nearestRank n d) := by
  have hU : 0 < f.unitsInOne := Nat.lt_of_lt_of_le (by positivity) hf
  have hq : f.unitsInOne ≤ n * f.unitsInOne / d := by
    rw [Nat.le_div_iff_mul_le hd, Nat.mul_comm]
    exact Nat.mul_le_mul_right _ hn
  have hne : n * f.unitsInOne / d ≠ 0 := by omega
  -- One is a power of two in units, so the leading digit of the quotient reaches it.
  have hlog : f.unitsInOne ≤ 2 ^ Nat.log2 (n * f.unitsInOne / d) := by
    rw [unitsInOne_eq] at hq hne ⊢
    exact Nat.pow_le_pow_right (by decide) ((Nat.le_log2 hne).2 hq)
  have hsignificand : 2 ^ f.fractionBits ≤ f.significand n d :=
    (f.le_significand (hf.trans hq)).trans (le_roundHalfEven _ _)
  rw [← pow_mul_pow_shift (hf.trans hq)] at hlog
  calc f.unitsInOne ≤ 2 ^ f.fractionBits * 2 ^ f.shift n d := hlog
    _ ≤ f.significand n d * 2 ^ f.shift n d := Nat.mul_le_mul_right _ hsignificand
    _ = f.units (f.nearestRank n d) := (f.units_nearestRank n d).symm

end BinaryFormat

end ChatWire
