import ChatWire.Decimal.Shortest
import ChatWire.Proofs.Decimal.Range

/-!
# How large shortest decimals are

The shortest decimal of a number lies in its rounding interval, or is the number cut off, so it is
no greater than the upper end of the interval (`Decimal.shortest_le`).
-/

namespace ChatWire.Decimal

open BinaryFormat (double halfStep)

/-- The decimal is at most the upper end of the interval. -/
def IsBelow (d : Decimal) (i : Interval) : Prop :=
  d.coefficient * 10 ^ d.exponent.toNat * i.denominator ≤ i.upper * 10 ^ (-d.exponent).toNat

namespace Interval

variable {i : Interval}

theorem bounds_of_contains {n : Nat} (h : i.contains n) :
    i.lower ≤ n * i.denominator ∧ n * i.denominator ≤ i.upper := by
  unfold contains at h
  split at h
  · simpa using h
  · obtain ⟨hlower, hupper⟩ : i.lower < n * i.denominator ∧ n * i.denominator < i.upper := by
      simpa using h
    exact ⟨Nat.le_of_lt hlower, Nat.le_of_lt hupper⟩

theorem pos_of_contains {n : Nat} (hlower : 0 < i.lower) (h : i.contains n) : 0 < n := by
  rcases Nat.eq_zero_or_pos n with rfl | hn
  · have hle := (bounds_of_contains h).1
    omega
  · exact hn

/-- A neighbour lies in the interval. -/
theorem contains_of_neighbour? {tie : Tie} {n : Nat} (h : i.neighbour? tie = some n) :
    i.contains n := by
  simp only [neighbour?] at h
  cases hbelow : i.contains (i.value / i.denominator) <;>
    cases habove : i.contains (i.value / i.denominator + 1) <;> simp only [hbelow, habove] at h
  · cases h
  · rwa [← Option.some.inj h]
  · rwa [← Option.some.inj h]
  · have hn : n = i.value / i.denominator ∨ n = i.value / i.denominator + 1 := by
      split at h
      · exact .inl (Option.some.inj h).symm
      · split at h
        · exact .inr (Option.some.inj h).symm
        · cases tie with
          | up => exact .inr (Option.some.inj h).symm
          | toEven =>
            have hsome := Option.some.inj h
            split at hsome
            · exact .inl hsome.symm
            · exact .inr hsome.symm
    rcases hn with rfl | rfl
    · exact hbelow
    · exact habove

/-- What is below the interval that is measured in a power of ten is below it with this power. -/
theorem isBelow_of_measure {n : Nat} {exponent : Int}
    (h : n * (i.measure exponent).denominator ≤ (i.measure exponent).upper) :
    IsBelow ⟨n, exponent⟩ i := by
  cases exponent with
  | ofNat k =>
    have hneg : (-(k : Int)).toNat = 0 := by omega
    have hle : n * (i.denominator * 10 ^ k) ≤ i.upper := h
    simp only [IsBelow, Int.ofNat_eq_natCast, hneg, Int.toNat_natCast, Nat.pow_zero, Nat.mul_one]
    calc n * 10 ^ k * i.denominator = n * (i.denominator * 10 ^ k) := by ring
      _ ≤ i.upper := hle
  | negSucc k =>
    have hneg : (-(Int.negSucc k)).toNat = k + 1 := by omega
    simpa [IsBelow, hneg, measure] using h

/-- A number of the interval is at most its upper end in every measure. -/
theorem measure_value_le (h : i.value ≤ i.upper) (exponent : Int) :
    (i.measure exponent).value ≤ (i.measure exponent).upper := by
  cases exponent with
  | ofNat k => exact h
  | negSucc k => exact Nat.mul_le_mul_right _ h

theorem coarsest_isBelow (h : i.value ≤ i.upper) (tie : Tie) (grids : Nat) (exponent : Int) :
    (i.coarsest tie grids exponent).IsBelow i := by
  induction grids generalizing exponent with
  | zero =>
    refine isBelow_of_measure ?_
    exact (Nat.div_mul_le_self _ _).trans (measure_value_le h exponent)
  | succ grids ih =>
    unfold coarsest
    split
    case h_1 n hn => exact isBelow_of_measure (bounds_of_contains (contains_of_neighbour? hn)).2
    case h_2 => exact ih _

theorem le_coarsest_exponent (tie : Tie) (grids : Nat) (exponent : Int) :
    exponent - grids ≤ (i.coarsest tie grids exponent).exponent := by
  induction grids generalizing exponent with
  | zero => simp [coarsest]
  | succ grids ih =>
    unfold coarsest
    split
    · simp only
      omega
    · have := ih (exponent - 1)
      push_cast
      omega

/-- A positive number is not cut off to zero if the last grid is fine enough. -/
theorem coarsest_coefficient_pos (hlower : 0 < i.lower) (tie : Tie) (grids : Nat) (exponent : Int)
    (hlast : (i.coarsest tie grids exponent).exponent = exponent - grids →
      (i.measure (exponent - grids)).denominator ≤ (i.measure (exponent - grids)).value)
    (hdenominator : 0 < i.denominator) : 0 < (i.coarsest tie grids exponent).coefficient := by
  have hmeasured (e : Int) : 0 < (i.measure e).lower ∧ 0 < (i.measure e).denominator := by
    cases e with
    | ofNat k => exact ⟨hlower, Nat.mul_pos hdenominator (Nat.pow_pos (by decide))⟩
    | negSucc k => exact ⟨Nat.mul_pos hlower (Nat.pow_pos (by decide)), hdenominator⟩
  induction grids generalizing exponent with
  | zero =>
    have hle := hlast (by simp [coarsest])
    rw [Int.natCast_zero, Int.sub_zero] at hle
    exact Nat.div_pos hle (hmeasured exponent).2
  | succ grids ih =>
    unfold coarsest at hlast ⊢
    split at hlast
    case h_1 n hn =>
      exact pos_of_contains (hmeasured exponent).1 (contains_of_neighbour? hn)
    case h_2 =>
      have hexponent : exponent - 1 - (grids : Int) = exponent - (grids + 1 : Nat) := by omega
      exact ih (exponent - 1) (by rwa [hexponent])

end Interval

/-- A shortest decimal is at most the upper end of the rounding interval. -/
theorem shortest_isBelow (f : BinaryFormat) (tie : Tie) (rank : Nat) :
    (shortest f tie rank).IsBelow (Interval.ofRank f rank) := by
  refine Interval.coarsest_isBelow ?_ tie 24 _
  have hmono : f.units rank ≤ f.units (rank + 1) := f.units_mono (Nat.le_succ rank)
  simp only [Interval.ofRank]
  omega

/-- The shortest decimals of all magnitudes but the two greatest are smaller than the greatest
number by two units in its last place. -/
theorem shortest_le (tie : Tie) {rank : Nat} (h : rank + 3 ≤ double.rankBound) :
    (shortest double tie rank).coefficient * 10 ^ (shortest double tie rank).exponent.toNat
      ≤ (2 ^ 54 - 5) * halfStep * 10 ^ (-(shortest double tie rank).exponent).toNat := by
  have hbelow := shortest_isBelow double tie rank
  have hupper : (Interval.ofRank double rank).upper
      ≤ (2 ^ 54 - 5) * halfStep * (Interval.ofRank double rank).denominator := by
    have hrank : double.units rank ≤ double.units (double.rankBound - 3) :=
      double.units_mono (by omega)
    have hnext : double.units (rank + 1) ≤ double.units (double.rankBound - 2) :=
      double.units_mono (by omega)
    rw [BinaryFormat.units_rankBound_sub (by decide)] at hrank hnext
    simp only [Interval.ofRank]
    calc double.units rank + double.units (rank + 1)
        ≤ (2 ^ 54 - 2 * 3) * (halfStep * double.unitsInOne)
          + (2 ^ 54 - 2 * 2) * (halfStep * double.unitsInOne) := Nat.add_le_add hrank hnext
      _ = (2 ^ 54 - 5) * halfStep * (2 * double.unitsInOne) := by norm_num; ring
  generalize shortest double tie rank = d at hbelow ⊢
  rw [IsBelow] at hbelow
  have hpos : 0 < (Interval.ofRank double rank).denominator :=
    Nat.mul_pos (by decide) BinaryFormat.unitsInOne_pos
  refine Nat.le_of_mul_le_mul_right ?_ hpos
  calc d.coefficient * 10 ^ d.exponent.toNat * (Interval.ofRank double rank).denominator
      ≤ (Interval.ofRank double rank).upper * 10 ^ (-d.exponent).toNat := hbelow
    _ ≤ (2 ^ 54 - 5) * halfStep * (Interval.ofRank double rank).denominator
          * 10 ^ (-d.exponent).toNat := Nat.mul_le_mul_right _ hupper
    _ = (2 ^ 54 - 5) * halfStep * 10 ^ (-d.exponent).toNat
          * (Interval.ofRank double rank).denominator := by ring

/-- The shortest decimal of a 64-bit number other than zero counts no power below this. -/
theorem le_shortest_exponent (tie : Tie) {rank : Nat} (h : 0 < rank) :
    -350 ≤ (shortest .double tie rank).exponent := by
  have hle := (Interval.ofRank .double rank).le_coarsest_exponent tie 24
    (Interval.ofRank .double rank).magnitude
  have hmagnitude : -326 ≤ (Interval.ofRank .double rank).magnitude := by
    have hone : double.units 1 ≤ double.units rank := double.units_mono h
    rw [show double.units 1 = 1 by decide +kernel] at hone
    have hvalue : 1 ≤ Nat.log2 (2 * double.units rank) := (Nat.le_log2 (by omega)).2 (by omega)
    have hdenominator : Nat.log2 (2 * double.unitsInOne) = 1075 := by decide +kernel
    simp only [Interval.magnitude, Interval.ofRank, hdenominator]
    omega
  rw [shortest]
  omega

/-- A shortest decimal that counts a power of ten from zero to sixteen is not zero. -/
theorem shortest_coefficient_pos (f : BinaryFormat) (tie : Tie) {rank : Nat} (h : 0 < rank)
    (hlow : 0 ≤ (shortest f tie rank).exponent) (hhigh : (shortest f tie rank).exponent ≤ 16) :
    0 < (shortest f tie rank).coefficient := by
  have hone : f.units 1 ≤ f.units rank := f.units_mono h
  have hunit : 0 < f.units 1 := by
    rw [BinaryFormat.units_eq]
    split
    · decide
    · positivity
  rw [shortest] at hlow hhigh ⊢
  refine Interval.coarsest_coefficient_pos (by simp only [Interval.ofRank]; omega) tie 24 _ ?_
    (Nat.mul_pos (by decide) (Nat.two_pow_pos _))
  intro hlast
  rw [hlast] at hlow hhigh
  generalize Interval.ofRank f rank = i at hlow hhigh ⊢
  -- More than sixteen places were tried, so the number has many digits before the point.
  obtain ⟨places, hplaces⟩ := Int.eq_ofNat_of_zero_le hlow
  rw [hplaces]
  have hbits : Nat.log2 i.denominator + 1 + 54 ≤ Nat.log2 i.value := by
    rw [Interval.magnitude] at hlow
    omega
  have hvalue : i.value ≠ 0 := by
    intro hzero
    rw [hzero, Nat.log2_zero] at hbits
    omega
  show i.denominator * 10 ^ places ≤ i.value
  have hpower : 10 ^ places ≤ 2 ^ 54 :=
    (Nat.pow_le_pow_right (by decide) (show places ≤ 16 by omega)).trans (by decide)
  calc i.denominator * 10 ^ places ≤ 2 ^ (Nat.log2 i.denominator + 1) * 2 ^ 54 :=
        Nat.mul_le_mul (Nat.le_of_lt Nat.lt_log2_self) hpower
    _ = 2 ^ (Nat.log2 i.denominator + 1 + 54) := (Nat.pow_add _ _ _).symm
    _ ≤ 2 ^ Nat.log2 i.value := Nat.pow_le_pow_right (by decide) hbits
    _ ≤ i.value := Nat.log2_self_le hvalue

end ChatWire.Decimal
