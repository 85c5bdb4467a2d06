import ChatWire.Decimal.Numeral
import ChatWire.Proofs.Decimal.Rounding

/-!
# Numerals within the range

`Numeral.double?` scales the kept digits by a rounded power of ten, so it may call a numeral too
large whose nearest number is finite. It does not if the numeral is smaller than the greatest number
by two units in the last place (`Numeral.double?_isSome`).
-/

namespace ChatWire

open BinaryFormat (double)

namespace BinaryFormat

/-- Half the distance between the greatest 64-bit numbers. -/
def halfStep : Nat := 2 ^ (double.finiteExponents / 2 - double.fractionBits - 1)

theorem halfStep_pos : 0 < halfStep := Nat.two_pow_pos _

theorem pow_finiteExponents :
    2 ^ (double.finiteExponents - 2) = 2 * halfStep * double.unitsInOne := by
  have hexponent : double.finiteExponents - 2
      = 1 + (double.finiteExponents / 2 - double.fractionBits - 1)
        + ((double.finiteExponents - 1) / 2 - 1 + double.fractionBits) := by decide
  rw [halfStep, unitsInOne_eq, hexponent, Nat.pow_add, Nat.pow_add, Nat.pow_one]

-- Nothing below should try to compute it.
attribute [irreducible] halfStep

/-- The greatest magnitudes are half steps apart. -/
theorem units_rankBound_sub {j : Nat} (h : j ≤ 2 ^ double.fractionBits) :
    double.units (double.rankBound - j) = (2 ^ 54 - 2 * j) * (halfStep * double.unitsInOne) := by
  have hbits : double.fractionBits = 52 := rfl
  have hbound : double.rankBound
      = 2045 * 2 ^ double.fractionBits + 2 * 2 ^ double.fractionBits := by decide
  have hrank : double.rankBound - j
      = 2045 * 2 ^ double.fractionBits + (2 * 2 ^ double.fractionBits - j) := by omega
  have hexponent : double.finiteExponents - 2 = 2045 := by decide
  rw [hrank, double.units_add _ (by omega) (by omega), ← hexponent, pow_finiteExponents, hbits]
  have htwice : 2 ^ 54 - 2 * j = (2 * 2 ^ 52 - j) * 2 := by omega
  rw [htwice]
  ring

theorem unitsInOne_pos : 0 < double.unitsInOne := Nat.two_pow_pos _

theorem pow_fractionBits_le : 2 ^ double.fractionBits ≤ double.unitsInOne :=
  Nat.pow_le_pow_right (by decide) (by decide)

end BinaryFormat

open BinaryFormat (halfStep)

/-! ## Finite results -/

/-- A quotient below the middle between the greatest number and the next power of two is rounded to
a finite number. -/
theorem BinaryNumber.nearest?_isSome {negative : Bool} {n d : Nat} (hd : 0 < d)
    (h : n < (2 ^ 54 - 1) * halfStep * d) : (nearest? negative n d : Option Double).isSome := by
  have hlt : double.nearestRank n d < double.rankBound := by
    refine BinaryFormat.nearestRank_lt hd (by decide) ?_
    have hbits : 4 * 2 ^ double.fractionBits = 2 ^ 54 := by decide
    rw [BinaryFormat.pow_finiteExponents, hbits]
    calc 2 * (n * double.unitsInOne) = n * (2 * double.unitsInOne) := by ring
      _ < (2 ^ 54 - 1) * halfStep * d * (2 * double.unitsInOne) :=
        Nat.mul_lt_mul_of_pos_right h (by have := BinaryFormat.unitsInOne_pos; omega)
      _ = (2 ^ 54 - 1) * (2 * halfStep * double.unitsInOne) * d := by ring
  rw [nearest?, dif_pos hlt]
  rfl

/-- The greatest number in units. -/
theorem BinaryNumber.units_lt (x : Double) :
    x.units < (2 ^ 54 - 1) * halfStep * double.unitsInOne := by
  have hrank : x.rank ≤ double.rankBound - 1 := Nat.le_sub_one_of_lt x.rank_lt
  have hpos : 0 < halfStep * double.unitsInOne :=
    Nat.mul_pos BinaryFormat.halfStep_pos BinaryFormat.unitsInOne_pos
  calc x.units ≤ double.units (double.rankBound - 1) := BinaryFormat.units_mono hrank
    _ = (2 ^ 54 - 2 * 1) * (halfStep * double.unitsInOne) :=
      BinaryFormat.units_rankBound_sub (Nat.one_le_two_pow)
    _ < (2 ^ 54 - 1) * (halfStep * double.unitsInOne) :=
      Nat.mul_lt_mul_of_pos_right (by decide) hpos
    _ = (2 ^ 54 - 1) * halfStep * double.unitsInOne := (Nat.mul_assoc _ _ _).symm

/-- Dividing by a number that is at least one stays within the range. -/
theorem BinaryNumber.div?_isSome (x : Double) {p : Double} (hp : double.unitsInOne ≤ p.units) :
    (x.div? p).isSome := by
  refine nearest?_isSome (Nat.lt_of_lt_of_le BinaryFormat.unitsInOne_pos hp) ?_
  exact Nat.lt_of_lt_of_le x.units_lt (Nat.mul_le_mul_left _ hp)

namespace Numeral

/-- A natural number below the middle between the greatest number and the next power of two has a
nearest number. -/
theorem exists_ofNat? {n : Nat} (h : n < (2 ^ 54 - 1) * halfStep) :
    ∃ x, ofNat? n = some x ∧ x.units = double.units (double.nearestRank n 1) := by
  have hsome : (ofNat? n).isSome := BinaryNumber.nearest?_isSome (by decide) (by rwa [Nat.mul_one])
  obtain ⟨x, hx⟩ := Option.isSome_iff_exists.1 hsome
  refine ⟨x, hx, ?_⟩
  rw [ofNat?, BinaryNumber.nearest?] at hx
  split at hx
  · rw [← Option.some.inj hx]
    rfl
  · cases hx

/-- A power of ten within the range is rounded to a number that is at least one, and too great by at
most half a unit in its last place. -/
theorem exists_ofNat?_of_pos {n : Nat} (hpos : 0 < n) (h : n < (2 ^ 54 - 1) * halfStep) :
    ∃ x, ofNat? n = some x ∧ double.unitsInOne ≤ x.units ∧
      2 ^ 53 * x.units ≤ (2 ^ 53 + 1) * (n * double.unitsInOne) := by
  obtain ⟨x, hx, hunits⟩ := exists_ofNat? h
  refine ⟨x, hx, ?_, ?_⟩
  · rw [hunits]
    exact BinaryFormat.unitsInOne_le_units_nearestRank (by decide) hpos
      BinaryFormat.pow_fractionBits_le
  · have hnormal : 2 ^ double.fractionBits ≤ n * double.unitsInOne / 1 := by
      rw [Nat.div_one]
      exact BinaryFormat.pow_fractionBits_le.trans (Nat.le_mul_of_pos_left _ hpos)
    have hle := BinaryFormat.units_nearestRank_le (by decide) hnormal
    have hbits : 2 * 2 ^ double.fractionBits = 2 ^ 53 := by decide
    rw [hbits, Nat.mul_one, ← hunits] at hle
    exact hle

theorem pow_maxPower_lt {k : Nat} (h : k ≤ maxPower) : 10 ^ k < (2 ^ 54 - 1) * halfStep := by
  have hmax : 10 ^ maxPower < (2 ^ 54 - 1) * halfStep := by decide +kernel
  exact Nat.lt_of_le_of_lt (Nat.pow_le_pow_right (by decide) h) hmax

/-- Scaling by a power within the range is one division or multiplication. -/
theorem scale?_of_le (steps : Nat) (x : Double) {power : Int} (h : power.natAbs ≤ maxPower) :
    scale? steps x power = (ofNat? (10 ^ power.natAbs)).bind fun p =>
      if power < 0 then x.div? p else x.mul? p := by
  rw [scale?.eq_def, if_pos h]
  rfl

/-- A quotient by a power of ten within the range is finite. -/
theorem exists_div? (x : Double) {k : Nat} (h : k ≤ maxPower) :
    ∃ p y, ofNat? (10 ^ k) = some p ∧ x.div? p = some y := by
  obtain ⟨p, hp, hone, -⟩ := exists_ofNat?_of_pos (Nat.pow_pos (by decide)) (pow_maxPower_lt h)
  obtain ⟨y, hy⟩ := Option.isSome_iff_exists.1 (x.div?_isSome hone)
  exact ⟨p, y, hp, hy⟩

/-- Scaling down stays within the range, as long as the steps suffice. -/
theorem scale?_isSome_of_neg (steps : Nat) (x : Double) {power : Int} (hneg : power < 0)
    (hlow : -(maxPower * (steps + 1) : Nat) ≤ power) : (scale? steps x power).isSome := by
  induction steps generalizing x power with
  | zero =>
    have hrange : power.natAbs ≤ maxPower := by omega
    obtain ⟨p, y, hp, hy⟩ := exists_div? x hrange
    rw [scale?_of_le 0 x hrange, hp, Option.bind_some, if_pos hneg, hy]
    rfl
  | succ steps ih =>
    by_cases hrange : power.natAbs ≤ maxPower
    · obtain ⟨p, y, hp, hy⟩ := exists_div? x hrange
      rw [scale?_of_le _ x hrange, hp, Option.bind_some, if_pos hneg, hy]
      rfl
    · rw [scale?, if_neg hrange]
      split
      · rfl
      · obtain ⟨p, y, hp, hy⟩ := exists_div? x (Nat.le_refl maxPower)
        have hp : ofNat? (Nat.pow 10 maxPower) = some p := hp
        rw [if_neg (by omega), hp, Option.bind_eq_bind, Option.bind_some, hy, Option.bind_some]
        have hsteps : maxPower * (steps + 1 + 1) = maxPower * (steps + 1) + maxPower :=
          Nat.mul_succ _ _
        exact ih y (by omega) (by omega)

/-- Zero stays zero. -/
theorem mul?_isSome_of_units_eq_zero {x : Double} (hx : x.units = 0) (p : Double) :
    (x.mul? p).isSome := by
  have hpos := Nat.mul_pos BinaryFormat.unitsInOne_pos BinaryFormat.unitsInOne_pos
  refine BinaryNumber.nearest?_isSome hpos ?_
  rw [hx, Nat.zero_mul]
  exact Nat.mul_pos (Nat.mul_pos (by decide) BinaryFormat.halfStep_pos) hpos

/-- The product of two rounded numbers is finite if the product of the numbers is smaller than the
greatest number by two units in the last place. -/
theorem mul?_isSome {m n : Nat} {x y : Double}
    (hx : 2 ^ 53 * x.units ≤ (2 ^ 53 + 1) * (m * double.unitsInOne))
    (hy : 2 ^ 53 * y.units ≤ (2 ^ 53 + 1) * (n * double.unitsInOne))
    (h : m * n ≤ (2 ^ 54 - 5) * halfStep) : (x.mul? y).isSome := by
  have hone := BinaryFormat.unitsInOne_pos
  have hstep := BinaryFormat.halfStep_pos
  refine BinaryNumber.nearest?_isSome (Nat.mul_pos hone hone) ?_
  have hproduct : 2 ^ 106 * (x.units * y.units)
      ≤ (2 ^ 53 + 1) ^ 2 * ((2 ^ 54 - 5) * halfStep) * (double.unitsInOne * double.unitsInOne) :=
    calc 2 ^ 106 * (x.units * y.units) = 2 ^ 53 * x.units * (2 ^ 53 * y.units) := by ring
      _ ≤ (2 ^ 53 + 1) * (m * double.unitsInOne) * ((2 ^ 53 + 1) * (n * double.unitsInOne)) :=
        Nat.mul_le_mul hx hy
      _ = (2 ^ 53 + 1) ^ 2 * (m * n) * (double.unitsInOne * double.unitsInOne) := by ring
      _ ≤ _ := Nat.mul_le_mul_right _ (Nat.mul_le_mul_left _ h)
  have hmargin : (2 ^ 53 + 1) ^ 2 * (2 ^ 54 - 5) < 2 ^ 106 * (2 ^ 54 - 1) := by decide
  refine Nat.lt_of_mul_lt_mul_left (a := 2 ^ 106) (Nat.lt_of_le_of_lt hproduct ?_)
  calc (2 ^ 53 + 1) ^ 2 * ((2 ^ 54 - 5) * halfStep) * (double.unitsInOne * double.unitsInOne)
      = (2 ^ 53 + 1) ^ 2 * (2 ^ 54 - 5) * (halfStep * (double.unitsInOne * double.unitsInOne)) := by
        ring
    _ < 2 ^ 106 * (2 ^ 54 - 1) * (halfStep * (double.unitsInOne * double.unitsInOne)) :=
      Nat.mul_lt_mul_of_pos_right hmargin (Nat.mul_pos hstep (Nat.mul_pos hone hone))
    _ = 2 ^ 106 * ((2 ^ 54 - 1) * halfStep * (double.unitsInOne * double.unitsInOne)) := by ring

/-! ## Digits -/

/-- The number that digits spell behind those of another one. -/
def digitsValue (n : Nat) (digits : List Nat) : Nat := digits.foldl (fun m d => m * 10 + d) n

theorem digitsValue_append (n : Nat) (first second : List Nat) :
    digitsValue n (first ++ second) = digitsValue (digitsValue n first) second := by
  rw [digitsValue, List.foldl_append]
  rfl

theorem mul_pow_le_digitsValue (n : Nat) (digits : List Nat) :
    n * 10 ^ digits.length ≤ digitsValue n digits := by
  induction digits generalizing n with
  | nil => simp [digitsValue]
  | cons d rest ih =>
    calc n * 10 ^ (rest.length + 1) = n * 10 * 10 ^ rest.length := by rw [Nat.pow_succ']; ring
      _ ≤ (n * 10 + d) * 10 ^ rest.length := Nat.mul_le_mul_right _ (Nat.le_add_right _ _)
      _ ≤ digitsValue n (d :: rest) := ih _

/-- Of digits that fit all are kept. -/
theorem takeDigits_of_lt {n : Nat} {digits : List Nat} (h : digitsValue n digits < UInt64.size) :
    takeDigits n digits = (digitsValue n digits, []) := by
  induction digits generalizing n with
  | nil => rfl
  | cons d rest ih =>
    have hfits : n * 10 + d < UInt64.size := by
      have hle := mul_pow_le_digitsValue (n * 10 + d) rest
      have hpow : 1 ≤ 10 ^ rest.length := Nat.one_le_pow _ _ (by decide)
      have hmul : n * 10 + d ≤ (n * 10 + d) * 10 ^ rest.length := Nat.le_mul_of_pos_right _ hpow
      have hvalue : digitsValue (n * 10 + d) rest < UInt64.size := h
      omega
    rw [takeDigits, if_pos hfits]
    exact ih h

/-- What is kept fits, and with zeros for what is left over it is at most the whole number. -/
theorem takeDigits_spec {n kept : Nat} {digits ignored : List Nat} (hn : n < UInt64.size)
    (h : takeDigits n digits = (kept, ignored)) :
    kept < UInt64.size ∧ ignored.length ≤ digits.length ∧
      kept * 10 ^ ignored.length ≤ digitsValue n digits := by
  induction digits generalizing n with
  | nil =>
    obtain ⟨rfl, rfl⟩ : n = kept ∧ [] = ignored := by simpa [takeDigits] using h
    simpa [digitsValue] using hn
  | cons d rest ih =>
    rw [takeDigits] at h
    split at h
    case isTrue hfits =>
      obtain ⟨hkept, hlength, hvalue⟩ := ih hfits h
      exact ⟨hkept, Nat.le_succ_of_le hlength, hvalue⟩
    case isFalse =>
      obtain ⟨rfl, rfl⟩ : n = kept ∧ d :: rest = ignored := by simpa using h
      exact ⟨hn, Nat.le_refl _, mul_pow_le_digitsValue n (d :: rest)⟩

/-! ## Numerals -/

/-- The digits of a numeral without its point. -/
def allDigits (n : Numeral) : List Nat := n.whole ++ n.fraction.getD []

/-- The power of ten that the last digit of a numeral counts. -/
def lastPower (n : Numeral) : Int := n.exponent.getD 0 - (n.fraction.getD []).length

/-- Zero can be scaled by any power. -/
theorem scale?_zero_isSome (steps power : Nat) {x : Double} (hx : ofNat? 0 = some x) :
    (scale? steps x power).isSome := by
  have hzero : ofNat? 0 = some ⟨false, 0, by decide⟩ := by decide +kernel
  obtain rfl := Option.some.inj (hx.symm.trans hzero)
  by_cases hrange : (power : Int).natAbs ≤ maxPower
  · obtain ⟨p, -, hp, -⟩ := exists_div? ⟨false, 0, by decide⟩ hrange
    rw [scale?_of_le steps _ hrange, hp, Option.bind_some, if_neg (by omega)]
    exact mul?_isSome_of_units_eq_zero rfl p
  · rw [scale?.eq_def, if_neg hrange]
    rfl

/-- Scaling up stays within the range as long as the product is smaller than the greatest number by
two units in the last place. -/
theorem scale?_isSome_of_nonneg {kept power : Nat}
    (h : kept * 10 ^ power ≤ (2 ^ 54 - 5) * halfStep) {x : Double} (hx : ofNat? kept = some x)
    (steps : Nat) : (scale? steps x power).isSome := by
  rcases Nat.eq_zero_or_pos kept with rfl | hpos
  · exact scale?_zero_isSome steps power hx
  · have hpower : power ≤ maxPower := by
      by_contra hgreat
      have hless : (2 ^ 54 - 5) * halfStep < 10 ^ (maxPower + 1) := by decide +kernel
      have hle : 10 ^ (maxPower + 1) ≤ 10 ^ power :=
        Nat.pow_le_pow_right (by decide) (Nat.lt_of_not_le hgreat)
      have hmul : 10 ^ power ≤ kept * 10 ^ power := Nat.le_mul_of_pos_left _ hpos
      omega
    have hfits : kept < (2 ^ 54 - 1) * halfStep := by
      have hmul : kept ≤ kept * 10 ^ power := Nat.le_mul_of_pos_right _ (Nat.pow_pos (by decide))
      have hless : (2 ^ 54 - 5) * halfStep < (2 ^ 54 - 1) * halfStep :=
        Nat.mul_lt_mul_of_pos_right (by decide) BinaryFormat.halfStep_pos
      omega
    obtain ⟨x', hx', -, hxunits⟩ := exists_ofNat?_of_pos hpos hfits
    obtain rfl : x' = x := Option.some.inj (hx'.symm.trans hx)
    obtain ⟨p, hp, -, hpunits⟩ :=
      exists_ofNat?_of_pos (Nat.pow_pos (by decide)) (pow_maxPower_lt hpower)
    have hrange : (power : Int).natAbs ≤ maxPower := by omega
    rw [scale?_of_le steps _ hrange, Int.natAbs_natCast, hp, Option.bind_some, if_neg (by omega)]
    exact mul?_isSome hxunits hpunits h

/-- With zeros for the ignored digits the kept ones are no more than what is written. -/
theorem kept_mul_pow_le {kept ignored power value bound : Nat} {last : Int}
    (hpower : last + ignored = power) (hkept : kept * 10 ^ ignored ≤ value)
    (hvalue : value * 10 ^ last.toNat ≤ bound * 10 ^ (-last).toNat) :
    kept * 10 ^ power ≤ bound := by
  rcases lt_or_ge last 0 with hneg | hnonneg
  · obtain ⟨places, hplaces⟩ :=
      Int.eq_ofNat_of_zero_le (Int.neg_nonneg_of_nonpos (Int.le_of_lt hneg))
    have hlast : last.toNat = 0 := by omega
    obtain rfl : ignored = power + places := by omega
    rw [hlast, hplaces, Int.toNat_natCast, Nat.pow_zero, Nat.mul_one] at hvalue
    refine Nat.le_of_mul_le_mul_right ?_ (Nat.pow_pos (n := places) (show 0 < 10 by decide))
    rw [Nat.mul_assoc, ← Nat.pow_add]
    exact hkept.trans hvalue
  · obtain ⟨zeros, rfl⟩ := Int.eq_ofNat_of_zero_le hnonneg
    have hlast : (-(zeros : Int)).toNat = 0 := by omega
    obtain rfl : power = ignored + zeros := by omega
    rw [hlast, Int.toNat_natCast, Nat.pow_zero, Nat.mul_one] at hvalue
    rw [Nat.pow_add, ← Nat.mul_assoc]
    exact (Nat.mul_le_mul_right _ hkept).trans hvalue

/-- A numeral is read as a number if its whole part fits in 64 bits, it is smaller than the greatest
number by two units in the last place, and its last digit counts a power that three steps reach. -/
theorem double?_isSome {n : Numeral} (hwhole : digitsValue 0 n.whole < UInt64.size)
    (hlow : -(maxPower * 4 : Nat) ≤ n.lastPower)
    (hhigh : digitsValue 0 n.allDigits * 10 ^ n.lastPower.toNat
      ≤ (2 ^ 54 - 5) * halfStep * 10 ^ (-n.lastPower).toNat) : n.double?.isSome := by
  obtain ⟨kept, ignored, htake⟩ : ∃ kept ignored,
      takeDigits (digitsValue 0 n.whole) (n.fraction.getD []) = (kept, ignored) := ⟨_, _, rfl⟩
  obtain ⟨hkept, hlength, hvalue⟩ := takeDigits_spec hwhole htake
  rw [← digitsValue_append] at hvalue
  have hfits : kept < (2 ^ 54 - 1) * halfStep := Nat.lt_trans hkept (by decide +kernel)
  obtain ⟨x, hx, -⟩ := exists_ofNat? hfits
  have hpower : ((0 : Nat) : Int) - ((n.fraction.getD []).length - ignored.length : Nat)
      + n.exponent.getD 0 = n.lastPower + ignored.length := by
    rw [lastPower]
    omega
  have hscale : (scale? 3 x (n.lastPower + ignored.length)).isSome := by
    rcases lt_or_ge (n.lastPower + ignored.length) 0 with hneg | hnonneg
    · exact scale?_isSome_of_neg 3 x hneg (by omega)
    · obtain ⟨power, hpow⟩ := Int.eq_ofNat_of_zero_le hnonneg
      rw [hpow]
      exact scale?_isSome_of_nonneg (kept_mul_pow_le hpow hvalue hhigh) hx 3
  obtain ⟨y, hy⟩ := Option.isSome_iff_exists.1 hscale
  simp only [double?, takeDigits_of_lt hwhole, htake, List.length_nil, hpower, hx,
    Option.bind_eq_bind, Option.bind_some, hy]
  rfl

end Numeral

end ChatWire
