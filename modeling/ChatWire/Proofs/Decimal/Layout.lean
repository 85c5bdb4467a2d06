import ChatWire.Proofs.Decimal.Shortest
import ChatWire.Json.Printer

/-!
# Decimals as numerals

The text of a binary number is that of a numeral, behind its sign (`BinaryNumber.text_eq`), and the
quick rule reads this numeral as a finite number again (`BinaryNumber.double?_numeral_isSome`).
-/

namespace ChatWire

open BinaryFormat (double halfStep)

namespace Numeral

/-! ## Digits of a number -/

/-- The decimal digits of a number, the leading one first. -/
def digitsOf (n : Nat) : List Nat := (Nat.toDigits 10 n).map fun c => c.toNat - 48

/-- The text of digits. -/
def digitText (digits : List Nat) : List Char := digits.map Nat.digitChar

theorem digitsOf_eq (n : Nat) :
    digitsOf n = if n < 10 then [n] else digitsOf (n / 10) ++ [n % 10] := by
  rw [digitsOf, Nat.toDigits_eq_if (by decide)]
  split
  case isTrue h => simp [Nat.toNat_digitChar_sub_48_of_lt_ten h]
  case isFalse h =>
    simp [digitsOf, Nat.toNat_digitChar_sub_48_of_lt_ten (Nat.mod_lt n (show 10 > 0 by decide))]

theorem digitsOf_of_lt {n : Nat} (h : n < 10) : digitsOf n = [n] := by rw [digitsOf_eq, if_pos h]

theorem toDigits_eq (n : Nat) : Nat.toDigits 10 n = digitText (digitsOf n) := by
  induction n using Nat.strong_induction_on with
  | _ n ih =>
    rw [digitsOf_eq, Nat.toDigits_eq_if (by decide)]
    split
    · rfl
    · rw [ih (n / 10) (by omega), digitText, digitText, List.map_append]
      rfl

theorem lt_of_mem_digitsOf {n d : Nat} (h : d ∈ digitsOf n) : d < 10 := by
  induction n using Nat.strong_induction_on with
  | _ n ih =>
    rw [digitsOf_eq] at h
    split at h
    case isTrue hn =>
      obtain rfl := List.mem_singleton.1 h
      exact hn
    case isFalse hn =>
      rcases List.mem_append.1 h with hinit | hlast
      · exact ih (n / 10) (by omega) hinit
      · obtain rfl := List.mem_singleton.1 hlast
        exact Nat.mod_lt n (by decide)

theorem lt_of_mem_zeros {zeros d : Nat} (h : d ∈ List.replicate zeros 0) : d < 10 := by
  rw [(List.mem_replicate.1 h).2]
  decide

theorem digitsValue_digitsOf (n : Nat) : digitsValue 0 (digitsOf n) = n := by
  induction n using Nat.strong_induction_on with
  | _ n ih =>
    rw [digitsOf_eq]
    split
    · simp [digitsValue]
    · rw [digitsValue_append, ih (n / 10) (by omega)]
      simp only [digitsValue, List.foldl_cons, List.foldl_nil]
      omega

theorem digitsOf_ne_nil (n : Nat) : digitsOf n ≠ [] := by
  simp [digitsOf, Nat.toDigits_ne_nil]

theorem head?_digitsOf {n : Nat} (h : 0 < n) : (digitsOf n).head? ≠ some 0 := by
  induction n using Nat.strong_induction_on with
  | _ n ih =>
    rw [digitsOf_eq]
    split
    · simp only [List.head?_cons, ne_eq, Option.some.injEq]
      omega
    · have hinit := ih (n / 10) (by omega) (by omega)
      obtain ⟨first, rest, hcons⟩ := List.exists_cons_of_ne_nil (digitsOf_ne_nil (n / 10))
      rwa [hcons] at hinit ⊢

theorem digitsValue_lt {digits : List Nat} (h : ∀ d ∈ digits, d < 10) (n : Nat) :
    digitsValue n digits < (n + 1) * 10 ^ digits.length := by
  induction digits generalizing n with
  | nil => simp [digitsValue]
  | cons d rest ih =>
    have hd : d < 10 := h d List.mem_cons_self
    calc digitsValue (n * 10 + d) rest
        < (n * 10 + d + 1) * 10 ^ rest.length := ih (fun e he => h e (List.mem_cons_of_mem d he)) _
      _ ≤ ((n + 1) * 10) * 10 ^ rest.length := Nat.mul_le_mul_right _ (by omega)
      _ = (n + 1) * 10 ^ (rest.length + 1) := by ring

/-- Digits before the point fit in 64 bits if there are at most nineteen. -/
theorem digitsValue_lt_of_length {digits : List Nat} (h : ∀ d ∈ digits, d < 10)
    (hlength : digits.length ≤ 19) : digitsValue 0 digits < UInt64.size := by
  have hlt := digitsValue_lt h 0
  have hpow : 10 ^ digits.length ≤ 10 ^ 19 := Nat.pow_le_pow_right (by decide) hlength
  have hmax : 10 ^ 19 < UInt64.size := by decide
  omega

theorem digitsValue_zeros (n zeros : Nat) :
    digitsValue n (List.replicate zeros 0) = n * 10 ^ zeros := by
  induction zeros generalizing n with
  | zero => simp [digitsValue]
  | succ zeros ih =>
    rw [List.replicate_succ]
    show digitsValue (n * 10 + 0) (List.replicate zeros 0) = _
    rw [ih]
    ring

/-! ## The text of a numeral -/

/-- The text of a numeral behind its sign. -/
def chars (n : Numeral) : List Char :=
  digitText n.whole ++ (n.fraction.elim [] fun ds => '.' :: digitText ds)
    ++ (n.exponent.elim [] fun e => 'e' :: Decimal.exponentText e)

/-- The parts of the numeral are digits, not empty, and only a single zero leads the whole part. -/
structure IsPlain (n : Numeral) : Prop where
  whole_lt : ∀ d ∈ n.whole, d < 10
  whole_ne_nil : n.whole ≠ []
  leading : n.whole.head? = some 0 → n.whole = [0]
  fraction_lt : ∀ ds, n.fraction = some ds → ∀ d ∈ ds, d < 10
  fraction_ne_nil : n.fraction ≠ some []

end Numeral

open Numeral (digitsOf digitText digitsValue)

namespace Decimal

/-! ## Decimals as numerals -/

/-- The numeral of a decimal without exponent. -/
def positionalNumeral (d : Decimal) : Numeral :=
  let digits := digitsOf d.coefficient
  match d.exponent with
  | .ofNat n => ⟨false, digits ++ List.replicate n 0, some [0], none⟩
  | .negSucc n =>
    let places := n + 1
    if places < digits.length then
      ⟨false, digits.take (digits.length - places),
        some (digits.drop (digits.length - places)), none⟩
    else ⟨false, [0], some (List.replicate (places - digits.length) 0 ++ digits), none⟩

/-- The numeral of a decimal with one digit before the point. -/
def exponentialNumeral (d : Decimal) : Numeral :=
  let digits := digitsOf d.coefficient
  ⟨false, digits.take 1, if digits.tail.isEmpty then none else some digits.tail,
    some (d.exponent + digits.tail.length)⟩

/-- The numeral that a style chooses for a decimal. -/
def Style.numeral (style : Style) (d : Decimal) : Numeral :=
  if style.positional (d.exponent + (digitsOf d.coefficient).length - 1) then positionalNumeral d
  else exponentialNumeral d

theorem positionalText_eq (d : Decimal) : positionalText true d = (positionalNumeral d).chars := by
  obtain ⟨coefficient, exponent⟩ := d
  have hlength : (Nat.toDigits 10 coefficient).length = (digitsOf coefficient).length := by
    rw [Numeral.toDigits_eq, digitText, List.length_map]
  cases exponent with
  | ofNat n =>
    have hzero : Nat.digitChar 0 = '0' := rfl
    simp [positionalText, positionalNumeral, Numeral.chars, Numeral.toDigits_eq, digitText, hzero]
  | negSucc n =>
    simp only [positionalText, positionalNumeral, hlength]
    split
    · simp [Numeral.chars, Numeral.toDigits_eq, digitText]
    · have hzero : Nat.digitChar 0 = '0' := rfl
      simp [Numeral.chars, Numeral.toDigits_eq, digitText, hzero]

theorem exponentialText_eq (d : Decimal) : exponentialText d = (exponentialNumeral d).chars := by
  obtain ⟨coefficient, exponent⟩ := d
  rw [exponentialText, exponentialNumeral, Numeral.toDigits_eq]
  obtain ⟨first, rest, hcons⟩ := List.exists_cons_of_ne_nil (Numeral.digitsOf_ne_nil coefficient)
  rw [hcons]
  cases rest with
  | nil => simp [Numeral.chars, digitText]
  | cons second rest => simp [Numeral.chars, digitText]

theorem Style.text_eq {style : Style} (hstyle : style.keepsFraction = true) (d : Decimal) :
    style.text d = (style.numeral d).chars := by
  have hlength : (Nat.toDigits 10 d.coefficient).length = (digitsOf d.coefficient).length := by
    rw [Numeral.toDigits_eq, digitText, List.length_map]
  rw [Style.text, Style.numeral, hlength, hstyle]
  split
  · exact positionalText_eq d
  · exact exponentialText_eq d

/-! ## Well-formed numerals -/

theorem digitsOf_eq_of_head? {n : Nat} (h : (digitsOf n).head? = some 0) : n = 0 := by
  by_contra hne
  exact Numeral.head?_digitsOf (Nat.pos_of_ne_zero hne) h

theorem positionalNumeral_isPlain {d : Decimal} (h : 0 < d.exponent → 0 < d.coefficient) :
    (positionalNumeral d).IsPlain := by
  obtain ⟨coefficient, exponent⟩ := d
  have hlt : ∀ e ∈ digitsOf coefficient, e < 10 := fun e he => Numeral.lt_of_mem_digitsOf he
  have hnil := Numeral.digitsOf_ne_nil coefficient
  cases exponent with
  | ofNat n =>
    refine ⟨?_, by simp [positionalNumeral, hnil], ?_, ?_, by simp [positionalNumeral]⟩
    · intro e he
      rcases List.mem_append.1 he with he | he
      · exact hlt e he
      · exact Numeral.lt_of_mem_zeros he
    · intro hhead
      obtain ⟨first, rest, hcons⟩ := List.exists_cons_of_ne_nil hnil
      have hzero : coefficient = 0 := by
        refine digitsOf_eq_of_head? ?_
        simpa [positionalNumeral, hcons] using hhead
      obtain rfl : n = 0 := by
        simp only [Int.ofNat_eq_natCast] at h
        omega
      simp [positionalNumeral, hzero, Numeral.digitsOf_of_lt]
    · intro ds hds e he
      obtain rfl : [0] = ds := by simpa [positionalNumeral] using hds
      obtain rfl := List.mem_singleton.1 he
      decide
  | negSucc n =>
    simp only [positionalNumeral]
    split
    case isTrue hplaces =>
      refine ⟨fun e he => hlt e (List.mem_of_mem_take he), ?_, ?_, ?_, ?_⟩
      · simp only [ne_eq, List.take_eq_nil_iff, not_or]
        exact ⟨by omega, hnil⟩
      · intro hhead
        have hzero : coefficient = 0 := by
          refine digitsOf_eq_of_head? ?_
          rwa [List.head?_take, if_neg (by omega)] at hhead
        rw [hzero, Numeral.digitsOf_of_lt (by decide), List.length_singleton] at hplaces
        omega
      · rintro ds hds e he
        obtain rfl := Option.some.inj hds
        exact hlt e (List.mem_of_mem_drop he)
      · simp only [ne_eq, Option.some.injEq, List.drop_eq_nil_iff]
        omega
    case isFalse =>
      refine ⟨by simp, by simp, by simp, ?_, by simp [hnil]⟩
      rintro ds hds e he
      obtain rfl := Option.some.inj hds
      rcases List.mem_append.1 he with he | he
      · exact Numeral.lt_of_mem_zeros he
      · exact hlt e he

theorem exponentialNumeral_isPlain (d : Decimal) : (exponentialNumeral d).IsPlain := by
  have hlt : ∀ e ∈ digitsOf d.coefficient, e < 10 := fun e he => Numeral.lt_of_mem_digitsOf he
  obtain ⟨first, rest, hcons⟩ :=
    List.exists_cons_of_ne_nil (Numeral.digitsOf_ne_nil d.coefficient)
  rw [hcons] at hlt
  refine ⟨?_, ?_, ?_, ?_, ?_⟩ <;> simp only [exponentialNumeral, hcons]
  · intro e he
    exact hlt e (List.mem_of_mem_take he)
  · simp
  · simp
  · intro ds hds e he
    split at hds
    · cases hds
    · obtain rfl := Option.some.inj hds
      exact hlt e (List.mem_cons_of_mem first he)
  · split
    case isTrue => simp
    case isFalse hrest => simpa using hrest

theorem Style.numeral_isPlain (style : Style) {d : Decimal}
    (h : style.positional (d.exponent + (digitsOf d.coefficient).length - 1) →
      0 < d.exponent → 0 < d.coefficient) : (style.numeral d).IsPlain := by
  rw [Style.numeral]
  split
  case isTrue hpositional => exact positionalNumeral_isPlain (h hpositional)
  case isFalse => exact exponentialNumeral_isPlain d

/-! ## Readable numerals -/

/-- A decimal is small enough for its numeral to be read, whatever its layout. -/
structure IsModerate (d : Decimal) : Prop where
  low : -350 ≤ d.exponent
  high : d.coefficient * 10 ^ d.exponent.toNat
    ≤ (2 ^ 54 - 5) * halfStep * 10 ^ (-d.exponent).toNat

theorem positionalNumeral_whole_length (d : Decimal) :
    (d.positionalNumeral.whole.length : Int)
      ≤ max (d.exponent + (digitsOf d.coefficient).length) 1 := by
  obtain ⟨coefficient, exponent⟩ := d
  cases exponent with
  | ofNat n =>
    simp only [positionalNumeral, List.length_append, List.length_replicate, Int.ofNat_eq_natCast]
    omega
  | negSucc n =>
    simp only [positionalNumeral]
    split
    · simp only [List.length_take]
      omega
    · simp

/-- Without exponent a decimal keeps its value; a whole one counts tenths then. -/
theorem positionalNumeral_value (d : Decimal) :
    digitsValue 0 d.positionalNumeral.allDigits = d.coefficient ∧
        d.positionalNumeral.lastPower = d.exponent ∨
      ∃ n : Nat, d.exponent = n ∧
        digitsValue 0 d.positionalNumeral.allDigits = d.coefficient * 10 ^ n * 10 ∧
        d.positionalNumeral.lastPower = -1 := by
  obtain ⟨coefficient, exponent⟩ := d
  have hvalue := Numeral.digitsValue_digitsOf coefficient
  cases exponent with
  | ofNat n =>
    refine .inr ⟨n, rfl, ?_, by simp [positionalNumeral, Numeral.lastPower]⟩
    simp only [positionalNumeral, Numeral.allDigits, Option.getD_some]
    rw [Numeral.digitsValue_append, Numeral.digitsValue_append, hvalue, Numeral.digitsValue_zeros]
    rfl
  | negSucc n =>
    refine .inl ?_
    simp only [positionalNumeral]
    split
    case isTrue =>
      simp only [Numeral.allDigits, Option.getD_some, List.take_append_drop, hvalue,
        Numeral.lastPower, List.length_drop, Option.getD_none]
      exact ⟨trivial, by omega⟩
    case isFalse hplaces =>
      simp only [Numeral.allDigits, Option.getD_some, Numeral.lastPower, Option.getD_none,
        List.length_append, List.length_replicate]
      have hlength := Nat.sub_add_cancel (Nat.le_of_not_lt hplaces)
      refine ⟨?_, by omega⟩
      rw [← List.append_assoc, Numeral.digitsValue_append, Numeral.digitsValue_append,
        Numeral.digitsValue_zeros]
      simpa [digitsValue] using hvalue

theorem IsModerate.positionalNumeral {d : Decimal} (h : d.IsModerate)
    (hplain : d.positionalNumeral.IsPlain)
    (hshort : d.exponent + (digitsOf d.coefficient).length - 1 < 16) :
    d.positionalNumeral.double?.isSome := by
  have hlength := positionalNumeral_whole_length d
  have hwhole : digitsValue 0 d.positionalNumeral.whole < UInt64.size :=
    Numeral.digitsValue_lt_of_length hplain.whole_lt (by omega)
  have hlow := h.low
  have hhigh := h.high
  rcases positionalNumeral_value d with ⟨hvalue, hlast⟩ | ⟨n, hexponent, hvalue, hlast⟩
  · refine Numeral.double?_isSome hwhole ?_ ?_
    · simp only [hlast, Numeral.maxPower]
      omega
    · rwa [hvalue, hlast]
  · refine Numeral.double?_isSome hwhole ?_ ?_
    · simp only [hlast, Numeral.maxPower]
      omega
    · have hneg : (-(n : Int)).toNat = 0 := by omega
      rw [hexponent, hneg, Int.toNat_natCast, Nat.pow_zero, Nat.mul_one] at hhigh
      rw [hvalue, hlast]
      simp only [Int.reduceNeg, Int.neg_neg, Int.toNat_one, Int.reduceToNat, Nat.pow_zero,
        Nat.pow_one, Nat.mul_one]
      exact Nat.mul_le_mul_right _ hhigh

theorem IsModerate.exponentialNumeral {d : Decimal} (h : d.IsModerate) :
    d.exponentialNumeral.double?.isSome := by
  have hlt : ∀ e ∈ digitsOf d.coefficient, e < 10 := fun e he => Numeral.lt_of_mem_digitsOf he
  have hvalue := Numeral.digitsValue_digitsOf d.coefficient
  obtain ⟨first, rest, hcons⟩ :=
    List.exists_cons_of_ne_nil (Numeral.digitsOf_ne_nil d.coefficient)
  rw [hcons] at hvalue hlt
  have hall : d.exponentialNumeral.allDigits = first :: rest := by
    simp only [Numeral.allDigits, Decimal.exponentialNumeral, hcons]
    cases rest <;> simp
  have hlast : d.exponentialNumeral.lastPower = d.exponent := by
    simp only [Numeral.lastPower, Decimal.exponentialNumeral, hcons]
    cases rest <;> simp
  refine Numeral.double?_isSome ?_ ?_ ?_
  · refine Numeral.digitsValue_lt_of_length ?_ ?_ <;>
      simp only [Decimal.exponentialNumeral, hcons]
    · intro e he
      exact hlt e (List.mem_of_mem_take he)
    · simp
  · rw [hlast]
    have hlow := h.low
    simp only [Numeral.maxPower]
    omega
  · rw [hall, hlast, hvalue]
    exact h.high

end Decimal

/-! ## Binary numbers as numerals -/

/-- The numeral of a binary number in a style. -/
def BinaryNumber.numeral {f : BinaryFormat} (style : Decimal.Style) (x : BinaryNumber f) :
    Numeral :=
  let magnitude : Numeral :=
    if x.isZero then ⟨false, [0], some [0], none⟩
    else style.numeral (Decimal.shortest f style.tie x.rank)
  { magnitude with negative := x.negative }

theorem BinaryNumber.text_eq {f : BinaryFormat} {style : Decimal.Style}
    (hstyle : style.keepsFraction = true) (x : BinaryNumber f) :
    x.text style = (if x.negative then ['-'] else []) ++ (x.numeral style).chars := by
  rw [text, numeral]
  congr 1
  by_cases hzero : x.isZero
  · rw [if_pos hzero, if_pos hzero, hstyle]
    rfl
  · rw [if_neg hzero, if_neg hzero, Decimal.Style.text_eq hstyle]
    rfl

/-- A binary number is never written with digits alone. -/
theorem BinaryNumber.natural?_numeral {f : BinaryFormat} (style : Decimal.Style)
    (x : BinaryNumber f) : (x.numeral style).natural? = none := by
  unfold numeral
  by_cases hzero : x.isZero
  · rw [if_pos hzero]
    rfl
  · rw [if_neg hzero, Decimal.Style.numeral]
    split
    · unfold Decimal.positionalNumeral
      simp only
      split
      · rfl
      · split <;> rfl
    · simp only [Numeral.natural?, Decimal.exponentialNumeral]
      split <;> simp_all

namespace Numeral

/-- The sign does not matter for whether a numeral is too large. -/
theorem double?_isSome_of_sign {n : Numeral} (h : n.double?.isSome) (negative : Bool) :
    ({ n with negative := negative } : Numeral).double?.isSome := by
  simp only [double?, Option.bind_eq_bind, Option.pure_def, Option.isSome_bind, Option.isSome_some,
    Option.any_true] at h ⊢
  exact h

end Numeral

/-! ## Numbers in a JSON text -/

open Json (numberStyle)

namespace Decimal

theorem shortest_numeral_isPlain {rank : Nat} (h : 0 < rank) :
    (numberStyle.numeral (shortest double numberStyle.tie rank)).IsPlain := by
  refine Style.numeral_isPlain _ fun hpositional hexponent => ?_
  have hlength := List.length_pos_iff.2
    (Numeral.digitsOf_ne_nil (shortest double numberStyle.tie rank).coefficient)
  have hshort : (shortest double numberStyle.tie rank).exponent
      + (digitsOf (shortest double numberStyle.tie rank).coefficient).length - 1 < 16 := by
    simp only [numberStyle, Bool.and_eq_true, decide_eq_true_eq] at hpositional
    exact hpositional.2
  exact shortest_coefficient_pos double _ h (Int.le_of_lt hexponent) (by omega)

/-- The shortest decimals of all magnitudes but the two greatest are moderate. -/
theorem shortest_isModerate (tie : Tie) {rank : Nat} (h : 0 < rank)
    (hbound : rank + 3 ≤ double.rankBound) : (shortest double tie rank).IsModerate :=
  ⟨le_shortest_exponent tie h, shortest_le tie hbound⟩

theorem IsModerate.numeral {d : Decimal} (h : d.IsModerate)
    (hplain : (numberStyle.numeral d).IsPlain) : (numberStyle.numeral d).double?.isSome := by
  rw [Style.numeral] at hplain ⊢
  split
  case isTrue hpositional =>
    rw [if_pos hpositional] at hplain
    refine h.positionalNumeral hplain ?_
    simp only [numberStyle, Bool.and_eq_true, decide_eq_true_eq] at hpositional
    exact hpositional.2
  case isFalse => exact h.exponentialNumeral

end Decimal

theorem BinaryNumber.numeral_isPlain (x : Double) : (x.numeral numberStyle).IsPlain := by
  have hmagnitude : (if x.isZero then ⟨false, [0], some [0], none⟩ else
      numberStyle.numeral (Decimal.shortest double numberStyle.tie x.rank) : Numeral).IsPlain := by
    by_cases hzero : x.isZero
    · rw [if_pos hzero]
      exact ⟨by decide, by decide, by decide, by decide, by decide⟩
    · rw [if_neg hzero]
      exact Decimal.shortest_numeral_isPlain (Nat.pos_of_ne_zero (by simpa [isZero] using hzero))
  exact ⟨hmagnitude.whole_lt, hmagnitude.whole_ne_nil, hmagnitude.leading, hmagnitude.fraction_lt,
    hmagnitude.fraction_ne_nil⟩

/-- The text of a 64-bit number is read as a finite number. -/
theorem BinaryNumber.double?_numeral_isSome (x : Double) :
    (x.numeral numberStyle).double?.isSome := by
  refine Numeral.double?_isSome_of_sign ?_ x.negative
  by_cases hzero : x.isZero
  · rw [if_pos hzero]
    decide +kernel
  · rw [if_neg hzero]
    have hrank : 0 < x.rank := Nat.pos_of_ne_zero (by simpa [isZero] using hzero)
    have hlt := x.rank_lt
    rcases Nat.lt_or_ge (x.rank + 2) double.rankBound with hbound | hbound
    · exact (Decimal.shortest_isModerate numberStyle.tie hrank hbound).numeral
        (Decimal.shortest_numeral_isPlain hrank)
    · -- The bound on shortest decimals is too coarse for the two greatest magnitudes.
      have hbounds : double.rankBound = 2047 * 2 ^ 52 := rfl
      rcases (by omega : x.rank = 2047 * 2 ^ 52 - 1 ∨ x.rank = 2047 * 2 ^ 52 - 2) with hx | hx
      · rw [hx]
        decide +kernel
      · rw [hx]
        decide +kernel

end ChatWire
