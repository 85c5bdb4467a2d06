import ChatWire.BinaryNumber

/-!
# Shortest decimals

Among the decimals that read back as a given binary number, those with the fewest digits lie on the
coarsest decimal grid that has a point in the number's rounding interval. If any point of a grid
lies in the interval, so does one of the number's two neighbours on that grid; it is therefore
enough to try the two neighbours on each grid, from coarse to fine. Of two neighbours inside the
nearer one is taken.
-/

namespace ChatWire

/-- A decimal number: `coefficient` times ten to the power of `exponent`. -/
structure Decimal where
  /-- The digits as a natural number. -/
  coefficient : Nat
  /-- The power of ten that the last digit counts. -/
  exponent : Int
deriving DecidableEq

namespace Decimal

/-- Which of two equally near neighbours is taken. -/
inductive Tie where
  /-- The one with an even last digit. -/
  | toEven
  /-- The greater one. -/
  | up
deriving DecidableEq

/-- The numbers that round to one binary number, and that number, all over a common denominator. -/
structure Interval where
  /-- The numerator of the lower end. -/
  lower : Nat
  /-- The numerator of the binary number. -/
  value : Nat
  /-- The numerator of the upper end. -/
  upper : Nat
  /-- The common denominator. -/
  denominator : Nat
  /-- Whether the ends belong to the interval. -/
  closed : Bool

/-- The rounding interval of a positive magnitude: the ends are half way to the neighbours, and they
belong to it when the rank is even. -/
def Interval.ofRank (f : BinaryFormat) (rank : Nat) : Interval where
  lower := f.units (rank - 1) + f.units rank
  value := 2 * f.units rank
  upper := f.units rank + f.units (rank + 1)
  denominator := 2 * f.unitsInOne
  closed := rank % 2 == 0

/-- The interval measured in units of ten to the power of `exponent`. -/
def Interval.measure (i : Interval) (exponent : Int) : Interval :=
  match exponent with
  | .ofNat n => { i with denominator := i.denominator * Nat.pow 10 n }
  | .negSucc n =>
    let m := Nat.pow 10 (n + 1)
    { i with lower := i.lower * m, value := i.value * m, upper := i.upper * m }

/-- Whether a natural number lies in the interval. -/
def Interval.contains (i : Interval) (n : Nat) : Bool :=
  let m := n * i.denominator
  if i.closed then i.lower ≤ m && m ≤ i.upper else i.lower < m && m < i.upper

/-- The natural number below and the one above the value: the one inside the interval, the nearer
one when both are, none when neither is. -/
def Interval.neighbour? (i : Interval) (tie : Tie) : Option Nat :=
  let below := i.value / i.denominator
  let above := below + 1
  match i.contains below, i.contains above with
  | false, false => none
  | true, false => some below
  | false, true => some above
  | true, true =>
    let down := i.value - below * i.denominator
    let up := above * i.denominator - i.value
    if down < up then some below
    else if up < down then some above
    else match tie with
      | .toEven => some (if below % 2 = 0 then below else above)
      | .up => some above

/-- Tries the grids of ten to the power of `exponent` and the finer ones, `grids` of them. -/
def Interval.coarsest (i : Interval) (tie : Tie) (grids : Nat) (exponent : Int) : Decimal :=
  match grids with
  | 0 => ⟨(i.measure exponent).value / (i.measure exponent).denominator, exponent⟩
  | grids + 1 =>
    match (i.measure exponent).neighbour? tie with
    | some coefficient => ⟨coefficient, exponent⟩
    | none => i.coarsest tie grids (exponent - 1)

/-- A power of ten above the value: with `2 ^ b` above it, a power that is at least `0.30103 * b`.
-/
def Interval.magnitude (i : Interval) : Int :=
  let bits : Int := (Nat.log2 i.value : Int) - (Nat.log2 i.denominator : Int) + 1
  bits * 30103 / 100000 + 1

/-- The shortest decimal that reads back as the positive magnitude of the given rank. Seventeen
digits always do, and the search starts at most three places above the first of them. -/
def shortest (f : BinaryFormat) (tie : Tie) (rank : Nat) : Decimal :=
  let i := Interval.ofRank f rank
  i.coarsest tie 24 i.magnitude

/-! ## Layout -/

/-- How a decimal is written. -/
structure Style where
  /-- Which of two equally near shortest decimals is written. -/
  tie : Tie
  /-- Whether a number whose first digit counts this power of ten is written without exponent. -/
  positional : Int → Bool
  /-- Whether a whole number gets the fraction `.0` when it is written without exponent. -/
  keepsFraction : Bool

/-- A power of ten with its sign, as it stands behind the exponent mark. -/
def exponentText (e : Int) : List Char :=
  (if e < 0 then '-' else '+') :: Nat.toDigits 10 e.natAbs

/-- The decimal without exponent. -/
def positionalText (keepsFraction : Bool) (d : Decimal) : List Char :=
  let digits := Nat.toDigits 10 d.coefficient
  match d.exponent with
  | .ofNat n => digits ++ List.replicate n '0' ++ (if keepsFraction then ['.', '0'] else [])
  | .negSucc n =>
    let places := n + 1
    if places < digits.length then
      digits.take (digits.length - places) ++ '.' :: digits.drop (digits.length - places)
    else '0' :: '.' :: List.replicate (places - digits.length) '0' ++ digits

/-- The decimal with one digit before the point and an exponent. -/
def exponentialText (d : Decimal) : List Char :=
  match Nat.toDigits 10 d.coefficient with
  | [] => []
  | first :: rest =>
    first :: (if rest.isEmpty then [] else '.' :: rest)
      ++ 'e' :: exponentText (d.exponent + rest.length)

/-- The decimal in a style. -/
def Style.text (style : Style) (d : Decimal) : List Char :=
  if style.positional (d.exponent + (Nat.toDigits 10 d.coefficient).length - 1) then
    positionalText style.keepsFraction d
  else exponentialText d

end Decimal

/-- A finite binary number in a style: its sign if that is minus, and the shortest decimal that
reads back as its magnitude. -/
def BinaryNumber.text {f : BinaryFormat} (style : Decimal.Style) (x : BinaryNumber f) :
    List Char :=
  (if x.negative then ['-'] else []) ++
    if x.isZero then '0' :: (if style.keepsFraction then ['.', '0'] else [])
    else style.text (Decimal.shortest f style.tie x.rank)

end ChatWire
