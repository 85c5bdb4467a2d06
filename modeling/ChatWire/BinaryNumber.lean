/-!
# Binary floating-point numbers

A binary interchange format is fixed by the width of its fraction field and by the number of its
finite exponents. The magnitudes of a format are ranked from zero upwards: rank `0` is zero, rank
`1` the smallest positive number, and the next larger magnitude has the next rank. The rank is at
the same time the bit pattern without the sign. Every magnitude is a whole number of units, the unit
being the smallest positive number, so all arithmetic below is exact arithmetic on natural numbers
followed by one rounding.
-/

namespace ChatWire

/-- A binary interchange format. -/
structure BinaryFormat where
  /-- The number of bits of the fraction field. -/
  fractionBits : Nat
  /-- The number of exponent fields that stand for finite numbers. -/
  finiteExponents : Nat

/-- The 64-bit format. -/
def BinaryFormat.double : BinaryFormat := ⟨52, 2047⟩

/-- The 32-bit format. -/
def BinaryFormat.single : BinaryFormat := ⟨23, 255⟩

/-- How many units make one. -/
def BinaryFormat.unitsInOne (f : BinaryFormat) : Nat :=
  Nat.pow 2 ((f.finiteExponents - 1) / 2 - 1 + f.fractionBits)

/-- The number of finite magnitudes. -/
def BinaryFormat.rankBound (f : BinaryFormat) : Nat := f.finiteExponents * Nat.pow 2 f.fractionBits

/-- The magnitude of a rank in units. Below the first normal number rank and magnitude agree; from
there on each exponent doubles the distance between neighbours. -/
def BinaryFormat.units (f : BinaryFormat) (rank : Nat) : Nat :=
  let binade := Nat.pow 2 f.fractionBits
  if rank < binade then rank else (binade + rank % binade) * Nat.pow 2 (rank / binade - 1)

/-- The quotient of `n` by `d`, rounded to the nearest natural number; a half goes to the even
neighbour. -/
def roundHalfEven (n d : Nat) : Nat :=
  let q := n / d
  let r := n % d
  if 2 * r < d || (2 * r == d && q % 2 == 0) then q else q + 1

/-- The rank of the magnitude nearest to `n / d`, ties going to the even rank. Ranks at or above
`rankBound` stand for magnitudes that the format does not have. -/
def BinaryFormat.nearestRank (f : BinaryFormat) (n d : Nat) : Nat :=
  let units := n * f.unitsInOne
  let dropped := Nat.log2 (units / d) - f.fractionBits
  dropped * Nat.pow 2 f.fractionBits + roundHalfEven units (d * Nat.pow 2 dropped)

/-- A finite number of a format; zero has two signs. -/
structure BinaryNumber (f : BinaryFormat) where
  /-- Whether the sign is minus. -/
  negative : Bool
  /-- The rank of the magnitude. -/
  rank : Nat
  /-- The magnitude is finite. -/
  rank_lt : rank < f.rankBound
deriving DecidableEq

/-- A finite number of the 64-bit format. -/
abbrev Double := BinaryNumber .double

/-- A finite number of the 32-bit format. -/
abbrev Single := BinaryNumber .single

namespace BinaryNumber

variable {f : BinaryFormat}

/-- The magnitude in units. -/
def units (x : BinaryNumber f) : Nat := f.units x.rank

/-- Whether the number is zero of either sign. -/
def isZero (x : BinaryNumber f) : Bool := x.rank == 0

/-- The number with a sign and the magnitude nearest to `n / d`; none when that is not finite. -/
def nearest? (negative : Bool) (n d : Nat) : Option (BinaryNumber f) :=
  if h : f.nearestRank n d < f.rankBound then some ⟨negative, f.nearestRank n d, h⟩ else none

/-- The product, rounded once; none when it is too large. -/
def mul? (x y : BinaryNumber f) : Option (BinaryNumber f) :=
  nearest? (x.negative != y.negative) (x.units * y.units) (f.unitsInOne * f.unitsInOne)

/-- The quotient, rounded once; none when it is too large. -/
def div? (x y : BinaryNumber f) : Option (BinaryNumber f) :=
  nearest? (x.negative != y.negative) x.units y.units

/-- The number with the opposite sign. -/
def neg (x : BinaryNumber f) : BinaryNumber f := { x with negative := !x.negative }

/-- The number in another format, rounded once; none when it is too large there. -/
def convert? {g : BinaryFormat} (x : BinaryNumber f) : Option (BinaryNumber g) :=
  nearest? x.negative x.units f.unitsInOne

/-- Whether the number is at most the natural number `n`. -/
def atMost (x : BinaryNumber f) (n : Nat) : Bool :=
  x.negative || x.units ≤ n * f.unitsInOne

/-- Whether the number is greater than zero. -/
def isPositive (x : BinaryNumber f) : Bool := !x.negative && !x.isZero

end BinaryNumber

end ChatWire
