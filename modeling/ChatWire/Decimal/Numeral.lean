import ChatWire.BinaryNumber

/-!
# Decimal numerals

A numeral is a number as it is written in decimal: a sign, digits, digits behind a point and a power
of ten. `Numeral.double?` reads one as a 64-bit number by the quick rule: the leading digits that
fit in 64 bits are kept, the others only shift the point, and the kept digits are scaled by one
rounded power of ten. The result can differ from the nearest number in its last bit.
-/

namespace ChatWire

/-- A number as it is written. -/
structure Numeral where
  /-- Whether a minus sign stands in front. -/
  negative : Bool
  /-- The digits before the point. -/
  whole : List Nat
  /-- The digits behind the point, if there is one. -/
  fraction : Option (List Nat)
  /-- The power of ten, if one is written. -/
  exponent : Option Int

namespace Numeral

/-- Appends digits to a number as long as the result stays below `UInt64.size`; the number then, and
the digits left over. -/
def takeDigits (n : Nat) : List Nat → Nat × List Nat
  | [] => (n, [])
  | d :: rest => if n * 10 + d < UInt64.size then takeDigits (n * 10 + d) rest else (n, d :: rest)

/-- The largest power of ten in the format's range, as an exponent. -/
def maxPower : Nat := 308

/-- The number nearest to a natural number, without sign; none when it is too large. -/
def ofNat? (n : Nat) : Option Double := BinaryNumber.nearest? false n 1

/-- Multiplies by a power of ten. A power below the range is split off in steps; after two of them
any 64-bit number has become zero. -/
def scale? (steps : Nat) (x : Double) (power : Int) : Option Double :=
  if power.natAbs ≤ maxPower then do
    let p ← ofNat? (Nat.pow 10 power.natAbs)
    if power < 0 then x.div? p else x.mul? p
  else if x.isZero then some x
  else if 0 ≤ power then none
  else
    match steps with
    | 0 => none
    | steps + 1 => do
      let p ← ofNat? (Nat.pow 10 maxPower)
      let y ← x.div? p
      scale? steps y (power + maxPower)

/-- The numeral as a 64-bit number; none when it is too large. -/
def double? (n : Numeral) : Option Double := do
  let (kept, dropped) := takeDigits 0 n.whole
  let fraction := n.fraction.getD []
  let (kept, ignored) := takeDigits kept fraction
  let places := fraction.length - ignored.length
  let power := (dropped.length : Int) - places + n.exponent.getD 0
  let magnitude ← scale? 3 (← ofNat? kept) power
  return if n.negative then magnitude.neg else magnitude

/-- The whole number without sign, for a numeral of digits alone. -/
def natural? (n : Numeral) : Option Nat :=
  match n.fraction, n.exponent with
  | none, none => some (n.whole.foldl (fun m d => m * 10 + d) 0)
  | _, _ => none

end Numeral

end ChatWire
