/-!
# Text as bytes

UTF-8 in both directions. Reading splits bytes into scalar values and faults; a fault is a longest
run of bytes that begins a well-formed sequence without completing one, or a single byte that begins
none. Strict reading refuses faults, lenient reading puts one replacement character for each. Text
whose bytes begin with a byte order mark can also be read in the encoding that the mark names.
-/

namespace ChatWire

/-- A sequence of bytes. -/
abbrev Bytes := List UInt8

namespace Bytes

/-- The character that stands for what cannot be read. -/
def replacement : Char := '\uFFFD'

/-- Whether a byte continues a sequence. -/
def isContinuation (b : UInt8) : Bool := 0x80 ≤ b && b ≤ 0xBF

/-- The second bytes that may follow a first byte of a longer sequence, and how many bytes follow it
in all; none when the byte begins no longer sequence. The narrower ranges keep out overlong forms,
surrogates and values above the last scalar value. -/
def lead? (b : UInt8) : Option (UInt8 × UInt8 × Nat) :=
  if 0xC2 ≤ b && b ≤ 0xDF then some (0x80, 0xBF, 1)
  else if b == 0xE0 then some (0xA0, 0xBF, 2)
  else if b == 0xED then some (0x80, 0x9F, 2)
  else if 0xE1 ≤ b && b ≤ 0xEF then some (0x80, 0xBF, 2)
  else if b == 0xF0 then some (0x90, 0xBF, 3)
  else if 0xF1 ≤ b && b ≤ 0xF3 then some (0x80, 0xBF, 3)
  else if b == 0xF4 then some (0x80, 0x8F, 3)
  else none

/-- The payload bits of the first byte of a sequence in which `following` bytes follow. -/
def leadBits (b : UInt8) (following : Nat) : Nat := b.toNat % Nat.pow 2 (6 - following)

/-- The first scalar value of the bytes `first :: rest`, none when they begin with a fault, and how
many bytes of `rest` belong to it or to the fault. -/
def firstScalar (first : UInt8) (rest : Bytes) : Option Char × Nat :=
  if first < 0x80 then (some (Char.ofNat first.toNat), 0)
  else match lead? first with
    | none => (none, 0)
    | some (low, high, following) =>
      match rest with
      | [] => (none, 0)
      | second :: _ =>
        if second < low || high < second then (none, 0)
        else
          let tail := (rest.take following).takeWhile isContinuation
          if tail.length < following then (none, tail.length)
          else
            let bits := tail.foldl (fun n b => n * 64 + b.toNat % 64) (leadBits first following)
            (some (Char.ofNat bits), following)

/-- The scalar values and faults of the bytes after the next `skipped` ones. -/
def scalarsFrom : Nat → Bytes → List (Option Char)
  | _, [] => []
  | 0, first :: rest =>
    let (scalar, length) := firstScalar first rest
    scalar :: scalarsFrom length rest
  | skipped + 1, _ :: rest => scalarsFrom skipped rest

/-- The scalar values and faults of the bytes in order. -/
def scalars (bytes : Bytes) : List (Option Char) := scalarsFrom 0 bytes

/-- The text of well-formed bytes; none when there is a fault. -/
def text? (bytes : Bytes) : Option String :=
  (bytes.scalars.mapM id).map String.ofList

/-- The text of the bytes, with a replacement character for each fault. -/
def lenientText (bytes : Bytes) : String :=
  String.ofList (bytes.scalars.map (·.getD replacement))

/-- The bytes of a text. -/
def ofString (s : String) : Bytes := s.toList.flatMap String.utf8EncodeChar

/-! ## Byte order marks -/

/-- The text of 16-bit units, given as the bytes of each unit with the more significant first. A
surrogate without partner and an odd byte at the end each give a replacement character; together at
the end they give one. `pending` is a leading surrogate still waiting for its partner. -/
def unitsText (pending : Option Nat) : List (UInt8 × Option UInt8) → List Char
  | [] => if pending.isSome then [replacement] else []
  | (_, none) :: _ => [replacement]
  | (high, some low) :: rest =>
    let unit := high.toNat * 256 + low.toNat
    let lone := unit / 1024 == 0x37
    match pending with
    | some lead =>
      if lone then
        Char.ofNat (0x10000 + (lead - 0xD800) * 1024 + (unit - 0xDC00)) :: unitsText none rest
      else if unit / 1024 == 0x36 then replacement :: unitsText (some unit) rest
      else replacement :: Char.ofNat unit :: unitsText none rest
    | none =>
      if lone then replacement :: unitsText none rest
      else if unit / 1024 == 0x36 then unitsText (some unit) rest
      else Char.ofNat unit :: unitsText none rest

/-- Bytes in pairs; the last one may be alone. -/
def pairs : Bytes → List (UInt8 × Option UInt8)
  | [] => []
  | [a] => [(a, none)]
  | a :: b :: rest => (a, some b) :: pairs rest

/-- The text of bytes in the encoding that their byte order mark names, without the mark; UTF-8 when
there is none. -/
def markedText : Bytes → String
  | 0xEF :: 0xBB :: 0xBF :: rest => lenientText rest
  | 0xFE :: 0xFF :: rest => String.ofList (unitsText none (pairs rest))
  | 0xFF :: 0xFE :: rest =>
    let swapped := (pairs rest).map fun
      | (a, some b) => (b, some a)
      | odd => odd
    String.ofList (unitsText none swapped)
  | bytes => lenientText bytes

end Bytes

end ChatWire
