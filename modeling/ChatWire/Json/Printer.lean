import ChatWire.Json.Basic
import ChatWire.Decimal.Shortest

/-!
# Writing JSON

The compact text of a value: no white space, members in the order in which they stand, and of the
characters in a string only those escaped that have to be.
-/

namespace ChatWire

/-- Binary numbers are written with at least one place behind the point from `0.00001` up to sixteen
digits before the point, and with an exponent outside that range. -/
def Json.numberStyle : Decimal.Style where
  tie := .toEven
  positional e := -5 ≤ e && e < 16
  keepsFraction := true

/-- The text of a number. -/
def Number.text : Number → List Char
  | .whole n => Nat.toDigits 10 n.toNat
  | .minus n => '-' :: Nat.toDigits 10 (n.val + 1)
  | .binary x => x.text Json.numberStyle

namespace Json

/-- A hexadecimal digit in lower case. -/
def hexDigit (n : Nat) : Char := Char.ofNat (if n < 10 then n + 48 else n + 87)

/-- A character inside a string. -/
def escape (c : Char) : List Char :=
  match c with
  | '"' => ['\\', '"']
  | '\\' => ['\\', '\\']
  | '\n' => ['\\', 'n']
  | '\r' => ['\\', 'r']
  | '\t' => ['\\', 't']
  | c =>
    if c.toNat = 8 then ['\\', 'b']
    else if c.toNat = 12 then ['\\', 'f']
    else if c.toNat < 32 then
      ['\\', 'u', '0', '0', hexDigit (c.toNat / 16), hexDigit (c.toNat % 16)]
    else [c]

/-- A string in quotes. -/
def quote (s : String) : List Char := '"' :: s.toList.flatMap escape ++ ['"']

mutual

/-- The text of a value. -/
def chars : Json → List Char
  | .null => ['n', 'u', 'l', 'l']
  | .bool true => ['t', 'r', 'u', 'e']
  | .bool false => ['f', 'a', 'l', 's', 'e']
  | .number n => n.text
  | .string s => quote s
  | .array [] => ['[', ']']
  | .array (element :: rest) => '[' :: chars element ++ elementsChars rest
  | .object [] => ['{', '}']
  | .object ((key, value) :: rest) => '{' :: quote key ++ ':' :: chars value ++ membersChars rest

/-- What follows an element of an array. -/
def elementsChars : List Json → List Char
  | [] => [']']
  | element :: rest => ',' :: chars element ++ elementsChars rest

/-- What follows a member of an object. -/
def membersChars : List (String × Json) → List Char
  | [] => ['}']
  | (key, value) :: rest => ',' :: quote key ++ ':' :: chars value ++ membersChars rest

end

/-- The text of a value as a string. -/
def toText (value : Json) : String := String.ofList value.chars

end Json

end ChatWire
