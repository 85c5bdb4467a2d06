import ChatWire.Json.Basic
import ChatWire.Decimal.Numeral
import ChatWire.Text.Bytes

/-!
# Reading JSON

Reading follows the grammar to the letter: four blank characters, no byte order mark, nothing behind
the value, no raw control characters and no lone surrogates in strings, and a bound on how deeply
arrays and objects may nest. Every reader takes the characters that are left and returns what it
read with the characters behind it, or nothing when the text is not of its form. `Json.tree?` keeps
a value as it is written, `Json.read?` brings it into canonical form.

The readers that call each other count down `fuel`; a call that consumes nothing is followed by one
that consumes a character, so twice the length of the text suffices.
-/

namespace ChatWire

/-- A numeral of digits alone is a whole number if it fits the 64-bit ranges; zero with a minus sign
and everything else is a binary number, and nothing when it is too large for one. -/
def Number.ofNumeral? (n : Numeral) : Option Number :=
  match n.natural? with
  | some m =>
    if n.negative then
      if h : 0 < m ∧ m ≤ UInt64.size / 2 then some (.minus ⟨m - 1, Nat.sub_one_lt_of_le h.1 h.2⟩)
      else n.double?.map .binary
    else if m < UInt64.size then some (.whole (UInt64.ofNat m))
    else n.double?.map .binary
  | none => n.double?.map .binary

namespace Json

/-- Whether a character is blank between the parts of a text. -/
def isSpace (c : Char) : Bool := c == ' ' || c == '\t' || c == '\n' || c == '\r'

/-- The characters behind leading blanks. -/
def skipSpace (cs : List Char) : List Char := cs.dropWhile isSpace

/-! ## Numbers -/

/-- The values of the leading digits, and the characters behind them. -/
def digits (cs : List Char) : List Nat × List Char :=
  ((cs.takeWhile Char.isDigit).map fun c => c.toNat - 48, cs.dropWhile Char.isDigit)

/-- The digits before the point: one zero, or digits of which the first is not zero. -/
def wholePart (cs : List Char) : Option (List Nat × List Char) :=
  match digits cs with
  | ([], _) => none
  | ([0], rest) => some ([0], rest)
  | (0 :: _, _) => none
  | (ds, rest) => some (ds, rest)

/-- The digits behind a point, if there is a point. -/
def fractionPart (cs : List Char) : Option (Option (List Nat) × List Char) :=
  match cs with
  | '.' :: rest =>
    match digits rest with
    | ([], _) => none
    | (ds, rest) => some (some ds, rest)
  | _ => some (none, cs)

/-- A sign that may be missing: whether it is minus. -/
def signPart : List Char → Bool × List Char
  | '+' :: rest => (false, rest)
  | '-' :: rest => (true, rest)
  | cs => (false, cs)

/-- The power of ten behind the exponent mark, if there is a mark. -/
def exponentPart (cs : List Char) : Option (Option Int × List Char) :=
  match cs with
  | [] => some (none, [])
  | c :: rest =>
    if c == 'e' || c == 'E' then
      let (negative, rest) := signPart rest
      match digits rest with
      | ([], _) => none
      | (ds, rest) =>
        let n : Nat := ds.foldl (fun n d => n * 10 + d) 0
        some (some (if negative then -(n : Int) else n), rest)
    else some (none, cs)

/-- A number behind its sign. -/
def numeral (negative : Bool) (cs : List Char) : Option (Number × List Char) := do
  let (whole, cs) ← wholePart cs
  let (fraction, cs) ← fractionPart cs
  let (exponent, cs) ← exponentPart cs
  let number ← Number.ofNumeral? { negative, whole, fraction, exponent }
  return (number, cs)

/-! ## Strings -/

/-- The value of a hexadecimal digit. -/
def hexValue? (c : Char) : Option Nat :=
  let n := c.toNat
  if 48 ≤ n && n ≤ 57 then some (n - 48)
  else if 97 ≤ n && n ≤ 102 then some (n - 87)
  else if 65 ≤ n && n ≤ 70 then some (n - 55)
  else none

/-- Four hexadecimal digits. -/
def hexUnit : List Char → Option (Nat × List Char)
  | a :: b :: c :: d :: rest => do
    let n := (← hexValue? a) * 4096 + (← hexValue? b) * 256 + (← hexValue? c) * 16
      + (← hexValue? d)
    return (n, rest)
  | _ => none

/-- The character of an escape by number, behind its `u`. A leading surrogate has to be followed by
an escape for a trailing one, and a trailing surrogate may not come first. -/
def unicodeEscape (cs : List Char) : Option (Char × List Char) := do
  let (unit, cs) ← hexUnit cs
  if unit / 1024 = 0x37 then none
  else if unit / 1024 = 0x36 then
    match cs with
    | '\\' :: 'u' :: cs => do
      let (trail, cs) ← hexUnit cs
      if trail / 1024 = 0x37 then
        some (Char.ofNat (0x10000 + (unit - 0xD800) * 1024 + (trail - 0xDC00)), cs)
      else none
    | _ => none
  else some (Char.ofNat unit, cs)

/-- The character of an escape, behind its backslash. -/
def escaped : List Char → Option (Char × List Char)
  | '"' :: rest => some ('"', rest)
  | '\\' :: rest => some ('\\', rest)
  | '/' :: rest => some ('/', rest)
  | 'b' :: rest => some ('\x08', rest)
  | 'f' :: rest => some ('\x0c', rest)
  | 'n' :: rest => some ('\n', rest)
  | 'r' :: rest => some ('\r', rest)
  | 't' :: rest => some ('\t', rest)
  | 'u' :: rest => unicodeEscape rest
  | _ => none

/-- The characters of a string behind its opening quote, up to the closing one. -/
def stringBody : (fuel : Nat) → List Char → Option (List Char × List Char)
  | 0, _ => none
  | _ + 1, [] => none
  | fuel + 1, c :: rest =>
    if c = '"' then some ([], rest)
    else if c = '\\' then do
      let (c, rest) ← escaped rest
      let (cs, rest) ← stringBody fuel rest
      return (c :: cs, rest)
    else if c.toNat < 32 then none
    else do
      let (cs, rest) ← stringBody fuel rest
      return (c :: cs, rest)

/-- A string behind its opening quote. -/
def stringRest (fuel : Nat) (cs : List Char) : Option (String × List Char) := do
  let (body, rest) ← stringBody fuel cs
  return (String.ofList body, rest)

/-! ## Values -/

/-- The characters behind a given text; none when the text does not stand in front. -/
def expect : (text : List Char) → List Char → Option (List Char)
  | [], cs => some cs
  | t :: ts, c :: cs => if t = c then expect ts cs else none
  | _ :: _, [] => none

mutual

/-- A value without blanks before it, in which arrays and objects nest at most `depth` deep. -/
def value : (fuel : Nat) → (depth : Nat) → List Char → Option (Json × List Char)
  | 0, _, _ => none
  | _ + 1, _, [] => none
  | fuel + 1, depth, c :: rest =>
    match c with
    | 'n' => do
      let rest ← expect ['u', 'l', 'l'] rest
      return (.null, rest)
    | 't' => do
      let rest ← expect ['r', 'u', 'e'] rest
      return (.bool true, rest)
    | 'f' => do
      let rest ← expect ['a', 'l', 's', 'e'] rest
      return (.bool false, rest)
    | '"' => do
      let (s, rest) ← stringRest fuel rest
      return (.string s, rest)
    | '[' =>
      match depth with
      | 0 => none
      | depth + 1 =>
        match skipSpace rest with
        | ']' :: rest => some (.array [], rest)
        | rest => do
          let (elements, rest) ← elements fuel depth rest
          return (.array elements, rest)
    | '{' =>
      match depth with
      | 0 => none
      | depth + 1 =>
        match skipSpace rest with
        | '}' :: rest => some (.object [], rest)
        | rest => do
          let (members, rest) ← members fuel depth rest
          return (.object members, rest)
    | '-' => do
      let (n, rest) ← numeral true rest
      return (.number n, rest)
    | c => do
      let (n, rest) ← numeral false (c :: rest)
      return (.number n, rest)

/-- The elements of an array, at least one, up to the closing bracket. -/
def elements : (fuel : Nat) → (depth : Nat) → List Char → Option (List Json × List Char)
  | 0, _, _ => none
  | fuel + 1, depth, cs => do
    let (element, cs) ← value fuel depth (skipSpace cs)
    match skipSpace cs with
    | ']' :: cs => return ([element], cs)
    | ',' :: cs => do
      let (more, cs) ← elements fuel depth cs
      return (element :: more, cs)
    | _ => none

/-- The members of an object, at least one, up to the closing brace. -/
def members : (fuel : Nat) → (depth : Nat) → List Char → Option (List (String × Json) × List Char)
  | 0, _, _ => none
  | fuel + 1, depth, cs =>
    match skipSpace cs with
    | '"' :: cs => do
      let (key, cs) ← stringRest fuel cs
      match skipSpace cs with
      | ':' :: cs => do
        let (element, cs) ← value fuel depth (skipSpace cs)
        match skipSpace cs with
        | '}' :: cs => return ([(key, element)], cs)
        | ',' :: cs => do
          let (more, cs) ← members fuel depth cs
          return ((key, element) :: more, cs)
        | _ => none
      | _ => none
    | _ => none

end

/-- The value of a whole text as it is written, in which arrays and objects nest at most `depth`
deep. -/
def treeWithin? (depth : Nat) (text : String) : Option Json := do
  let cs := text.toList
  let (v, rest) ← value (2 * cs.length + 2) depth (skipSpace cs)
  if (skipSpace rest).isEmpty then some v else none

/-- How deeply arrays and objects may nest. -/
def maxDepth : Nat := 127

/-- The value of a text as it is written. -/
def tree? (text : String) : Option Json := treeWithin? maxDepth text

/-- The value of a text in canonical form. -/
def read? (text : String) : Option Json := (tree? text).map canonical

/-- The value of the text that the bytes encode. -/
def readBytes? (bytes : Bytes) : Option Json := bytes.text?.bind read?

end Json

end ChatWire
