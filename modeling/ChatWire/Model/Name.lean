import ChatWire.Provider
import ChatWire.Text.DecimalDigit

/-!
# Names of models

A model's name tells its provider, and the names of one family also tell a variant, a version and a
date, in one of five shapes. A part of a name is a word of lower-case letters, a number of decimal
digits, or a date of eight digits, and hyphens stand between parts. Where a name has two readings,
the last part is read as a date.
-/

namespace ChatWire

/-- What a model's name says; all empty where it says nothing. -/
structure ModelIdentity where
  /-- The variant of the family. -/
  variant : String := ""
  /-- The version, with a dot between its numbers. -/
  version : String := ""
  /-- The date of release. -/
  date : String := ""
deriving DecidableEq

namespace ModelIdentity

/-- Whether the name said nothing. -/
def isEmpty (i : ModelIdentity) : Bool := i.variant.isEmpty && i.version.isEmpty && i.date.isEmpty

/-- Whether a part is a number. -/
def isNumber (part : List Char) : Bool := !part.isEmpty && part.all isDecimalDigit

/-- Whether a part is a word. -/
def isWord (part : List Char) : Bool := !part.isEmpty && part.all Char.isLower

/-- Whether a part is a date. -/
def isDate (part : List Char) : Bool := part.length == 8 && part.all isDecimalDigit

/-- The identity of a variant, a version and a date. -/
def make (variant major : List Char) (minor date : List Char) : ModelIdentity where
  variant := String.ofList variant
  version := String.ofList (if minor.isEmpty then major else major ++ '.' :: minor)
  date := String.ofList date

/-- The identity that the parts behind the family's name tell. -/
def ofParts : List (List Char) → ModelIdentity
  | [a, b, c, d] =>
    if isNumber a && isNumber b && isWord c && isDate d then make c a b d
    else if isWord a && isNumber b && isNumber c && isDate d then make a b c d
    else {}
  | [a, b, c] =>
    if isNumber a && isWord b && isDate c then make b a [] c
    else if isWord a && isNumber b && isDate c then make a b [] c
    else if isWord a && isNumber b && isNumber c then make a b c []
    else {}
  | _ => {}

/-- The identity that a name tells. -/
def ofName (name : String) : ModelIdentity :=
  match name.toList.splitOn '-' with
  | family :: parts => if family = "claude".toList then ofParts parts else {}
  | [] => {}

end ModelIdentity

/-- The provider of a model, told by how its name begins, whatever the case. A model that no name
tells apart is a local one. -/
def Provider.ofModelName (name : String) : Provider :=
  let name := name.toList.map Char.toLower
  let begins (start : String) : Bool := start.toList.isPrefixOf name
  if begins "claude-" then .anthropic
  else if begins "gemini-" then .gemini
  else if ["gpt-", "chatgpt-", "o1", "o3", "o4"].any begins then .openai
  else .ollama

end ChatWire
