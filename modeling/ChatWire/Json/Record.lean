import ChatWire.Json.Basic

/-!
# Records in JSON

A record is written as an object in which each of its members occurs at most once and others are
ignored, or as an array of its leading members in their fixed order. One of several kinds of record
is told by a tag: a member of the object or the first element of the array. A name out of a fixed
set is written as a string, or as the key of a one-member object whose value is null; where names
are read laxly, the value may also be an empty object.
-/

namespace ChatWire.Json

/-- The members of a record with the given names. -/
def recordMembers? (names : List String) : Json → Option (List (String × Json))
  | .object members =>
    if names.all fun name => (members.filter fun m => m.1 == name).length ≤ 1 then some members
    else none
  | .array elements =>
    if elements.length ≤ names.length then some (names.zip elements) else none
  | _ => none

/-- A member of a record that has to be there. -/
def required? {α : Type} (members : List (String × Json)) (name : String)
    (read : Json → Option α) : Option α :=
  ((members.find? fun m => m.1 == name).map Prod.snd).bind read

/-- A member of a record that may be missing. -/
def optional? {α : Type} (members : List (String × Json)) (name : String) (missing : α)
    (read : Json → Option α) : Option α :=
  match members.find? fun m => m.1 == name with
  | none => some missing
  | some m => read m.2

/-- A value or null. -/
def nullable {α : Type} (read : Json → Option α) : Json → Option (Option α)
  | .null => some none
  | v => (read v).map some

/-- An array, each element read alike. -/
def listOf? {α : Type} (read : Json → Option α) : Json → Option (List α)
  | .array elements => elements.mapM read
  | _ => none

/-- The tag of a tagged record, and the record without it. -/
def tagged? (tag : String) : Json → Option (Json × Json)
  | .object members =>
    match members.filter fun m => m.1 == tag with
    | [(_, value)] => some (value, .object (members.filter fun m => m.1 != tag))
    | _ => none
  | .array (value :: rest) => some (value, .array rest)
  | _ => none

/-- A name out of a fixed set. -/
def name? : Json → Option String
  | .string s => some s
  | .object [(s, .null)] => some s
  | _ => none

/-- A name out of a fixed set, where an empty object may stand for the null as well. -/
def laxName? : Json → Option String
  | .object [(s, .object [])] => some s
  | v => v.name?

end ChatWire.Json
