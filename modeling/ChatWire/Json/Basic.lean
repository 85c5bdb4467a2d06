import ChatWire.Table
import ChatWire.BinaryNumber

/-!
# JSON values

A value as it is written may list the members of an object in any order and name a member twice. A
value in canonical form lists them in key order, each once; `Json.canonical` brings any value into
this form, keeping the last of several members of one name. Everything here but the reading of a
text makes canonical values from canonical values, so that equality of values is equality of terms.

Object literals in this library list their members in key order.
-/

namespace ChatWire

/-- A number of a JSON text: a whole number of the 64-bit ranges, exactly, or a finite binary
number. -/
inductive Number where
  /-- A whole number that is not negative. -/
  | whole (n : UInt64)
  /-- The whole number `-(n + 1)`. -/
  | minus (n : Fin (UInt64.size / 2))
  /-- A binary number. -/
  | binary (x : Double)
deriving DecidableEq

/-- A JSON value. -/
inductive Json where
  /-- The null value. -/
  | null
  /-- A truth value. -/
  | bool (b : Bool)
  /-- A number. -/
  | number (n : Number)
  /-- A string. -/
  | string (s : String)
  /-- An array with its elements. -/
  | array (elements : List Json)
  /-- An object with its members. -/
  | object (members : List (String × Json))

namespace Json

instance : Inhabited Json := ⟨.null⟩

/-! ## Equality -/

mutual

/-- Decides whether two values are equal. -/
def decEq : (a b : Json) → Decidable (a = b)
  | .null, .null => .isTrue rfl
  | .bool a, .bool b =>
    if h : a = b then .isTrue (by rw [h]) else .isFalse (by intro e; cases e; exact h rfl)
  | .number a, .number b =>
    if h : a = b then .isTrue (by rw [h]) else .isFalse (by intro e; cases e; exact h rfl)
  | .string a, .string b =>
    if h : a = b then .isTrue (by rw [h]) else .isFalse (by intro e; cases e; exact h rfl)
  | .array a, .array b =>
    match decEqElements a b with
    | .isTrue h => .isTrue (by rw [h])
    | .isFalse h => .isFalse (by intro e; cases e; exact h rfl)
  | .object a, .object b =>
    match decEqMembers a b with
    | .isTrue h => .isTrue (by rw [h])
    | .isFalse h => .isFalse (by intro e; cases e; exact h rfl)
  | .null, .bool _ | .null, .number _ | .null, .string _ | .null, .array _ | .null, .object _
  | .bool _, .null | .bool _, .number _ | .bool _, .string _ | .bool _, .array _
  | .bool _, .object _ | .number _, .null | .number _, .bool _ | .number _, .string _
  | .number _, .array _ | .number _, .object _ | .string _, .null | .string _, .bool _
  | .string _, .number _ | .string _, .array _ | .string _, .object _ | .array _, .null
  | .array _, .bool _ | .array _, .number _ | .array _, .string _ | .array _, .object _
  | .object _, .null | .object _, .bool _ | .object _, .number _ | .object _, .string _
  | .object _, .array _ => .isFalse (by intro e; cases e)

/-- Decides whether two lists of elements are equal. -/
def decEqElements : (a b : List Json) → Decidable (a = b)
  | [], [] => .isTrue rfl
  | a :: as, b :: bs =>
    match decEq a b, decEqElements as bs with
    | .isTrue h, .isTrue hs => .isTrue (by rw [h, hs])
    | .isFalse h, _ => .isFalse (by intro e; cases e; exact h rfl)
    | _, .isFalse hs => .isFalse (by intro e; cases e; exact hs rfl)
  | [], _ :: _ | _ :: _, [] => .isFalse (by intro e; cases e)

/-- Decides whether two lists of members are equal. -/
def decEqMembers : (a b : List (String × Json)) → Decidable (a = b)
  | [], [] => .isTrue rfl
  | (k, a) :: as, (l, b) :: bs =>
    if hk : k = l then
      match decEq a b, decEqMembers as bs with
      | .isTrue h, .isTrue hs => .isTrue (by rw [hk, h, hs])
      | .isFalse h, _ => .isFalse (by intro e; cases e; exact h rfl)
      | _, .isFalse hs => .isFalse (by intro e; cases e; exact hs rfl)
    else .isFalse (by intro e; cases e; exact hk rfl)
  | [], _ :: _ | _ :: _, [] => .isFalse (by intro e; cases e)

end

instance : DecidableEq Json := decEq

/-! ## Canonical form -/

mutual

/-- The value with the members of every object in key order, the last of each name. -/
def canonical : Json → Json
  | .array elements => .array (canonicalElements elements)
  | .object members => .object (Table.ofList (canonicalMembers members)).entries
  | scalar => scalar

/-- The canonical forms of elements. -/
def canonicalElements : List Json → List Json
  | [] => []
  | element :: rest => element.canonical :: canonicalElements rest

/-- The members with the canonical forms of their values. -/
def canonicalMembers : List (String × Json) → List (String × Json)
  | [] => []
  | (key, value) :: rest => (key, value.canonical) :: canonicalMembers rest

end

/-! ## Looking into a value -/

/-- The value of an object's member; none for a missing member and for anything but an object. -/
def get? (value : Json) (key : String) : Option Json :=
  match value with
  | .object members => (members.find? fun m => m.1 == key).map Prod.snd
  | _ => none

/-- The value of an object's member, null where there is none. -/
def get (value : Json) (key : String) : Json := (value.get? key).getD .null

/-- The first element of an array. -/
def first? : Json → Option Json
  | .array (element :: _) => some element
  | _ => none

/-- The text of a string. -/
def text? : Json → Option String
  | .string s => some s
  | _ => none

/-- The truth value. -/
def flag? : Json → Option Bool
  | .bool b => some b
  | _ => none

/-- The whole number that is not negative; a binary number is none, even without fraction. -/
def count? : Json → Option UInt64
  | .number (.whole n) => some n
  | _ => none

/-- The elements of an array. -/
def elements? : Json → Option (List Json)
  | .array elements => some elements
  | _ => none

/-- Whether the value is null. -/
def isNull : Json → Bool
  | .null => true
  | _ => false

/-- A member that is present and not null. -/
def present? (value : Json) (key : String) : Option Json :=
  (value.get? key).filter fun v => !v.isNull

/-- The text of a member, the empty text where the member is no string. -/
def textOrEmpty (value : Json) (key : String) : String := (value.get key).text?.getD ""

/-- The count of a member, zero where the member is no count. -/
def countOrZero (value : Json) (key : String) : UInt64 := (value.get key).count?.getD 0

/-! ## Making values -/

/-- A count as a value. -/
def ofCount (n : UInt64) : Json := .number (.whole n)

/-- Sets a member of an object. -/
def set (value : Json) (key : String) (member : Json) : Json :=
  match value with
  | .object members => .object (insertEntry key member members)
  | other => other

/-- An object from members of which some may be absent. -/
def ofMembers (members : List (Option (String × Json))) : Json := .object (members.filterMap id)

/-- A member that is there if it has a value. -/
def member? (key : String) (value : Option Json) : Option (String × Json) := value.map (key, ·)

/-- The empty object. -/
def emptyObject : Json := .object []

end Json

/-- Named values in key order. -/
abbrev Fields := Table String Json

/-- The fields as an object. -/
def Fields.toJson (fields : Fields) : Json := .object fields.entries

end ChatWire
