import ChatWire.Error

/-!
# Request options

The parameters of a request that all providers share, and further fields that are put into the body
as they are. `Options.check` refuses settings that no provider accepts.
-/

namespace ChatWire

/-- A setting as a 32-bit number, which need not be finite. -/
inductive Setting where
  /-- Not a number. -/
  | undefined
  /-- Infinity with a sign. -/
  | infinite (negative : Bool)
  /-- A finite number. -/
  | finite (x : Single)
deriving DecidableEq

namespace Setting

/-- The number one. -/
def one : Setting := .finite ⟨false, 0x3F800000, by decide⟩

/-- A 64-bit number rounded to the 32-bit format; a number that is too large there becomes
infinite. -/
def ofDouble (x : Double) : Setting :=
  match x.convert? with
  | some y => .finite y
  | none => .infinite x.negative

/-- A number of a JSON text, rounded to the 64-bit format and from there to the 32-bit format. -/
def ofNumber (n : Number) : Setting :=
  let ofNat (negative : Bool) (n : Nat) : Setting :=
    match BinaryNumber.nearest? negative n 1 with
    | some x => ofDouble x
    | none => .infinite negative
  match n with
  | .whole n => ofNat false n.toNat
  | .minus n => ofNat true (n.val + 1)
  | .binary x => ofDouble x

/-- Settings are written without exponent, and whole ones without fraction. -/
def style : Decimal.Style where
  tie := .up
  positional _ := true
  keepsFraction := false

/-- The setting in words. -/
def text : Setting → String
  | .undefined => "NaN"
  | .infinite negative => if negative then "-inf" else "inf"
  | .finite x => String.ofList (x.text style)

/-- The setting in a request: the same number in the 64-bit format, null if it is not finite. -/
def toJson : Setting → Json
  | .finite x =>
    match x.convert? with
    | some y => .number (.binary y)
    | none => .null
  | _ => .null

/-- Whether a temperature lies between zero and two; minus zero does. -/
def isTemperature : Setting → Bool
  | .finite x => (x.isZero || !x.negative) && x.atMost 2
  | _ => false

/-- Whether a nucleus bound is positive and at most one. -/
def isTopP : Setting → Bool
  | .finite x => x.isPositive && x.atMost 1
  | _ => false

end Setting

/-- The parameters of a request. -/
structure Options where
  /-- The most output tokens. -/
  maxTokens : UInt64 := 16384
  /-- The sampling temperature. -/
  temperature : Setting := .one
  /-- The nucleus bound. -/
  topP : Option Setting := none
  /-- How many tokens are sampled from. -/
  topK : Option UInt32 := none
  /-- Texts at which generation stops. -/
  stopSequences : List String := []
  /-- The standing instructions. -/
  systemPrompt : Option String := none
  /-- Whether the reply is to be streamed. -/
  stream : Bool := false
  /-- Further fields of the body; they win over the fields that the library makes. -/
  extra : Fields := .empty

/-- Refuses settings that no provider accepts; the first fault counts. -/
def Options.check (o : Options) : Except Error Unit :=
  if o.maxTokens = 0 then .error (.setting .noTokens)
  else if !o.temperature.isTemperature then
    .error (.setting (.temperature o.temperature.text))
  else match o.topP.filter fun p => !p.isTopP with
    | some p => .error (.setting (.topP p.text))
    | none => .ok ()

end ChatWire
