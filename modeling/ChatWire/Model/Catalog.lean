import ChatWire.Model.Name
import ChatWire.Table

/-!
# Catalogs of models

What is known about models, kept by name with the time at which it was learned. Whether an entry is
still fresh is for the one who looks it up to say. Times are milliseconds.
-/

namespace ChatWire

/-- What is known about a model. -/
structure ModelInfo where
  /-- The model's name. -/
  name : String
  /-- Its provider. -/
  provider : Provider
  /-- What its name says. -/
  identity : ModelIdentity
  /-- How many tokens it takes in. -/
  contextWindow : Option UInt32 := none
  /-- How many tokens it gives at most. -/
  maxOutputTokens : Option UInt32 := none
  /-- When this was learned. -/
  learnedAt : Int
deriving DecidableEq

/-- What a model's name alone tells. -/
def ModelInfo.ofName (name : String) (now : Int) : ModelInfo where
  name := name
  provider := .ofModelName name
  identity := .ofName name
  learnedAt := now

/-- Whether knowledge is younger than a lifetime. -/
def ModelInfo.isFresh (info : ModelInfo) (lifetime now : Int) : Bool :=
  now - info.learnedAt < lifetime

/-- What is known about models, by name. -/
abbrev ModelCatalog := Table String ModelInfo

namespace ModelCatalog

/-- Enters knowledge under the model's name. -/
def put (c : ModelCatalog) (info : ModelInfo) : ModelCatalog := c.insert info.name info

/-- Looks a model up. Where nothing fresh is known, what its name tells is entered. -/
def resolve (c : ModelCatalog) (name : String) (lifetime now : Int) : ModelCatalog × ModelInfo :=
  match (c.find? name).filter fun info => info.isFresh lifetime now with
  | some info => (c, info)
  | none =>
    let info := ModelInfo.ofName name now
    (put c info, info)

end ModelCatalog

end ChatWire
