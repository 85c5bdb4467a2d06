import ChatWire.Json.Record

/-!
# Tools

A tool that the model may call is declared by its name, a description and a schema of its arguments.
Every provider wants the declaration in a form of its own.
-/

namespace ChatWire

/-- The declaration of a tool. -/
structure Tool where
  /-- The name by which the model calls it. -/
  name : String
  /-- What it is good for. -/
  description : String := ""
  /-- The schema of its arguments. -/
  parameters : Json
deriving DecidableEq

namespace Tool

/-- The declaration with a schema of which the marks that providers refuse or do not need are left
out: the schema's version and its title. -/
def ofSchema (name description : String) (schema : Json) : Tool :=
  let parameters := match schema with
    | .object members => .object (members.filter fun m => m.1 != "$schema" && m.1 != "title")
    | other => other
  { name, description, parameters }

/-- The declarations of bare schemas, in the order of their names and without descriptions. -/
def ofSchemas (schemas : Fields) : List Tool :=
  schemas.entries.map fun s => { name := s.1, parameters := s.2 }

/-- The declaration for the Anthropic format. -/
def toAnthropic (t : Tool) : Json :=
  .object [("description", .string t.description), ("input_schema", t.parameters),
    ("name", .string t.name)]

/-- The declaration for the Gemini format. -/
def toGemini (t : Tool) : Json :=
  .object [("description", .string t.description), ("name", .string t.name),
    ("parameters", t.parameters)]

/-- The declaration for the chat-completions format. -/
def toOpenAI (t : Tool) : Json :=
  .object [("function", t.toGemini), ("type", .string "function")]

/-- The stored form of a declaration. -/
def saved (t : Tool) : Json := t.toGemini

/-- A declaration from its stored form. -/
def ofSaved? (v : Json) : Option Tool := do
  let ms ← Json.recordMembers? ["name", "description", "parameters"] v
  return { name := ← Json.required? ms "name" Json.text?
           description := ← Json.optional? ms "description" "" Json.text?
           parameters := ← Json.required? ms "parameters" some }

end Tool

end ChatWire
