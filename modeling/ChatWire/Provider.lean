/-!
# Providers

The vendors whose message formats this library speaks.
-/

namespace ChatWire

/-- A vendor of language models. -/
inductive Provider where
  /-- The Messages format. -/
  | anthropic
  /-- The generate-content format. -/
  | gemini
  /-- The chat-completions format. -/
  | openai
  /-- The local chat format. -/
  | ollama
deriving DecidableEq, Repr

namespace Provider

/-- Every provider. -/
def all : List Provider := [.anthropic, .gemini, .openai, .ollama]

/-- The name by which a provider is known. -/
def name : Provider → String
  | .anthropic => "anthropic"
  | .gemini => "gemini"
  | .openai => "openai"
  | .ollama => "ollama"

/-- The provider of a name. -/
def ofName? (name : String) : Option Provider := all.find? fun p => p.name == name

/-- A provider is found under its own name. -/
theorem ofName?_name (p : Provider) : ofName? p.name = some p := by cases p <;> decide

end Provider

end ChatWire
