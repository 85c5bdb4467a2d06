import ChatWire.Error
import ChatWire.Json.Parser
import ChatWire.Message.Basic
import ChatWire.Text.Base64

/-!
# Reading a provider's values

What the readers of all formats share: a member that has to be a string, media in base64, and a body
that has to be JSON. Of the writers only those share something whose formats know two speakers.
-/

namespace ChatWire.Dialect

/-- The text of a member that has to be a string. -/
def requireText (provider : Provider) (value : Json) (key : String) : Except Error String :=
  match (value.get key).text? with
  | some s => .ok s
  | none => .error (.malformedValue provider (.missingText key) value)

/-- The bytes of media. -/
def requireBase64 (provider : Provider) (encoded : String) : Except Error Bytes :=
  match Base64.decodeText? encoded with
  | some bytes => .ok bytes
  | none => .error (.malformed provider .base64 encoded)

/-- The value of a body. -/
def parseBody (provider : Provider) (body : Bytes) : Except Error Json :=
  match Json.readBytes? body with
  | some value => .ok value
  | none => .error (.malformed provider .body body.lenientText)

/-- The name of a role in a format in which only the user and the model speak, and a tool speaks for
the user. -/
def encodeSpeaker (provider : Provider) (model : String) : Role → Except Error String
  | .user | .tool => .ok "user"
  | .assistant => .ok model
  | .system => .error (.unsupported provider .systemMessage)

/-- The arguments of a tool call, of which null stands for none. -/
def argumentsOf : Json → Json
  | .null => Json.emptyObject
  | arguments => arguments

end ChatWire.Dialect
