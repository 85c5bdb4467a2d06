import ChatWire.Dialect.Anthropic
import ChatWire.Dialect.Gemini
import ChatWire.Dialect.OpenAI
import ChatWire.Dialect.Ollama
import ChatWire.Message.ResultNames
import ChatWire.Options
import ChatWire.Tool

/-!
# Requests

A dialect is a provider's format as a whole: writing and reading messages, reading replies, and
making the body of a request. A request carries the conversation without its standing instructions,
which travel apart as the system prompt, and without cache counts; results of tools are named first.
-/

namespace ChatWire

namespace Provider

/-- Writes a message in the provider's format. -/
def encodeMessage : Provider → Message → Except Error Json
  | .anthropic => Anthropic.encodeMessage
  | .gemini => Gemini.encodeMessage
  | .openai => OpenAI.encodeMessage
  | .ollama => Ollama.encodeMessage

/-- Reads a message in the provider's format, with ids for calls that come without one. -/
def decodeMessage (p : Provider) (ids : CallIds) : Json → Except Error Message :=
  match p with
  | .anthropic => Anthropic.decodeMessage
  | .gemini => Gemini.decodeMessage ids
  | .openai => OpenAI.decodeMessage
  | .ollama => Ollama.decodeMessage

/-- Reads messages in the provider's format, each with ids of its own. -/
def decodeMessages (p : Provider) (ids : Nat → CallIds) : List Json → Except Error (List Message)
  | [] => .ok []
  | value :: rest => do
    let m ← p.decodeMessage (ids 0) value
    return m :: (← p.decodeMessages (fun i => ids (i + 1)) rest)

/-- Reads a complete reply of the provider, with ids for calls that come without one. -/
def decodeReply (p : Provider) (ids : CallIds) : Bytes → Except Error Reply :=
  match p with
  | .anthropic => Anthropic.decodeReply
  | .gemini => Gemini.decodeReply ids
  | .openai => OpenAI.decodeReply
  | .ollama => Ollama.decodeReply

/-- Writes a message as bytes. -/
def encode (p : Provider) (m : Message) : Except Error Bytes := do
  return Bytes.ofString (← p.encodeMessage m).toText

/-- Reads a message from bytes. -/
def decode (p : Provider) (ids : CallIds) (body : Bytes) : Except Error Message := do
  p.decodeMessage ids (← Dialect.parseBody p body)

end Provider

namespace Request

/-- The messages that a request carries. -/
def outbound (messages : List Message) : List Message :=
  nameResults ((messages.filter fun m => m.role != .system).map Message.withoutUsage)

/-- A message from tools as several, each with one block; any other message alone. -/
def splitResults (m : Message) : List Message :=
  if m.role = .tool && 1 < m.content.length then
    m.content.map fun block => { role := .tool, content := [block] }
  else [m]

/-- The system prompt as the first of the messages, if there is one. -/
def leadingPrompt (o : Options) : List Json :=
  (o.systemPrompt.map fun prompt =>
    Json.object [("content", .string prompt), ("role", .string "system")]).toList

/-- A member of texts that is there if there are any. -/
def textsMember (key : String) (texts : List String) : Option (String × Json) :=
  if texts.isEmpty then none else some (key, .array (texts.map .string))

/-- The nucleus bound as a member. -/
def topPMember (o : Options) : Option (String × Json) :=
  Json.member? "top_p" (o.topP.map Setting.toJson)

/-- The number of tokens to sample from as a member. -/
def topKMember (o : Options) : Option (String × Json) :=
  Json.member? "top_k" (o.topK.map fun k => Json.ofCount k.toUInt64)

/-- Declarations of tools as a member. -/
def toolsMember (tools : List Tool) (declare : List Tool → Json) : Option (String × Json) :=
  if tools.isEmpty then none else some ("tools", declare tools)

/-- The body for the Anthropic format. -/
def anthropicBody (model : String) (messages : List Json) (tools : List Tool) (o : Options) :
    Json :=
  Json.ofMembers [
    some ("max_tokens", Json.ofCount o.maxTokens),
    some ("messages", .array messages),
    some ("model", .string model),
    textsMember "stop_sequences" o.stopSequences,
    if o.stream then some ("stream", .bool true) else none,
    Json.member? "system" (o.systemPrompt.map .string),
    some ("temperature", o.temperature.toJson),
    toolsMember tools fun tools => .array (tools.map Tool.toAnthropic),
    topKMember o,
    topPMember o]

/-- The body for the Gemini format. -/
def geminiBody (messages : List Json) (tools : List Tool) (o : Options) : Json :=
  let generation := Json.ofMembers [
    some ("max_output_tokens", Json.ofCount o.maxTokens),
    textsMember "stop_sequences" o.stopSequences,
    some ("temperature", o.temperature.toJson),
    topKMember o,
    topPMember o]
  let instruction (prompt : String) : Json :=
    .object [("parts", .array [.object [("text", .string prompt)]])]
  let declare (tools : List Tool) : Json :=
    .array [.object [("function_declarations", .array (tools.map Tool.toGemini))]]
  Json.ofMembers [
    some ("contents", .array messages),
    some ("generation_config", generation),
    Json.member? "system_instruction" (o.systemPrompt.map instruction),
    toolsMember tools declare]

/-- The body for the chat-completions format, which has no place for `topK`. -/
def openaiBody (model : String) (messages : List Json) (tools : List Tool) (o : Options) : Json :=
  Json.ofMembers [
    some ("max_completion_tokens", Json.ofCount o.maxTokens),
    some ("messages", .array messages),
    some ("model", .string model),
    textsMember "stop" o.stopSequences,
    if o.stream then some ("stream", .bool true) else none,
    if o.stream then some ("stream_options", .object [("include_usage", .bool true)]) else none,
    some ("temperature", o.temperature.toJson),
    toolsMember tools fun tools => .array (tools.map Tool.toOpenAI),
    topPMember o]

/-- The body for the local chat format. -/
def ollamaBody (model : String) (messages : List Json) (o : Options) : Json :=
  let settings := Json.ofMembers [
    some ("num_predict", Json.ofCount o.maxTokens),
    textsMember "stop" o.stopSequences,
    some ("temperature", o.temperature.toJson),
    topKMember o,
    topPMember o]
  .object [("messages", .array messages), ("model", .string model), ("options", settings),
    ("stream", .bool o.stream)]

/-- The body with further fields set. -/
def addExtra (body : Json) (extra : Fields) : Json :=
  extra.entries.foldl (fun body field => body.set field.1 field.2) body

/-- The body that carries a conversation, before further fields are set. -/
def conversationBody (provider : Provider) (model : String) (messages : List Message)
    (tools : List Tool) (o : Options) : Except Error Json :=
  match provider with
  | .anthropic => do
    return anthropicBody model (← (outbound messages).mapM Anthropic.encodeMessage) tools o
  | .gemini => do
    return geminiBody (← (outbound messages).mapM Gemini.encodeMessage) tools o
  | .openai => do
    let encoded ← ((outbound messages).flatMap splitResults).mapM OpenAI.encodeMessage
    return openaiBody model (leadingPrompt o ++ encoded) tools o
  | .ollama =>
    if !tools.isEmpty then .error (.unsupported .ollama .toolDeclarations)
    else do
      return ollamaBody model
        (leadingPrompt o ++ (← (outbound messages).mapM Ollama.encodeMessage)) o

/-- The body of a request. -/
def body (provider : Provider) (model : String) (messages : List Message) (tools : List Tool)
    (o : Options) : Except Error Json := do
  o.check
  return addExtra (← conversationBody provider model messages tools o) o.extra

end Request

end ChatWire
