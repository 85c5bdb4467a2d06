import ChatWire.Conversation
import ChatWire.Dialect.Request
import ChatWire.Stream.Reading

/-!
# Sessions

A session holds a conversation with one model. A turn makes a request of the conversation and one
more message, and what comes back is recorded together with that message, unless the turn failed or
the provider withheld the reply: then the conversation stays as it was. Only where recording itself
comes to an overflow is the message there without its reply.
-/

namespace ChatWire

/-- A conversation with one model of one provider. -/
structure Session where
  /-- The provider. -/
  provider : Provider
  /-- The model. -/
  model : String
  /-- The conversation so far. -/
  conversation : Conversation
  /-- The tools that the model may call. -/
  tools : List Tool
  /-- The parameters of requests. -/
  options : Options

/-- How a session is set up. -/
structure SessionSetup where
  /-- The provider. -/
  provider : Provider
  /-- The model. -/
  model : String
  /-- The standing instructions; they win over those in the options. -/
  systemPrompt : String := "You are a helpful assistant."
  /-- The tools that the model may call. -/
  tools : List Tool := []
  /-- The parameters of requests. -/
  options : Options := {}
  /-- An earlier conversation to go on with. -/
  history : Conversation := {}

/-- The session of a setup. A new conversation begins with the standing instructions. -/
def SessionSetup.start (s : SessionSetup) : Session where
  provider := s.provider
  model := s.model
  conversation :=
    if s.history.messages.isEmpty then s.history.append (.ofText .system s.systemPrompt)
    else s.history
  tools := s.tools
  options := { s.options with systemPrompt := some s.systemPrompt }

/-- What came of a turn. -/
structure Turn where
  /-- The session after it. -/
  session : Session
  /-- The body that was sent, if the turn came that far. -/
  request : Option Json
  /-- The outcome, or why there is none. -/
  result : Except Error Outcome

namespace Session

/-- The body of a request with one more message. -/
def requestBody (s : Session) (pending : Message) (stream : Bool) : Except Error Json :=
  Request.body s.provider s.model (s.conversation.messages ++ [pending]) s.tools
    { s.options with stream }

/-- Records a sent message and its reply, unless the reply was withheld. The message is appended
before the counts are added up. -/
def settle (s : Session) (sent : Message) (reply : Reply) : Session × Except Error Outcome :=
  let outcome := Outcome.ofMessage reply.message
  match outcome.message? with
  | none => (s, .ok outcome)
  | some m =>
    let pending := s.conversation.append sent
    match pending.appendReply m reply.usage.totalInput reply.usage.output with
    | .error e => ({ s with conversation := pending }, .error e)
    | .ok conversation => ({ s with conversation }, .ok outcome)

/-- A turn in which the message is sent and `receive` gives the reply. -/
def exchange (s : Session) (message : Message) (stream : Bool)
    (receive : Except Error Reply) : Turn :=
  match s.requestBody message stream with
  | .error e => ⟨s, none, .error e⟩
  | .ok body =>
    match receive with
    | .error e => ⟨s, some body, .error e⟩
    | .ok reply =>
      let (s, outcome) := s.settle message reply
      ⟨s, some body, outcome⟩

/-- A turn whose reply comes as one body, with ids for calls that come without one. -/
def send (s : Session) (ids : CallIds) (message : Message) (response : Except Error Bytes) : Turn :=
  s.exchange message false (response.bind (s.provider.decodeReply ids))

/-- A turn whose reply is streamed, read until the reader is asked to stop. -/
def sendStream (s : Session) (ids : CallIds) (message : Message) (stop : StopRequest)
    (ending : Ending) (frames : List (Except Error Frame)) : Turn :=
  s.exchange message true (readStream s.provider ids stop ending frames).result

end Session

end ChatWire
