import ChatWire.Message.Basic

/-!
# Names of tool results

Some formats let a tool's result bear the id of its call only. The tool's name is then that of the
last call with the same id before it.
-/

namespace ChatWire

/-- The names of the tools called so far, by call id. -/
abbrev CallNames := Table String String

/-- Names a block's result if it has no name, and takes note of a block's call. -/
def nameResult (names : CallNames) : Block → CallNames × Block
  | .toolCall c => (names.insert c.id c.name, .toolCall c)
  | .toolResult r =>
    if r.name.isEmpty then
      (names, .toolResult { r with name := (names.find? r.id).getD r.name })
    else (names, .toolResult r)
  | block => (names, block)

/-- Names the results among blocks. -/
def nameResultsIn (names : CallNames) : List Block → CallNames × List Block
  | [] => (names, [])
  | block :: rest =>
    let (names, block) := nameResult names block
    let (names, rest) := nameResultsIn names rest
    (names, block :: rest)

/-- Names the results in messages, given the calls before them. -/
def nameResultsFrom (names : CallNames) : List Message → List Message
  | [] => []
  | m :: rest =>
    let (names, content) := nameResultsIn names m.content
    { m with content } :: nameResultsFrom names rest

/-- Gives every tool result without a name the name of the last call with its id that stands before
it. -/
def nameResults (messages : List Message) : List Message := nameResultsFrom .empty messages

end ChatWire
