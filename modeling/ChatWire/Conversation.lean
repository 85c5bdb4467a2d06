import ChatWire.Error
import ChatWire.Message.Saved

/-!
# Conversations

A conversation is a list of messages that only grows. A provider reports token counts for an
exchange as a whole: the input count covers all that was sent, so the message before the reply is
charged with what no earlier message has been charged with, and the reply is charged with the output
count. Counts are added as words, and a sum that is too large for a word is an overflow.
-/

namespace ChatWire

/-- Messages in the order in which they were exchanged. -/
structure Conversation where
  /-- The messages. -/
  messages : List Message := []
deriving DecidableEq

/-- The sum of token counts. -/
def totalTokens (messages : List Message) : Except Error UInt64 :=
  messages.foldlM (fun n m => addCounts n m.tokenCount) 0

namespace Conversation

/-- The conversation with one more message. -/
def append (c : Conversation) (m : Message) : Conversation := ⟨c.messages ++ [m]⟩

/-- The messages with the last one charged with what an input count leaves for it; a count below
what the earlier ones have been charged with leaves nothing. -/
def chargeLast (messages : List Message) (input : UInt64) : Except Error (List Message) :=
  match messages.getLast? with
  | none => .ok []
  | some last => do
    let earlier := messages.dropLast
    let accounted ← totalTokens earlier
    return earlier ++ [{ last with tokenCount := saturatingSub input accounted }]

/-- The conversation with a reply and the counts that the provider reported with it. -/
def appendReply (c : Conversation) (m : Message) (input output : UInt64) :
    Except Error Conversation := do
  return ⟨(← chargeLast c.messages input) ++ [{ m with tokenCount := output }]⟩

/-- All tokens that messages have been charged with. -/
def total (c : Conversation) : Except Error UInt64 := totalTokens c.messages

/-- The messages that are sent to a provider. -/
def wireMessages (c : Conversation) : List Message := c.messages.filter fun m => m.role != .system

/-- Results in a list of blocks whose id is in no call of the list of ids. -/
def resultsWithout (calls : List String) (blocks : List Block) : List ToolResult :=
  (blocks.filterMap Block.toolResult?).filter fun r => !calls.contains r.id

/-- The results among messages that answer no call of the given ids or of their own message or one
before it. -/
def unmatchedFrom (calls : List String) : List Message → List ToolResult
  | [] => []
  | m :: rest =>
    let calls := calls ++ m.toolCalls.map ToolCall.id
    resultsWithout calls m.content ++ unmatchedFrom calls rest

/-- The results that answer no call made before them. A message's own calls count as before its
results, wherever they stand in it. -/
def unmatchedResults (c : Conversation) : List ToolResult := unmatchedFrom [] c.messages

/-- The stored form of a conversation: that of its messages, in order. -/
def saved (c : Conversation) : Json := .array (c.messages.map Message.saved)

/-- A conversation from its stored form. -/
def ofSaved? (v : Json) : Option Conversation :=
  (Json.listOf? Message.ofSaved? v).map fun messages => { messages }

end Conversation

end ChatWire
