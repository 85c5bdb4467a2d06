/-!
# Ids for tool calls

The result of a tool bears the id of the call that it answers. Where a provider gives a call without
an id, the reader makes one up. How it does so is left open: a reader is handed a supply of ids, and
nothing is asked of a supply, not even that its ids differ.
-/

namespace ChatWire

/-- A supply of ids for the calls of one message that come without one. -/
structure CallIds where
  /-- The id for the call in a block. -/
  ofPlace : Nat → String

/-- The supply that numbers the blocks. -/
def CallIds.numbered : CallIds := ⟨fun place => "call_" ++ toString place⟩

end ChatWire
