import ChatWire.Stream.Assembly
import ChatWire.Stream.Translation

/-!
# Reading a streamed reply

A reader takes deliveries one by one and assembles the message. Before each it looks whether it has
been asked to stop; a request to stop is known by the number of frames that had been handed over
when it was made, so the reading that is under way then still gets its delivery.
-/

namespace ChatWire

/-- When a reader is asked to stop: never, or when so many frames have been handed over. -/
abbrev StopRequest := Option Nat

/-- Whether the request has been made when so many frames have been handed over. -/
def StopRequest.isMade (stop : StopRequest) (handed : Nat) : Bool := stop.any (· ≤ handed)

/-- How a reading ended, and how many frames had been handed over by then. -/
structure Reading where
  /-- The reply, or why there is none. -/
  result : Except Error Reply
  /-- How many frames had been handed over. -/
  handed : Nat

/-- Takes the deliveries that are left. A source that ends before the message does breaks the order
of events. -/
def readDeliveries (provider : Provider) (stop : StopRequest) (ending : Ending) (total : Nat)
    (a : Assembly) (handed : Nat) : List Delivery → Reading
  | [] =>
    if stop.isMade handed then ⟨.error .cancelled, handed⟩
    else match ending with
      | .stallsUntilStop => ⟨.error .cancelled, total⟩
      | .closes => ⟨.error (.violation (.endedIn a.phaseName)), total⟩
  | d :: rest =>
    if stop.isMade handed then ⟨.error .cancelled, handed⟩
    else match d.item with
      | .error e => ⟨.error e, d.handed⟩
      | .ok event =>
        match a.apply provider event with
        | (_, .error e) => ⟨.error e, d.handed⟩
        | (_, .ok (some reply)) => ⟨.ok reply, d.handed⟩
        | (a, .ok none) => readDeliveries provider stop ending total a d.handed rest

/-- Reads a reply from a stream of frames. -/
def readStream (provider : Provider) (ids : CallIds) (stop : StopRequest) (ending : Ending)
    (frames : List (Except Error Frame)) : Reading :=
  readDeliveries provider stop ending frames.length .waiting 0
    (deliveries provider ids ending frames)

/-- Reads a reply from a stream of frames that ends, without being asked to stop. -/
def readReply (provider : Provider) (ids : CallIds) (frames : List (Except Error Frame)) :
    Except Error Reply :=
  (readStream provider ids none .closes frames).result

/-- Assembles a reply from events. -/
def assemble (provider : Provider) (events : List (Except Error Event)) : Except Error Reply :=
  (readDeliveries provider none .closes 0 .waiting 0 (events.map fun e => ⟨0, e⟩)).result

end ChatWire
