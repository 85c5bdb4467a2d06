import ChatWire.Error
import ChatWire.Json.Parser
import ChatWire.Message.Outcome
import ChatWire.Stream.Event
import ChatWire.Text.Blank

/-!
# Assembly

An assembly takes the events of a reply one by one and gives the message when it ends. Blocks may be
open side by side, and the message lists them by index. An event out of order and an error of the
provider make the assembly fail; what it had is then lost, and like a complete one it takes nothing
more but pings.
-/

namespace ChatWire

/-- A block that is not complete. -/
inductive OpenBlock where
  /-- A text so far. -/
  | text (text : String)
  /-- A tool call with the JSON text of its arguments so far. -/
  | toolCall (id : String) (name : String) (arguments : String)
  /-- Reasoning so far. -/
  | thinking (text : String) (signature : String)
  /-- Sealed reasoning. -/
  | redactedThinking (data : String)
  /-- Media. -/
  | attachment (attachment : Attachment)
  /-- A block of unknown kind, whose content is dropped. -/
  | unknown (kind : String)
deriving DecidableEq

namespace OpenBlock

/-- The block as it begins. -/
def ofOpening : Opening → OpenBlock
  | .text s => .text s
  | .toolCall id name => .toolCall id name ""
  | .thinking s signature => .thinking s signature
  | .redactedThinking data => .redactedThinking data
  | .attachment a => .attachment a
  | .unknown kind => .unknown kind

/-- What the block is called when it is spoken about. -/
def kindName : OpenBlock → String
  | .text _ => "text"
  | .toolCall .. => "tool call"
  | .thinking .. => "thinking"
  | .redactedThinking _ => "redacted thinking"
  | .attachment _ => "attachment"
  | .unknown kind => kind

/-- The block grown by a fragment; none if it does not take such fragments. Fragments of unknown
kind change no block, and a block of unknown kind is changed by none. -/
def grow? : OpenBlock → Fragment → Option OpenBlock
  | .text s, .text more => some (.text (s ++ more))
  | .toolCall id name arguments, .arguments more => some (.toolCall id name (arguments ++ more))
  | .thinking s signature, .thinking more => some (.thinking (s ++ more) signature)
  | .thinking s signature, .signature more => some (.thinking s (signature ++ more))
  | block, .other _ => some block
  | .unknown kind, _ => some (.unknown kind)
  | _, _ => none

/-- The arguments of a call from their text, where blank text stands for none. -/
def readArguments? (text : String) : Option Json :=
  if text.toList.all isBlank then some Json.emptyObject else Json.read? text

/-- The complete block; none for a block of unknown kind. -/
def close (provider : Provider) : OpenBlock → Except Error (Option Block)
  | .text s => .ok (some (.text s))
  | .toolCall id name json =>
    match readArguments? json with
    | some arguments => .ok (some (.toolCall ⟨id, name, arguments⟩))
    | none => .error (.malformed provider .streamedArguments json)
  | .thinking s signature => .ok (some (.thinking ⟨s, signature⟩))
  | .redactedThinking data => .ok (some (.redactedThinking data))
  | .attachment a => .ok (some (.attachment a))
  | .unknown _ => .ok none

end OpenBlock

/-- The place of a block in a message that is not complete. -/
inductive Slot where
  /-- The block is open. -/
  | opened (block : OpenBlock)
  /-- The block is complete, or dropped. -/
  | closed (block : Option Block)
deriving DecidableEq

/-- The complete block of a slot. -/
def Slot.block? : Slot → Option Block
  | .opened _ => none
  | .closed block => block

/-- Whether the block of a slot is open. -/
def Slot.isOpen : Slot → Bool
  | .opened _ => true
  | .closed _ => false

/-- A message that has begun and not ended. -/
structure Draft where
  /-- Who it is from. -/
  role : Role
  /-- The token counts so far. -/
  usage : TokenUsage
  /-- The blocks so far by index. -/
  slots : Table Nat Slot := .empty
  /-- The provider's word for why the message ends. -/
  stopReason : Option String := none
  /-- The stop sequence at which generation stopped. -/
  stopSequence : Option String := none
  /-- What no block holds. -/
  metadata : Fields := .empty
deriving DecidableEq

namespace Draft

/-- An error about the order of events. -/
def violation {α : Type} (v : Violation) : Except Error α := .error (.violation v)

/-- Begins a block. -/
def openBlock (d : Draft) (index : Nat) (opening : Opening) : Except Error Draft :=
  match d.slots.find? index with
  | some _ => violation (.openedTwice index)
  | none => .ok { d with slots := d.slots.insert index (.opened (.ofOpening opening)) }

/-- Grows a block. -/
def growBlock (d : Draft) (index : Nat) (fragment : Fragment) : Except Error Draft :=
  match d.slots.find? index with
  | none => violation (.fragmentForUnopened index)
  | some (.closed _) => violation (.fragmentForClosed index)
  | some (.opened block) =>
    match block.grow? fragment with
    | some block => .ok { d with slots := d.slots.insert index (.opened block) }
    | none => violation (.fragmentMismatch fragment.kindName block.kindName index)

/-- Ends a block. -/
def closeBlock (provider : Provider) (d : Draft) (index : Nat) : Except Error Draft :=
  match d.slots.find? index with
  | none => violation (.stopForUnopened index)
  | some (.closed _) => violation (.stoppedTwice index)
  | some (.opened block) => do
    return { d with slots := d.slots.insert index (.closed (← block.close provider)) }

/-- The index of the first open block. -/
def firstOpen? (d : Draft) : Option Nat :=
  (d.slots.entries.find? fun e => e.2.isOpen).map Prod.fst

/-- The complete blocks by index, and the cache counts behind them if there are any. -/
def content (d : Draft) : List Block :=
  let cache := d.usage.cache
  d.slots.entries.filterMap (fun e => e.2.block?)
    ++ if 0 < cache.created || 0 < cache.read then [.usage cache] else []

/-- The message and its token counts, when all blocks are complete. -/
def reply (provider : Provider) (d : Draft) : Reply :=
  let message : Message := { role := d.role, content := d.content, metadata := d.metadata }
  let stopReason := d.stopReason.map fun word => StopReason.classifyFor provider word message
  let metadata := match d.stopSequence with
    | some sequence => d.metadata.insert "stop_sequence" (.string sequence)
    | none => d.metadata
  ⟨{ message with stopReason, metadata }, d.usage⟩

/-- Ends the message. -/
def conclude (provider : Provider) (d : Draft) : Except Error Reply :=
  match d.firstOpen? with
  | some index => violation (.stopWhileOpen index)
  | none => .ok (d.reply provider)

/-- Takes note of news about the whole message; what they leave out stays. -/
def noteDelta (d : Draft) (stopReason stopSequence : Option String) (usage : TokenUsage) : Draft :=
  { d with
    stopReason := stopReason.or d.stopReason
    stopSequence := stopSequence.or d.stopSequence
    usage := d.usage.merge usage }

end Draft

/-- How far the assembly of a message has come. -/
inductive Assembly where
  /-- The message has not begun. -/
  | waiting
  /-- The message has begun. -/
  | drafting (draft : Draft)
  /-- The message has ended. -/
  | complete
  /-- The assembly has failed. -/
  | failed
deriving DecidableEq

namespace Assembly

/-- What a stage is called. -/
def phaseName : Assembly → String
  | .waiting => "AwaitStart"
  | .drafting _ => "Accumulating"
  | .complete => "Complete"
  | .failed => "Failed"

/-- Whether nothing can change the assembly any more. -/
def isTerminal : Assembly → Bool
  | .complete | .failed => true
  | _ => false

/-- What an event makes of a draft: the next stage, and the message if it has ended. -/
def advance (provider : Provider) (d : Draft) : Event → Except Error (Assembly × Option Reply)
  | .ping => .ok (.drafting d, none)
  | .failure kind message => .error (.reported kind message)
  | .messageStart .. => .error (.violation .duplicateStart)
  | .blockStart index opening => do return (.drafting (← d.openBlock index opening), none)
  | .blockDelta index fragment => do return (.drafting (← d.growBlock index fragment), none)
  | .blockStop index => do return (.drafting (← d.closeBlock provider index), none)
  | .messageDelta stopReason stopSequence usage =>
    .ok (.drafting (d.noteDelta stopReason stopSequence usage), none)
  | .metadata key value => .ok (.drafting { d with metadata := d.metadata.insert key value }, none)
  | .messageStop => do return (.complete, some (← d.conclude provider))

/-- What an event makes of an assembly that has not begun. -/
def begin : Event → Except Error Assembly
  | .ping => .ok .waiting
  | .failure kind message => .error (.reported kind message)
  | .messageStart role usage => .ok (.drafting { role, usage })
  | event => .error (.violation (.beforeStart event.kindName))

/-- Takes an event: the message, if it has ended with it. An error makes the assembly fail. Pings
are welcome at any time. -/
def apply (provider : Provider) (a : Assembly) (event : Event) :
    Assembly × Except Error (Option Reply) :=
  if event = .ping then (a, .ok none)
  else match a with
    | .waiting =>
      match begin event with
      | .ok a => (a, .ok none)
      | .error e => (.failed, .error e)
    | .drafting d =>
      match advance provider d event with
      | .ok (a, reply) => (a, .ok reply)
      | .error e => (.failed, .error e)
    | .complete => (.complete, .error (.violation (.afterEnd a.phaseName)))
    | .failed => (.failed, .error (.violation (.afterEnd a.phaseName)))

end Assembly

end ChatWire
