import ChatWire.Stream.Assembly
import Mathlib.Data.Finset.Sort

/-!
# Transcripts

A transcript is the list of the events of one streamed reply. This module says, without an assembly,
which transcripts are complete (`Transcript.IsComplete`) and which reply a complete one tells
(`Transcript.reply`).

Both are said block by block: a block is told by what happened at its own index alone, in the order
in which it happened, so the way in which the events of several blocks are interleaved cannot
matter.
-/

namespace ChatWire

/-! ## What happens to one block -/

/-- What an event does to a block. -/
inductive BlockStep where
  /-- The block begins. -/
  | opens (opening : Opening)
  /-- The block grows. -/
  | grows (fragment : Fragment)
  /-- The block ends. -/
  | stops
deriving DecidableEq

/-- The fragment by which a step grows the block. -/
def BlockStep.fragment? : BlockStep → Option Fragment
  | .grows fragment => some fragment
  | _ => none

namespace Event

/-- The index of the block that an event is about. -/
def index? : Event → Option Nat
  | .blockStart i _ | .blockDelta i _ | .blockStop i => some i
  | _ => none

/-- What an event does to the block at an index. -/
def stepAt? (i : Nat) : Event → Option BlockStep
  | .blockStart j opening => if j = i then some (.opens opening) else none
  | .blockDelta j fragment => if j = i then some (.grows fragment) else none
  | .blockStop j => if j = i then some .stops else none
  | _ => none

/-- Whether an event may stand between the beginning and the end of a message. -/
def isInner : Event → Bool
  | .messageStart .. | .messageStop | .failure .. => false
  | _ => true

/-- Who the message is from, where an event says so. -/
def sender? : Event → Option Role
  | .messageStart role _ => some role
  | _ => none

/-- The token counts that an event reports. -/
def usage? : Event → Option TokenUsage
  | .messageStart _ usage | .messageDelta _ _ usage => some usage
  | _ => none

/-- The word for why the message ends, where an event has one. -/
def stopWord? : Event → Option String
  | .messageDelta word _ _ => word
  | _ => none

/-- The stop sequence, where an event has one. -/
def stopSequence? : Event → Option String
  | .messageDelta _ sequence _ => sequence
  | _ => none

/-- What an event says that no block holds. -/
def note? : Event → Option (String × Json)
  | .metadata key value => some (key, value)
  | _ => none

theorem index?_of_stepAt? {i : Nat} {e : Event} {step : BlockStep} (h : e.stepAt? i = some step) :
    e.index? = some i := by
  cases e <;> simp_all [index?, stepAt?]

theorem exists_stepAt? {i : Nat} {e : Event} (h : e.index? = some i) :
    ∃ step, e.stepAt? i = some step := by
  cases e <;> simp_all [index?, stepAt?]

theorem stepAt?_eq_none {i : Nat} {e : Event} (h : e.index? ≠ some i) : e.stepAt? i = none := by
  cases e <;> simp_all [index?, stepAt?]

end Event

namespace Fragment

/-- The text of a fragment of text. -/
def text? : Fragment → Option String
  | .text s => some s
  | _ => none

/-- The text of a fragment of arguments. -/
def arguments? : Fragment → Option String
  | .arguments s => some s
  | _ => none

/-- The text of a fragment of reasoning. -/
def thinking? : Fragment → Option String
  | .thinking s => some s
  | _ => none

/-- The text of a fragment of a seal. -/
def signature? : Fragment → Option String
  | .signature s => some s
  | _ => none

/-- What the fragments of one kind spell together. -/
def spell (pick : Fragment → Option String) (fragments : List Fragment) : String :=
  String.join (fragments.filterMap pick)

/-- The arguments that fragments spell together; blank text stands for no arguments. -/
def spellArguments? (fragments : List Fragment) : Option Json :=
  if (spell arguments? fragments).toList.all isBlank then some Json.emptyObject
  else Json.read? (spell arguments? fragments)

@[simp] theorem spell_nil (pick : Fragment → Option String) : spell pick [] = "" := by
  simp [spell]

theorem spell_concat (pick : Fragment → Option String) (fragments : List Fragment) (f : Fragment) :
    spell pick (fragments ++ [f]) = spell pick fragments ++ (pick f).getD "" := by
  cases h : pick f <;> simp [spell, h, String.join_append]

end Fragment

namespace Opening

open Fragment (spell text? arguments? thinking? signature? spellArguments?)

/-- Whether a block that begins so takes a fragment. -/
def accepts : Opening → Fragment → Bool
  | _, .other _ => true
  | .unknown _, _ => true
  | .text _, .text _ => true
  | .toolCall .., .arguments _ => true
  | .thinking .., .thinking _ => true
  | .thinking .., .signature _ => true
  | _, _ => false

/-- Whether the block can be made: the arguments of a call are blank or JSON. -/
def IsReadable (o : Opening) (fragments : List Fragment) : Prop :=
  match o with
  | .toolCall .. => (spellArguments? fragments).isSome
  | _ => True

/-- The block that begins so and grows by the fragments; none for a block of unknown kind. -/
def block? (o : Opening) (fragments : List Fragment) : Option Block :=
  match o with
  | .text s => some (.text (s ++ spell text? fragments))
  | .toolCall id name =>
    (spellArguments? fragments).map fun arguments => .toolCall ⟨id, name, arguments⟩
  | .thinking s signature =>
    some (.thinking ⟨s ++ spell thinking? fragments, signature ++ spell signature? fragments⟩)
  | .redactedThinking data => some (.redactedThinking data)
  | .attachment a => some (.attachment a)
  | .unknown _ => none

end Opening

/-! ## Whole transcripts -/

namespace Transcript

/-- What happens to the block at an index, in order. -/
def stepsAt (i : Nat) (events : List Event) : List BlockStep := events.filterMap (Event.stepAt? i)

/-- The events without pings. -/
def quiet (events : List Event) : List Event := events.filter (· ≠ .ping)

/-- A block is whole if it begins once, then grows by fragments that it takes, then ends once, and
can be made. -/
def IsWhole (steps : List BlockStep) : Prop :=
  ∃ opening fragments, steps = .opens opening :: (fragments.map .grows ++ [.stops]) ∧
    (∀ f ∈ fragments, opening.accepts f) ∧ opening.IsReadable fragments

/-- A transcript is complete if, pings aside, it is the beginning of a message, then events about
its inside, then its end, and every block that occurs is whole. -/
structure IsComplete (events : List Event) : Prop where
  /-- The message begins, and then ends, once. -/
  framed : ∃ role usage inner,
    quiet events = .messageStart role usage :: (inner ++ [.messageStop]) ∧ ∀ e ∈ inner, e.isInner
  /-- Every block is whole. -/
  blocks : ∀ i, stepsAt i events ≠ [] → IsWhole (stepsAt i events)

/-- Who the message is from. -/
def sender (events : List Event) : Role := (events.findSome? Event.sender?).getD .assistant

/-- The counts of one kind that events report, in order. -/
def counts (events : List Event) (field : TokenUsage → UInt64) : List UInt64 :=
  (events.filterMap Event.usage?).map field

/-- The last count that is not zero, and zero where there is none. -/
def lastPositive (counts : List UInt64) : UInt64 :=
  ((counts.filter fun n => 0 < n).getLast?).getD 0

/-- The token counts, of each kind the last that is not zero. -/
def usage (events : List Event) : TokenUsage where
  input := lastPositive (counts events (·.input))
  output := lastPositive (counts events (·.output))
  cacheCreated := lastPositive (counts events (·.cacheCreated))
  cacheRead := lastPositive (counts events (·.cacheRead))

/-- The last word for why the message ends. -/
def stopWord? (events : List Event) : Option String := (events.filterMap Event.stopWord?).getLast?

/-- The last stop sequence. -/
def stopSequence? (events : List Event) : Option String :=
  (events.filterMap Event.stopSequence?).getLast?

/-- What no block holds; of several values under one key the last counts. -/
def metadata (events : List Event) : Fields := .ofList (events.filterMap Event.note?)

/-- The indices that occur, in ascending order. -/
def indices (events : List Event) : List Nat := (events.filterMap Event.index?).toFinset.sort

/-- The block at an index: what it begins with, followed by its own fragments in order. -/
def blockAt? (events : List Event) (i : Nat) : Option Block :=
  match stepsAt i events with
  | .opens opening :: steps => opening.block? (steps.filterMap BlockStep.fragment?)
  | _ => none

/-- The blocks by index, and the cache counts behind them if there are any. -/
def content (events : List Event) : List Block :=
  let created := (usage events).cacheCreated
  let read := (usage events).cacheRead
  (indices events).filterMap (blockAt? events)
    ++ if 0 < created || 0 < read then [.usage ⟨created, read⟩] else []

/-- The reply that a complete transcript tells. -/
def reply (provider : Provider) (events : List Event) : Reply :=
  let message : Message := {
    role := sender events
    content := content events
    metadata := (metadata events).insertAll
      ((stopSequence? events).map fun s => ("stop_sequence", Json.string s)).toList }
  ⟨{ message with
      stopReason := (stopWord? events).map fun word => .classifyFor provider word message },
    usage events⟩

@[simp] theorem stepsAt_nil (i : Nat) : stepsAt i [] = [] := rfl

@[simp] theorem stepsAt_append (i : Nat) (first second : List Event) :
    stepsAt i (first ++ second) = stepsAt i first ++ stepsAt i second := by
  simp [stepsAt]

@[simp] theorem stepsAt_cons (i : Nat) (e : Event) (rest : List Event) :
    stepsAt i (e :: rest) = (e.stepAt? i).toList ++ stepsAt i rest := by
  cases h : e.stepAt? i <;> simp [stepsAt, h]

/-- The block at an index whose events are those of a block from its beginning to its end. -/
theorem blockAt?_of_stepsAt {i : Nat} {events : List Event} {o : Opening} {fs : List Fragment}
    (h : stepsAt i events = .opens o :: (fs.map .grows ++ [.stops])) :
    blockAt? events i = o.block? fs := by
  have hfs : (fs.map BlockStep.grows ++ [BlockStep.stops]).filterMap BlockStep.fragment? = fs := by
    rw [List.filterMap_append, List.filterMap_map]
    simp [Function.comp_def, BlockStep.fragment?]
  simp only [blockAt?, h, hfs]

theorem sender_concat {e : Event} (h : e.sender? = none) (events : List Event) :
    sender (events ++ [e]) = sender events := by
  simp [sender, h]

theorem foldl_later (ns : List UInt64) : ns.foldl TokenUsage.later 0 = lastPositive ns := by
  induction ns using List.reverseRecOn with
  | nil => rfl
  | append_singleton ns n ih =>
    rw [List.foldl_concat, ih, TokenUsage.later, lastPositive, lastPositive, List.filter_append]
    by_cases hn : 0 < n <;> simp [hn]

theorem foldl_merge (us : List TokenUsage) (u : TokenUsage) : us.foldl .merge u = {
    input := (us.map (·.input)).foldl TokenUsage.later u.input
    output := (us.map (·.output)).foldl TokenUsage.later u.output
    cacheCreated := (us.map (·.cacheCreated)).foldl TokenUsage.later u.cacheCreated
    cacheRead := (us.map (·.cacheRead)).foldl TokenUsage.later u.cacheRead } := by
  induction us generalizing u with
  | nil => rfl
  | cons v rest ih => rw [List.foldl_cons, ih]; rfl

/-- The counts are the reports merged one after the other. -/
theorem usage_eq_foldl (events : List Event) :
    usage events = (events.filterMap Event.usage?).foldl .merge {} := by
  rw [foldl_merge]
  simp only [foldl_later, usage, counts]

theorem usage_concat (events : List Event) (e : Event) :
    usage (events ++ [e]) = (e.usage?.map (usage events).merge).getD (usage events) := by
  rw [usage_eq_foldl, usage_eq_foldl]
  cases h : e.usage? <;> simp [h]

theorem stopWord?_concat (events : List Event) (e : Event) :
    stopWord? (events ++ [e]) = e.stopWord?.or (stopWord? events) := by
  cases h : e.stopWord? <;> simp [stopWord?, h]

theorem stopSequence?_concat (events : List Event) (e : Event) :
    stopSequence? (events ++ [e]) = e.stopSequence?.or (stopSequence? events) := by
  cases h : e.stopSequence? <;> simp [stopSequence?, h]

theorem metadata_concat (events : List Event) (e : Event) :
    metadata (events ++ [e]) = (metadata events).insertAll e.note?.toList := by
  cases h : e.note? <;> simp [metadata, h, Table.ofList, Table.insertAll]

/-- An index occurs exactly if something happens there. -/
theorem mem_index_iff (i : Nat) (events : List Event) :
    i ∈ events.filterMap Event.index? ↔ stepsAt i events ≠ [] := by
  induction events with
  | nil => simp
  | cons e rest ih =>
    by_cases he : e.index? = some i
    · obtain ⟨step, hstep⟩ := Event.exists_stepAt? he
      simp [he, hstep]
    · simp only [List.filterMap_cons, stepsAt_cons, Event.stepAt?_eq_none he]
      cases h : e.index? with
      | none => simpa using ih
      | some j =>
        have hj : i ≠ j := fun hij => he (by rw [h, hij])
        simpa [hj] using ih

end Transcript

end ChatWire
