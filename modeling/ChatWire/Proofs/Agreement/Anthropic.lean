import ChatWire.Dialect.Anthropic
import ChatWire.Proofs.Agreement.AnthropicEvents
import ChatWire.Proofs.Agreement.Basic
import ChatWire.Proofs.Dialect.Basic
import ChatWire.Proofs.Json.Reprint
import ChatWire.Proofs.Stream.Success

/-!
# Streams and bodies in the Anthropic format

The events of a stream say the blocks of a message in pieces, the pieces of different blocks mixed
(`Anthropic.IsStreamed`); a body says them whole (`Anthropic.IsBody`). The replies that are read
from the two agree but for the cache marks of blocks (`Anthropic.BearsMark`), which only a body
keeps (`Anthropic.events_agree_with_body`).
-/

namespace ChatWire.Anthropic

open Dialect (requireText_eq_ok)
open Fragment (spell text? arguments? thinking? signature?)
open Transcript (counts lastPositive stepsAt)

/-! ## What streams and bodies say -/

/-- The frames say the events, one by one; those of unknown types say nothing. -/
inductive Say : List Frame → List Event → Prop where
  | nil : Say [] []
  | event {frame : Frame} {v : Json} {e : Event} {frames : List Frame} {events : List Event}
      (hread : Json.tree? frame.data = some v) (hsaid : Says v (some e))
      (hrest : Say frames events) : Say (frame :: frames) (e :: events)
  | nothing {frame : Frame} {v : Json} {frames : List Frame} {events : List Event}
      (hread : Json.tree? frame.data = some v) (hsaid : Says v none) (hrest : Say frames events) :
      Say (frame :: frames) events

/-- A block with its index: what it begins with, and what it grows by. -/
abbrev StreamedBlock : Type := Nat × Opening × List Fragment

/-- The events of a message before its end. Each of the blocks begins, grows and ends at its own
index, the events of different blocks mixed in any way. -/
structure IsStreamed (events : List Event) (blocks : List StreamedBlock) : Prop where
  framed : ∃ usage inner, Transcript.quiet events = .messageStart .assistant usage :: inner ∧
    ∀ e ∈ inner, e.isInner
  ascending : (blocks.map Prod.fst).Pairwise (· < ·)
  steps : ∀ b ∈ blocks, stepsAt b.1 events = .opens b.2.1 :: (b.2.2.map .grows ++ [.stops])
  accepted : ∀ b ∈ blocks, ∀ f ∈ b.2.2, b.2.1.accepts f
  nothing : ∀ i, i ∉ blocks.map Prod.fst → stepsAt i events = []

/-- A block of a body says as a whole what a block of a stream says in pieces. Either may bear more
than that, such as a cache mark. -/
inductive IsBlock (block : Json) : Opening → List Fragment → Prop where
  | text {s : String} {fs : List Fragment} (htype : block.get "type" = .string "text")
      (htext : block.get "text" = .string (s ++ spell text? fs)) : IsBlock block (.text s) fs
  | toolUse {id name : String} {fs : List Fragment}
      (htype : block.get "type" = .string "tool_use") (hid : block.get "id" = .string id)
      (hname : block.get "name" = .string name) (hinput : block.get "input" ≠ .null)
      (hspell : spell arguments? fs = "" ∧ block.get "input" = Json.emptyObject ∨
        Json.read? (spell arguments? fs) = some (block.get "input")) :
      IsBlock block (.toolCall id name) fs
  | thinking {s signature : String} {fs : List Fragment}
      (htype : block.get "type" = .string "thinking")
      (hthinking : block.get "thinking" = .string (s ++ spell thinking? fs))
      (hsignature : block.textOrEmpty "signature" = signature ++ spell signature? fs) :
      IsBlock block (.thinking s signature) fs
  | redactedThinking {data : String} {fs : List Fragment}
      (htype : block.get "type" = .string "redacted_thinking")
      (hdata : block.get "data" = .string data) : IsBlock block (.redactedThinking data) fs
  | unknown {kind tag : String} {fs : List Fragment} (htype : block.get "type" = .string tag)
      (htag : tag ∉ ["text", "image", "document", "tool_use", "tool_result", "thinking",
        "redacted_thinking"]) : IsBlock block (.unknown kind) fs

/-- A block of a type that a stream can bring bears a cache mark. Blocks of unknown types are
dropped with their marks. -/
def BearsMark (block : Json) : Prop :=
  (∃ tag ∈ ["text", "tool_use", "thinking", "redacted_thinking"], block.get "type" = .string tag) ∧
    (block.get? "cache_control").isSome

instance : DecidablePred BearsMark := fun _ => inferInstanceAs (Decidable (_ ∧ _))

/-- A body says what the events of a stream say. -/
structure IsBody (value : Json) (events : List Event) (blocks : List StreamedBlock) : Prop where
  notError : value.get "type" ≠ .string "error"
  role : value.get "role" = .string "assistant"
  content : ∃ wholes, value.get "content" = .array wholes ∧
    List.Forall₂ (fun b whole => IsBlock whole b.2.1 b.2.2) blocks wholes
  stopSequence : (value.get "stop_sequence").text? = Transcript.stopSequence? events
  input : (value.get "usage").countOrZero "input_tokens" = lastPositive (counts events (·.input))
  output : (value.get "usage").countOrZero "output_tokens"
    = lastPositive (counts events (·.output))
  cacheCreated : (value.get "usage").countOrZero "cache_creation_input_tokens"
    = lastPositive (counts events (·.cacheCreated))
  cacheRead : (value.get "usage").countOrZero "cache_read_input_tokens"
    = lastPositive (counts events (·.cacheRead))

theorem decodeUsage_eq {value : Json} {events : List Event} {blocks : List StreamedBlock}
    (h : IsBody value events blocks) :
    decodeUsage (value.get "usage") = Transcript.usage events := by
  rw [Transcript.usage, decodeUsage, h.input, h.output, h.cacheCreated, h.cacheRead]

/-! ## The blocks of the body -/

section Blocks

variable {block : Json} {o : Opening} {fs : List Fragment}

/-- The arguments that fragments spell are the input of the whole block. -/
theorem spellArguments?_eq {input : Json} (h : spell arguments? fs = "" ∧ input = Json.emptyObject ∨
    Json.read? (spell arguments? fs) = some input) : Fragment.spellArguments? fs = some input := by
  rw [← Opening.readArguments?_spell]
  rcases h with ⟨hempty, rfl⟩ | hread
  · rw [hempty]
    rfl
  · exact OpenBlock.readArguments?_of_read? hread

theorem IsBlock.isReadable (h : IsBlock block o fs) : o.IsReadable fs := by
  cases h with
  | toolUse htype hid hname hinput hspell =>
    change (Fragment.spellArguments? fs).isSome
    rw [spellArguments?_eq hspell]
    rfl
  | _ => trivial

/-- A whole block is read as the block that the pieces make. -/
theorem decodeBlock_of_isBlock (h : IsBlock block o fs) :
    decodeBlock block = .ok (o.block? fs) := by
  cases h with
  | text htype htext =>
    have htype' : textOf block "type" = .ok "text" := requireText_eq_ok htype
    have htext' : textOf block "text" = .ok _ := requireText_eq_ok htext
    rw [decodeBlock, htype']
    simp only [bind, Except.bind, htext']
    rfl
  | toolUse htype hid hname hinput hspell =>
    have htype' : textOf block "type" = .ok "tool_use" := requireText_eq_ok htype
    have hid' : textOf block "id" = .ok _ := requireText_eq_ok hid
    have hname' : textOf block "name" = .ok _ := requireText_eq_ok hname
    have harguments : Dialect.argumentsOf (block.get "input") = block.get "input" := by
      unfold Dialect.argumentsOf
      split
      case h_1 hnull => exact absurd hnull hinput
      case h_2 => rfl
    rw [decodeBlock, htype']
    simp only [bind, Except.bind, hid', hname', harguments, Opening.block?,
      spellArguments?_eq hspell]
    rfl
  | thinking htype hthinking hsignature =>
    have htype' : textOf block "type" = .ok "thinking" := requireText_eq_ok htype
    have hthinking' : textOf block "thinking" = .ok _ := requireText_eq_ok hthinking
    rw [decodeBlock, htype']
    simp only [bind, Except.bind, hthinking', hsignature]
    rfl
  | redactedThinking htype hdata =>
    have htype' : textOf block "type" = .ok "redacted_thinking" := requireText_eq_ok htype
    have hdata' : textOf block "data" = .ok _ := requireText_eq_ok hdata
    rw [decodeBlock, htype']
    simp only [bind, Except.bind, hdata']
    rfl
  | unknown htype htag =>
    have htype' : textOf block "type" = .ok _ := requireText_eq_ok htype
    rw [decodeBlock, htype']
    simp only [bind, Except.bind]
    split
    case h_8 => rfl
    all_goals simp at htag

theorem IsBlock.bearsMark_iff (h : IsBlock block o fs) :
    BearsMark block ↔ (o.block? fs).isSome ∧ (block.get? "cache_control").isSome := by
  refine and_congr_left fun _ => ?_
  cases h with
  | toolUse htype hid hname hinput hspell =>
    simp [htype, Opening.block?, spellArguments?_eq hspell]
  | unknown htype htag =>
    simp only [List.mem_cons, not_or] at htag
    simp [htype, Opening.block?, htag]
  | text htype | thinking htype | redactedThinking htype => simp [htype, Opening.block?]

theorem isAnnotation_of_block? {b : Block} (h : o.block? fs = some b) : b.isAnnotation = false := by
  cases o with
  | toolCall id name =>
    obtain ⟨arguments, -, rfl⟩ := Option.map_eq_some_iff.1 h
    rfl
  | unknown kind => cases h
  | _ =>
    obtain rfl := Option.some.inj h
    rfl

theorem isReadable_of_forall₂ {blocks : List StreamedBlock} {wholes : List Json}
    (h : List.Forall₂ (fun b whole => IsBlock whole b.2.1 b.2.2) blocks wholes) :
    ∀ b ∈ blocks, b.2.1.IsReadable b.2.2 := by
  induction h with
  | nil => exact List.forall_mem_nil _
  | cons hb _ ih => exact List.forall_mem_cons.2 ⟨hb.isReadable, ih⟩

theorem isUsage_of_isAnnotation {b : Block} (h : b.isAnnotation = false) : b.isUsage = false := by
  cases b <;> first | rfl | cases h

/-- Cache counts are what is left out of a message without them. -/
theorem filter_append_usage {content : List Block} (cache : List CacheUsage)
    (h : ∀ b ∈ content, b.isUsage = false) :
    (content ++ cache.map Block.usage).filter (fun b => !b.isUsage) = content := by
  have hnone : (cache.map Block.usage).filter (fun b => !b.isUsage) = [] := by
    simp [List.filter_eq_nil_iff, Block.isUsage]
  have hall : content.filter (fun b => !b.isUsage) = content := by
    simpa [List.filter_eq_self] using h
  rw [List.filter_append, hnone, hall, List.append_nil]

/-- The whole blocks are read as those that the pieces make, with the marks of those that are marked
among them. -/
theorem exists_decodeBlocks {blocks : List StreamedBlock} {wholes : List Json}
    (h : List.Forall₂ (fun b whole => IsBlock whole b.2.1 b.2.2) blocks wholes) :
    ∃ content, decodeBlocks wholes = .ok content ∧
      content.filter (fun b => !b.isAnnotation) = blocks.filterMap (fun b => b.2.1.block? b.2.2) ∧
      (∀ b ∈ content, b.isUsage = false) ∧
      ((∀ b ∈ content, b.isAnnotation = false) ↔ ∀ whole ∈ wholes, ¬ BearsMark whole) := by
  induction h with
  | nil => exact ⟨[], rfl, rfl, by simp⟩
  | @cons b whole blocks wholes hb _ ih =>
    obtain ⟨content, hread, hblocks, husage, hmarks⟩ := ih
    rw [decodeBlocks, decodeBlock_of_isBlock hb]
    cases hblock : b.2.1.block? b.2.2 with
    | none =>
      have hnot : ¬ BearsMark whole := by simp [hb.bearsMark_iff, hblock]
      refine ⟨content, hread, ?_, husage, ?_⟩
      · rw [hblocks, List.filterMap_cons, hblock]
      · rw [hmarks, List.forall_mem_cons, and_iff_right hnot]
    | some decoded =>
      have hplain := isAnnotation_of_block? hblock
      have hcounted := isUsage_of_isAnnotation hplain
      have hmarked : BearsMark whole ↔ (whole.get? "cache_control").isSome := by
        simp [hb.bearsMark_iff, hblock]
      cases hmark : whole.get? "cache_control" with
      | none =>
        refine ⟨decoded :: content, ?_, ?_, ?_, ?_⟩
        · simp only [bind, Except.bind, hread]
          rfl
        · rw [List.filter_cons_of_pos (by simp [hplain]), hblocks, List.filterMap_cons, hblock]
        · exact List.forall_mem_cons.2 ⟨hcounted, husage⟩
        · simp [hplain, hmarks, hmarked, hmark]
      | some mark =>
        refine ⟨decoded :: .cacheControl (decodeCacheControl mark) :: content, ?_, ?_, ?_, ?_⟩
        · simp only [bind, Except.bind, hread]
          rfl
        · rw [List.filter_cons_of_pos (by simp [hplain]), List.filter_cons_of_neg
            (by simp [Block.isAnnotation]), hblocks, List.filterMap_cons, hblock]
        · exact List.forall_mem_cons.2 ⟨hcounted, List.forall_mem_cons.2 ⟨rfl, husage⟩⟩
        · simp [Block.isAnnotation, hmarked, hmark]

end Blocks

/-- What a message says besides its blocks where events give the stop sequence. -/
def stopFields (events : List Event) : Fields :=
  .ofList ((Transcript.stopSequence? events).map fun s => ("stop_sequence", Json.string s)).toList

/-- The reply of the body. -/
theorem decodeReply_of_isBody {body : Bytes} {value : Json} {events : List Event}
    {blocks : List StreamedBlock} (hread : Json.readBytes? body = some value)
    (h : IsBody value events blocks) {content : List Block}
    (hcontent : decodeContent (value.get "content") = .ok content) :
    ∃ (stopReason : Option StopReason) (cache : List CacheUsage), decodeReply body = .ok ⟨{
      role := .assistant
      content := content ++ cache.map .usage
      stopReason
      metadata := stopFields events }, Transcript.usage events⟩ := by
  have hparse : Dialect.parseBody .anthropic body = .ok value := by
    rw [Dialect.parseBody, hread]
  have hrole : textOf value "role" = .ok "assistant" := requireText_eq_ok h.role
  refine ⟨(value.get "stop_reason").text?.map (.classify .anthropic),
    (decodeCacheUsage? value).toList, ?_⟩
  rw [decodeReply, hparse, stopFields]
  simp only [bind, Except.bind, pure, Except.pure, h.notError, if_false, decodeMessage, hrole,
    hcontent, decodeUsage_eq h, h.stopSequence]
  cases Transcript.stopSequence? events <;> rfl

/-! ## Reading the stream -/

section Stream

variable {frames : List Frame} {events : List Event} {blocks : List StreamedBlock}

theorem step_of_says {frame : Frame} {v : Json} {e : Option Event}
    (hread : Json.tree? frame.data = some v) (hsaid : Says v e) :
    Translation.anthropic.step frame = (.anthropic, .ok e.toList) := by
  rw [Translation.step, readEvent, hread, Option.bind_some, event?_of_says hsaid]
  rfl

/-- The frames give the events that they say. -/
theorem sequence_of_say (h : Say frames events) :
    Step.sequence (frames.map fun frame t => t.step frame) Translation.anthropic
      = (.anthropic, .ok events) := by
  induction h with
  | nil => rfl
  | @event frame v e frames events hread hsaid _ ih =>
    change _ = (Translation.anthropic, Except.ok ([e] ++ events))
    refine Step.andThen_eq_ok ?_ ih
    exact step_of_says hread hsaid
  | @nothing frame v frames events hread hsaid _ ih =>
    change _ = (Translation.anthropic, Except.ok ([] ++ events))
    refine Step.andThen_eq_ok ?_ ih
    exact step_of_says hread hsaid

/-- No event of this format says what no block holds, save for the stop sequence. -/
theorem metadata_of_say (h : Say frames (events ++ [.messageStop])) :
    (Transcript.reply .anthropic events).message.metadata = stopFields events := by
  have hnotes {frames : List Frame} {said : List Event} (h : Say frames said) :
      said.filterMap Event.note? = [] := by
    induction h with
    | nil => rfl
    | event _ hsaid _ ih =>
      rw [List.filterMap_cons_none, ih]
      cases hsaid <;> rfl
    | nothing _ _ _ ih => exact ih
  have hnone : Transcript.metadata events = .empty := by
    have hall := hnotes h
    rw [List.filterMap_append, List.append_eq_nil_iff] at hall
    rw [Transcript.metadata, hall.1]
    rfl
  change (Transcript.metadata events).insertAll _ = _
  rw [hnone]
  rfl

theorem IsStreamed.sender_eq (h : IsStreamed events blocks) :
    Transcript.sender events = .assistant := by
  obtain ⟨usage, inner, hframed, -⟩ := h.framed
  rw [← Transcript.sender_quiet, hframed]
  rfl

/-- The blocks of the stream are whole if a body can say them. -/
theorem IsStreamed.bears (h : IsStreamed events blocks)
    (hreadable : ∀ b ∈ blocks, b.2.1.IsReadable b.2.2) :
    Transcript.Bears .anthropic events (blocks.map fun b => (b.1, b.2.1.block? b.2.2)) := by
  have hindices : (blocks.map fun b => (b.1, b.2.1.block? b.2.2)).map Prod.fst
      = blocks.map Prod.fst := by
    rw [List.map_map]
    rfl
  refine ⟨?_, fun b hb => ?_, fun i hi => ?_⟩
  · rw [hindices]
    exact h.ascending
  · obtain ⟨streamed, hstreamed, rfl⟩ := List.mem_map.1 hb
    refine ⟨streamed.2.1, streamed.2.2, h.steps _ hstreamed, h.accepted _ hstreamed, ?_⟩
    exact (Opening.close_grown_eq_ok _).2 ⟨hreadable _ hstreamed, rfl⟩
  · rw [hindices] at hi
    exact h.nothing i hi

theorem IsStreamed.content_eq (h : IsStreamed events blocks)
    (hreadable : ∀ b ∈ blocks, b.2.1.IsReadable b.2.2) :
    (Transcript.content events).filter (fun b => !b.isUsage)
      = blocks.filterMap fun b => b.2.1.block? b.2.2 := by
  rw [(h.bears hreadable).filter_content, List.filterMap_map]
  rfl

/-- The reply of the stream, whatever comes behind its end. -/
theorem readReply_of_say (ids : CallIds) (hsay : Say frames (events ++ [.messageStop]))
    (h : IsStreamed events blocks) (hreadable : ∀ b ∈ blocks, b.2.1.IsReadable b.2.2)
    (behind : List (Except Error Frame)) :
    readReply .anthropic ids (frames.map .ok ++ behind)
      = .ok (Transcript.reply .anthropic events) := by
  obtain ⟨handed, hitems⟩ := deliveriesFrom_sequence (sequence_of_say hsay) .closes 0 behind
  rw [List.map_append, List.append_assoc] at hitems
  obtain ⟨usage, inner, hframed, hinner⟩ := h.framed
  exact readReply_of_bears hitems ⟨.assistant, usage, inner, hframed, hinner⟩ (h.bears hreadable)

end Stream

/-! ## Agreement -/

/-- The replies that are read from a stream and from a body that say the same are from the same
side, with the same metadata and token counts, and the blocks of the stream are those of the body
but for what annotates them. So the replies agree exactly if no block of the body is marked. The
events of the stream may cut the blocks in fragments of any size and mix those of different blocks
in any way, with pings and events of unknown types among them and anything at all behind the end. -/
theorem events_agree_with_body (ids : CallIds) (frames : List Frame)
    (behind : List (Except Error Frame)) (events : List Event) (blocks : List StreamedBlock)
    (hsay : Say frames (events ++ [.messageStop])) (h : IsStreamed events blocks) (body : Bytes)
    (value : Json) (hread : Json.readBytes? body = some value)
    (hbody : IsBody value events blocks) :
    ∃ streamed whole, readReply .anthropic ids (frames.map .ok ++ behind) = .ok streamed ∧
      decodeReply body = .ok whole ∧ streamed.message.role = whole.message.role ∧
      streamed.message.metadata = whole.message.metadata ∧ streamed.usage = whole.usage ∧
      streamed.message.withoutUsage.content
        = whole.message.content.filter (fun b => !b.isAnnotation) ∧
      (streamed.Agrees whole ↔
        ∀ block ∈ (value.get "content").elements?.getD [], ¬ BearsMark block) := by
  -- The body is what tells that the arguments in pieces can be read.
  obtain ⟨wholes, hwholes, hblocks⟩ := hbody.content
  have hreadable := isReadable_of_forall₂ hblocks
  obtain ⟨content, hdecoded, hplain, husage, hmarks⟩ := exists_decodeBlocks hblocks
  have hcontent : decodeContent (value.get "content") = .ok content := by
    rw [hwholes]
    exact hdecoded
  obtain ⟨stopReason, cache, hwhole⟩ := decodeReply_of_isBody hread hbody hcontent
  have hmetadata := metadata_of_say hsay
  have hstreamed := (h.content_eq hreadable).trans hplain.symm
  -- the cache counts of the body are annotations too
  have hkept : (content ++ cache.map Block.usage).filter (fun b => !b.isAnnotation)
      = content.filter (fun b => !b.isAnnotation) := by
    have hnone : (cache.map Block.usage).filter (fun b => !b.isAnnotation) = [] := by
      simp [List.filter_eq_nil_iff, Block.isAnnotation]
    rw [List.filter_append, hnone, List.append_nil]
  have hcounted := filter_append_usage cache husage
  have hunmarked : content.filter (fun b => !b.isAnnotation) = content ↔
      ∀ block ∈ (value.get "content").elements?.getD [], ¬ BearsMark block := by
    rw [List.filter_eq_self, hwholes]
    simpa [Json.elements?] using hmarks
  refine ⟨_, _, readReply_of_say ids hsay h hreadable behind, hwhole, h.sender_eq, hmetadata, rfl,
    hstreamed.trans hkept.symm, ?_⟩
  rw [← hunmarked]
  constructor
  · intro hagrees
    exact (hstreamed.symm.trans hagrees.content).trans hcounted
  · intro hsame
    exact ⟨h.sender_eq, (hstreamed.trans hsame).trans hcounted.symm, hmetadata, rfl⟩

theorem say_toText {records : List Json} {said : List (Option Event)}
    (hread : ∀ v ∈ records, Json.tree? v.toText = some v) (h : List.Forall₂ Says records said) :
    Say (records.map fun v => ⟨none, v.toText⟩) said.reduceOption := by
  induction h with
  | nil => exact .nil
  | @cons v e _ _ hsaid _ ih =>
    obtain ⟨hv, hrest⟩ := List.forall_mem_cons.1 hread
    cases e with
    | none => exact .nothing hv hsaid (ih hrest)
    | some e => exact .event hv hsaid (ih hrest)

/-- Records with reasoning, a text and a tool call in pieces that are mixed, a block and an event of
unknown types, and a ping. -/
def searchRecords : List Json := [
  .object [("type", .string "ping")],
  .object [("message", .object [("role", .string "assistant"),
      ("usage", .object [("input_tokens", .ofCount 12), ("output_tokens", .ofCount 1),
        ("cache_read_input_tokens", .ofCount 4)])]),
    ("type", .string "message_start")],
  .object [("content_block", .object [("thinking", .string ""), ("type", .string "thinking")]),
    ("index", .ofCount 0), ("type", .string "content_block_start")],
  .object [("content_block", .object [("id", .string "a"), ("input", .object []),
      ("name", .string "list"), ("type", .string "tool_use")]),
    ("index", .ofCount 3), ("type", .string "content_block_start")],
  .object [("delta", .object [("partial_json", .string "[1"),
      ("type", .string "input_json_delta")]),
    ("index", .ofCount 3), ("type", .string "content_block_delta")],
  .object [("delta", .object [("thinking", .string "Hm."), ("type", .string "thinking_delta")]),
    ("index", .ofCount 0), ("type", .string "content_block_delta")],
  .object [("place", .ofCount 2), ("type", .string "queued")],
  .object [("content_block", .object [("text", .string "Look"), ("type", .string "text")]),
    ("index", .ofCount 1), ("type", .string "content_block_start")],
  .object [("delta", .object [("signature", .string "s"), ("type", .string "signature_delta")]),
    ("index", .ofCount 0), ("type", .string "content_block_delta")],
  .object [("delta", .object [("partial_json", .string ",2]"),
      ("type", .string "input_json_delta")]),
    ("index", .ofCount 3), ("type", .string "content_block_delta")],
  .object [("index", .ofCount 0), ("type", .string "content_block_stop")],
  .object [("index", .ofCount 3), ("type", .string "content_block_stop")],
  .object [("delta", .object [("text", .string " up."), ("type", .string "text_delta")]),
    ("index", .ofCount 1), ("type", .string "content_block_delta")],
  .object [("index", .ofCount 1), ("type", .string "content_block_stop")],
  .object [("content_block", .object [("type", .string "search")]), ("index", .ofCount 8),
    ("type", .string "content_block_start")],
  .object [("index", .ofCount 8), ("type", .string "content_block_stop")],
  .object [("delta", .object [("stop_reason", .string "stop_sequence"),
      ("stop_sequence", .string "END")]), ("type", .string "message_delta"),
    ("usage", .object [("output_tokens", .ofCount 9)])],
  .object [("type", .string "message_stop")]]

/-- The events before the end that these records say. -/
def searchEvents : List Event := [
  .ping, .messageStart .assistant ⟨12, 1, 0, 4⟩, .blockStart 0 (.thinking "" ""),
  .blockStart 3 (.toolCall "a" "list"), .blockDelta 3 (.arguments "[1"),
  .blockDelta 0 (.thinking "Hm."), .blockStart 1 (.text "Look"), .blockDelta 0 (.signature "s"),
  .blockDelta 3 (.arguments ",2]"), .blockStop 0, .blockStop 3, .blockDelta 1 (.text " up."),
  .blockStop 1, .blockStart 8 (.unknown "unknown"), .blockStop 8,
  .messageDelta (some "stop_sequence") (some "END") ⟨0, 9, 0, 0⟩]

/-- The blocks of these events. -/
def searchBlocks : List StreamedBlock := [
  (0, .thinking "" "", [.thinking "Hm.", .signature "s"]),
  (1, .text "Look", [.text " up."]),
  (3, .toolCall "a" "list", [.arguments "[1", .arguments ",2]"]),
  (8, .unknown "unknown", [])]

/-- The body that says the same. -/
def searchBody : Json := .object [
  ("content", .array [
    .object [("signature", .string "s"), ("thinking", .string "Hm."), ("type", .string "thinking")],
    .object [("text", .string "Look up."), ("type", .string "text")],
    .object [("id", .string "a"), ("input", .array [.ofCount 1, .ofCount 2]),
      ("name", .string "list"), ("type", .string "tool_use")],
    .object [("type", .string "search")]]),
  ("role", .string "assistant"), ("stop_reason", .string "stop_sequence"),
  ("stop_sequence", .string "END"), ("type", .string "message"),
  ("usage", .object [("cache_read_input_tokens", .ofCount 4), ("input_tokens", .ofCount 12),
    ("output_tokens", .ofCount 9)])]

theorem says_searchRecords : List.Forall₂ Says searchRecords [
    some .ping, some (.messageStart .assistant ⟨12, 1, 0, 4⟩),
    some (.blockStart 0 (.thinking "" "")), some (.blockStart 3 (.toolCall "a" "list")),
    some (.blockDelta 3 (.arguments "[1")), some (.blockDelta 0 (.thinking "Hm.")), none,
    some (.blockStart 1 (.text "Look")), some (.blockDelta 0 (.signature "s")),
    some (.blockDelta 3 (.arguments ",2]")), some (.blockStop 0), some (.blockStop 3),
    some (.blockDelta 1 (.text " up.")), some (.blockStop 1),
    some (.blockStart 8 (.unknown "unknown")), some (.blockStop 8),
    some (.messageDelta (some "stop_sequence") (some "END") ⟨0, 9, 0, 0⟩),
    some .messageStop] := by
  repeat' refine List.Forall₂.cons ?_ ?_
  · exact .ping rfl
  · exact .messageStart rfl rfl rfl
      (.inl ⟨_, rfl, .inl rfl, .inl rfl, .inr ⟨rfl, rfl⟩, .inl rfl⟩)
  · exact .blockStart (i := 0) rfl rfl (by decide) rfl (.thinking rfl (.inl rfl) (.inr ⟨rfl, rfl⟩))
  · exact .blockStart (i := 3) rfl rfl (by decide) rfl (.toolUse rfl rfl rfl)
  · exact .blockDelta (i := 3) rfl rfl (by decide) rfl (.arguments rfl rfl)
  · exact .blockDelta (i := 0) rfl rfl (by decide) rfl (.thinking rfl rfl)
  · exact .unknown rfl (by decide)
  · exact .blockStart (i := 1) rfl rfl (by decide) rfl (.text rfl (.inl rfl))
  · exact .blockDelta (i := 0) rfl rfl (by decide) rfl (.signature rfl rfl)
  · exact .blockDelta (i := 3) rfl rfl (by decide) rfl (.arguments rfl rfl)
  · exact .blockStop (i := 0) rfl rfl (by decide)
  · exact .blockStop (i := 3) rfl rfl (by decide)
  · exact .blockDelta (i := 1) rfl rfl (by decide) rfl (.text rfl rfl)
  · exact .blockStop (i := 1) rfl rfl (by decide)
  · exact .blockStart (i := 8) rfl rfl (by decide) rfl (.unknown rfl (by decide))
  · exact .blockStop (i := 8) rfl rfl (by decide)
  · exact .messageDelta rfl rfl rfl rfl
      (.inl ⟨_, rfl, .inr ⟨rfl, rfl⟩, .inl rfl, .inr ⟨rfl, rfl⟩, .inr ⟨rfl, rfl⟩⟩)
  · exact .messageStop rfl
  · exact .nil

theorem isStreamed_searchEvents : IsStreamed searchEvents searchBlocks where
  framed := ⟨_, _, rfl, by decide⟩
  ascending := by decide
  steps := by decide
  accepted := by decide
  nothing i hi := by
    have hother : i ≠ 0 ∧ i ≠ 1 ∧ i ≠ 3 ∧ i ≠ 8 := by simpa [searchBlocks] using hi
    obtain ⟨h0, h1, h3, h8⟩ := hother
    simp [stepsAt, searchEvents, Event.stepAt?, h0.symm, h1.symm, h3.symm, h8.symm]

theorem isBody_searchBody : IsBody searchBody searchEvents searchBlocks where
  notError := by decide
  role := by decide
  content := by
    refine ⟨_, rfl, ?_⟩
    refine .cons (.thinking rfl rfl rfl) (.cons (.text rfl rfl) (.cons ?_ (.cons ?_ .nil)))
    · exact .toolUse rfl rfl rfl (by decide) (.inr (by decide +kernel))
    · exact .unknown rfl (by decide)
  stopSequence := by decide +kernel
  input := by decide +kernel
  output := by decide +kernel
  cacheCreated := by decide +kernel
  cacheRead := by decide +kernel

theorem events_agree_with_body_search :
    Say (searchRecords.map fun v => ⟨none, v.toText⟩) (searchEvents ++ [.messageStop]) ∧
      IsStreamed searchEvents searchBlocks ∧ IsBody searchBody searchEvents searchBlocks ∧
      ∃ streamed whole, readReply .anthropic .numbered
          ((searchRecords.map fun v => ⟨none, v.toText⟩).map .ok ++ [.error .cancelled])
        = .ok streamed ∧
      decodeReply (Bytes.ofString searchBody.toText) = .ok whole ∧ streamed.Agrees whole := by
  have hread : ∀ v ∈ searchRecords, Json.tree? v.toText = some v := by
    have hdepth : ∀ v ∈ searchRecords, v.depth ≤ Json.maxDepth := by decide
    have hsame : ∀ v ∈ searchRecords, v.reread = v := by decide +kernel
    intro v hv
    rw [Json.tree?_toText (hdepth v hv), hsame v hv]
  have hbytes : Json.readBytes? (Bytes.ofString searchBody.toText) = some searchBody :=
    Json.IsReprinted.readBytes?_eq (by decide +kernel)
  have hsay := say_toText hread says_searchRecords
  have hstreamed := isStreamed_searchEvents
  have hbody := isBody_searchBody
  obtain ⟨streamed, whole, hreply, hwhole, -, -, -, -, hagrees⟩ := events_agree_with_body .numbered
    _ [.error .cancelled] searchEvents searchBlocks hsay hstreamed _ searchBody hbytes hbody
  exact ⟨hsay, hstreamed, hbody, streamed, whole, hreply, hwhole, hagrees.2 (by decide +kernel)⟩

/-- Records with a text that bears a cache mark. -/
def pinnedRecords : List Json := [
  .object [("message", .object [("role", .string "assistant")]), ("type", .string "message_start")],
  .object [("content_block", .object [
      ("cache_control", .object [("type", .string "ephemeral")]), ("text", .string "Hi."),
      ("type", .string "text")]),
    ("index", .ofCount 0), ("type", .string "content_block_start")],
  .object [("index", .ofCount 0), ("type", .string "content_block_stop")],
  .object [("type", .string "message_stop")]]

/-- The events before the end that these records say. -/
def pinnedEvents : List Event := [
  .messageStart .assistant {}, .blockStart 0 (.text "Hi."), .blockStop 0]

/-- The body that says the same. -/
def pinnedBody : Json := .object [
  ("content", .array [.object [
    ("cache_control", .object [("type", .string "ephemeral")]), ("text", .string "Hi."),
    ("type", .string "text")]]),
  ("role", .string "assistant")]

theorem says_pinnedRecords : List.Forall₂ Says pinnedRecords [
    some (.messageStart .assistant {}), some (.blockStart 0 (.text "Hi.")), some (.blockStop 0),
    some .messageStop] := by
  repeat' refine List.Forall₂.cons ?_ ?_
  · exact .messageStart rfl rfl rfl (.inr ⟨rfl, rfl⟩)
  · exact .blockStart (i := 0) rfl rfl (by decide) rfl (.text rfl (.inl rfl))
  · exact .blockStop (i := 0) rfl rfl (by decide)
  · exact .messageStop rfl
  · exact .nil

theorem isStreamed_pinnedEvents : IsStreamed pinnedEvents [(0, .text "Hi.", [])] where
  framed := ⟨_, _, rfl, by decide⟩
  ascending := by decide
  steps := by decide
  accepted := by decide
  nothing i hi := by
    have hother : i ≠ 0 := by simpa using hi
    simp [stepsAt, pinnedEvents, Event.stepAt?, hother.symm]

theorem isBody_pinnedBody : IsBody pinnedBody pinnedEvents [(0, .text "Hi.", [])] where
  notError := by decide
  role := by decide
  content := ⟨_, rfl, .cons (.text rfl rfl) .nil⟩
  stopSequence := by decide +kernel
  input := by decide +kernel
  output := by decide +kernel
  cacheCreated := by decide +kernel
  cacheRead := by decide +kernel

/-- The mark of a block is read of a body and not of a stream. -/
theorem pinnedRecords_lose_mark :
    Say (pinnedRecords.map fun v => ⟨none, v.toText⟩) (pinnedEvents ++ [.messageStop]) ∧
      IsStreamed pinnedEvents [(0, .text "Hi.", [])] ∧
      IsBody pinnedBody pinnedEvents [(0, .text "Hi.", [])] ∧
      ∃ streamed whole, readReply .anthropic .numbered (framesOf pinnedRecords) = .ok streamed ∧
        decodeReply (Bytes.ofString pinnedBody.toText) = .ok whole ∧
        streamed.message.withoutUsage.content = [.text "Hi."] ∧
        whole.message.withoutUsage.content = [.text "Hi.", .cacheControl none] ∧
        ¬ streamed.Agrees whole := by
  have hread : ∀ v ∈ pinnedRecords, Json.tree? v.toText = some v := by
    have hdepth : ∀ v ∈ pinnedRecords, v.depth ≤ Json.maxDepth := by decide
    have hsame : ∀ v ∈ pinnedRecords, v.reread = v := by decide +kernel
    intro v hv
    rw [Json.tree?_toText (hdepth v hv), hsame v hv]
  have hbytes : Json.readBytes? (Bytes.ofString pinnedBody.toText) = some pinnedBody :=
    Json.IsReprinted.readBytes?_eq (by decide +kernel)
  have hsay := say_toText hread says_pinnedRecords
  have hreadable : ∀ b ∈ [(0, Opening.text "Hi.", ([] : List Fragment))], b.2.1.IsReadable b.2.2 :=
    List.forall_mem_singleton.2 trivial
  have hreply := readReply_of_say .numbered hsay isStreamed_pinnedEvents hreadable []
  rw [List.append_nil] at hreply
  have hcontent : decodeContent (pinnedBody.get "content")
      = .ok [.text "Hi.", .cacheControl none] := by decide +kernel
  obtain ⟨stopReason, cache, hwhole⟩ := decodeReply_of_isBody hbytes isBody_pinnedBody hcontent
  have hstreamed := isStreamed_pinnedEvents.content_eq hreadable
  have hcounted := filter_append_usage cache
    (by decide : ∀ b ∈ [Block.text "Hi.", .cacheControl none], b.isUsage = false)
  refine ⟨hsay, isStreamed_pinnedEvents, isBody_pinnedBody, _, _, hreply, hwhole, hstreamed,
    hcounted, fun hagrees => ?_⟩
  have hsame := (hstreamed.symm.trans hagrees.content).trans hcounted
  cases hsame

end ChatWire.Anthropic
