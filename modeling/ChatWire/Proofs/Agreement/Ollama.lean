import ChatWire.Proofs.Agreement.Blocks
import ChatWire.Proofs.Dialect.Basic
import ChatWire.Proofs.Json.Members
import ChatWire.Proofs.Json.Reprint
import ChatWire.Proofs.Stream.Success

/-!
# Streams and bodies in the local chat format

The lines of a stream bear a message in pieces, and the last of them bears all that is said of it as
a whole. If the last line had borne the whole message as well (`Ollama.whole`), it would be a body,
and the reply that is read from this body is the one that is read from the stream
(`Ollama.lines_agree_with_body`).
-/

namespace ChatWire.Ollama

open Dialect (requireText_eq_ok)
open Transcript (IsAboutBlocks notes)

/-! ## What lines say -/

/-- The texts under a key of the messages of chunks, joined. -/
def joined (key : String) (chunks : List Json) : String :=
  String.join (chunks.map fun chunk => (chunk.get "message").textOrEmpty key)

/-- Whether a chunk says that it is the last. -/
def isDone (chunk : Json) : Bool := (chunk.get "done").flag?.getD false

/-- The chunks of a stream: no errors, and the last one and no other says that it is the last. -/
structure IsStreamed (chunks : List Json) (last : Json) : Prop where
  errors : ∀ chunk ∈ chunks ++ [last], chunk.present? "error" = none
  goesOn : ∀ chunk ∈ chunks, isDone chunk = false
  ends : isDone last = true

/-- The message that the chunks bear in pieces. -/
def wholeMessage (chunks : List Json) : Json := .object [
  ("content", .string (joined "content" chunks)), ("role", .string "assistant"),
  ("thinking", .string (joined "thinking" chunks))]

/-- The last chunk with the whole message. -/
def whole (chunks : List Json) (last : Json) : Json :=
  last.set "message" (wholeMessage (chunks ++ [last]))

theorem joined_concat (key : String) (chunks : List Json) (chunk : Json) :
    joined key (chunks ++ [chunk])
      = joined key chunks ++ (chunk.get "message").textOrEmpty key := by
  simp [joined, String.join_append]

/-- The block of a text; an empty text has none. -/
def textBlocks (text : String) : List Block := if text = "" then [] else [.text text]

/-- The metadata of reasoning; empty reasoning has none. -/
def thoughtFields (thought : String) : List (String × Json) :=
  if thought = "" then [] else [(thoughtKey, .string thought)]

/-! ## The state of the translation -/

namespace StreamState

open Step

/-- The open blocks that hold a text. -/
def openBlocks (text : String) : List OpenBlock := if text = "" then [] else [.text text]

/-- The state has taken what has been said and not more. -/
structure Tracks (text thought : String) (events : List Event) (s : StreamState) : Prop where
  started : s.envelope.started = true
  blocks : s.envelope.Holds .ollama events (openBlocks text)
  opened : s.envelope.opened = if text = "" then [] else [0]
  aboutBlocks : IsAboutBlocks events
  textBlock : s.textBlock = if text = "" then none else some 0
  thought : s.thought = thought

variable {text thought : String}

theorem addThought_brings (more : String) :
    Brings (Tracks text thought) (Tracks text (thought ++ more)) (addThought more) := by
  refine brings_update fun events s h => ?_
  exact ⟨h.started, h.blocks, h.opened, h.aboutBlocks, h.textBlock, by rw [h.thought]⟩

/-- The first text opens the block and grows it at once. -/
theorem Tracks.openText {events : List Event} {s : StreamState} (h : Tracks "" thought events s)
    {more : String} (hmore : more ≠ "") :
    Tracks more thought
      (events ++ ((s.envelope.openBlock (.text "")).2
        ++ [.blockDelta s.envelope.next (.text more)]))
      { s with
        envelope := (s.envelope.openBlock (.text "")).1
        textBlock := some s.envelope.next } := by
  have hnext : s.envelope.next = 0 := h.blocks.next
  have hopened : (s.envelope.openBlock (.text "")).1.opened = [0] := by
    simp [Envelope.openBlock, h.opened, hnext]
  have hgrown := (h.blocks.openBlock h.started (.text "")).grow (i := 0) (f := .text more)
    (by simp [hopened]) rfl rfl
  refine ⟨h.started, ?_, ?_, ?_, ?_, h.thought⟩
  · rw [hnext, openBlocks, if_neg hmore, ← List.append_assoc]
    simpa [openBlocks] using hgrown
  · rw [hopened, if_neg hmore]
  · refine h.aboutBlocks.append fun x hx => ?_
    rcases List.mem_append.1 hx with hx | hx
    · rw [List.mem_singleton.1 hx]
      rfl
    · rw [List.mem_singleton.1 hx]
      rfl
  · rw [hnext, if_neg hmore]

/-- More text grows the block. -/
theorem Tracks.growText {events : List Event} {s : StreamState} (h : Tracks text thought events s)
    (htext : text ≠ "") (more : String) :
    Tracks (text ++ more) thought (events ++ [.blockDelta 0 (.text more)]) s := by
  have hmore : text ++ more ≠ "" := by simp [htext]
  have hfirst : (openBlocks text)[0]? = some (.text text) := by
    rw [openBlocks, if_neg htext]
    rfl
  have hopen : 0 ∈ s.envelope.opened := by simp [h.opened, htext]
  have hgrown := h.blocks.grow hopen hfirst (f := .text more) rfl
  refine ⟨h.started, ?_, ?_, h.aboutBlocks.append (by simp [Event.index?]), ?_, h.thought⟩
  · rw [openBlocks, if_neg htext] at hgrown
    rw [openBlocks, if_neg hmore]
    exact hgrown
  · rw [h.opened, if_neg htext, if_neg hmore]
  · rw [h.textBlock, if_neg htext, if_neg hmore]

theorem addText_brings (more : String) :
    Brings (Tracks text thought) (Tracks (text ++ more) thought) (addText more) := by
  unfold addText
  split
  case isTrue hempty =>
    obtain rfl := String.isEmpty_iff.1 hempty
    rw [String.append_empty]
    exact brings_skip fun events s h => h
  case isFalse hempty =>
    have hmore : more ≠ "" := mt String.isEmpty_iff.2 hempty
    refine brings_emit fun events s h => ?_
    by_cases htext : text = ""
    · subst htext
      have hnone : s.textBlock = none := by rw [h.textBlock, if_pos rfl]
      simp only [hnone, String.empty_append]
      exact h.openText hmore
    · have hsome : s.textBlock = some 0 := by rw [h.textBlock, if_neg htext]
      simp only [hsome]
      exact h.growText htext more

/-! ### Lines -/

/-- Takes a chunk that reports no error. -/
def take (chunk : Json) : Step StreamState :=
  .sequence [start, addThought ((chunk.get "message").textOrEmpty "thinking"),
    addText ((chunk.get "message").textOrEmpty "content"), addEnd chunk]

theorem step_eq {frame : Frame} {chunk : Json} (hread : Json.read? frame.data = some chunk)
    (herror : chunk.present? "error" = none) : step frame = take chunk := by
  have hfailure : Chunk.failure? chunk = none := by rw [Chunk.failure?, herror]
  simp only [step, Chunk.parse, hread, hfailure]
  rfl

/-- Before the first chunk nothing has happened. -/
def At (chunks : List Json) (events : List Event) (s : StreamState) : Prop :=
  (chunks = [] ∧ events = [] ∧ s = {}) ∨
    Tracks (joined "content" chunks) (joined "thinking" chunks) events s

theorem start_brings (chunks : List Json) :
    Brings (At chunks) (Tracks (joined "content" chunks) (joined "thinking" chunks)) start := by
  refine brings_emit fun events s h => ?_
  rcases h with ⟨rfl, rfl, rfl⟩ | h
  · obtain ⟨hblocks, hstarted⟩ := (Envelope.holds_new .ollama).start
    exact ⟨hstarted, hblocks, rfl, ⟨[], rfl, by simp⟩, rfl, rfl⟩
  · have hstart : s.envelope.start = (s.envelope, []) := if_pos h.started
    simp only [hstart, List.append_nil]
    exact h

/-- A chunk adds its pieces, and then comes what it says of the end. -/
theorem take_brings (chunks : List Json) (chunk : Json) {J : List Event → StreamState → Prop}
    (hend : Brings (Tracks (joined "content" (chunks ++ [chunk]))
      (joined "thinking" (chunks ++ [chunk]))) J (addEnd chunk)) :
    Brings (At chunks) J (take chunk) := by
  rw [joined_concat, joined_concat] at hend
  refine brings_sequence_cons (start_brings chunks) ?_
  refine brings_sequence_cons (addThought_brings _) ?_
  refine brings_sequence_cons (addText_brings _) ?_
  exact brings_sequence_cons hend (brings_skip fun events s h => h)

theorem addEnd_brings_of_goesOn {chunk : Json} (h : isDone chunk = false) :
    Brings (Tracks text thought) (Tracks text thought) (addEnd chunk) := by
  rw [isDone] at h
  rw [addEnd, h]
  exact brings_skip fun events s hs => hs

/-! ### The end -/

/-- The message has ended, and its events say what has been said. -/
structure Over (text thought : String) (last : Json) (events : List Event) (s : StreamState) :
    Prop where
  finished : s.envelope.finished = true
  ended : ∃ (e : Envelope) (early : List Event),
    e.Holds .ollama (early ++ notes (thoughtFields thought)) (openBlocks text) ∧
    e.started = true ∧ e.stopReason = (last.get "done_reason").text? ∧
    e.usage = decodeUsage last ∧ IsAboutBlocks early ∧
    events = early ++ notes (thoughtFields thought) ++ e.endEvents ++ [.messageStop]

theorem giveThought_eq {events : List Event} {s : StreamState} (h : Tracks text thought events s) :
    giveThought s = ({ s with thought := "" }, .ok (notes (thoughtFields thought))) := by
  simp only [giveThought, emit, h.thought, h.blocks.unfinished, Bool.or_false, String.isEmpty_iff]
  by_cases hthought : thought = ""
  · have hsame : { s with thought := "" } = s := by rw [← hthought, ← h.thought]
    rw [if_pos hthought, hsame, thoughtFields, if_pos hthought]
    rfl
  · rw [if_neg hthought, thoughtFields, if_neg hthought]
    rfl

/-- What is known of the whole message is noted, and then it ends. -/
theorem addEnd_brings_of_ends {last : Json} (hlast : isDone last = true) :
    Brings (Tracks text thought) (Over text thought last) (addEnd last) := by
  intro events s h
  let e : Envelope := { s.envelope with
    terminal := true
    usage := decodeUsage last
    stopReason := (last.get "done_reason").text? }
  have hnoted : Tracks text thought events { s with envelope := e } :=
    ⟨h.started, h.blocks.congr (.of_eq rfl rfl rfl rfl), h.opened, h.aboutBlocks, h.textBlock,
      h.thought⟩
  have hholds : e.Holds .ollama (events ++ notes (thoughtFields thought)) (openBlocks text) := by
    unfold thoughtFields
    split
    · exact (List.append_nil events).symm ▸ hnoted.blocks
    · exact hnoted.blocks.note h.started rfl rfl
  have hconclude := Envelope.conclude_eq (e := e) h.started h.blocks.unfinished
  have htruncated : e.isTruncated = false := by simp [e, Envelope.isTruncated]
  have hfinish : finish { s with envelope := e }
      = ({ s with thought := "", envelope := e.conclude.1 },
          .ok (notes (thoughtFields thought) ++ e.conclude.2)) := by
    simp only [finish, choose, htruncated, Bool.false_eq_true, if_false]
    exact andThen_eq_ok (giveThought_eq hnoted) rfl
  have hend : addEnd last s = ({ s with thought := "", envelope := e.conclude.1 },
      .ok (notes (thoughtFields thought) ++ e.conclude.2)) := by
    rw [isDone] at hlast
    rw [addEnd, if_pos hlast, update_andThen]
    exact hfinish
  refine ⟨_, _, hend, ?_, e, events, hholds, h.started, rfl, rfl, h.aboutBlocks, ?_⟩
  · rw [hconclude]
  · rw [hconclude, ← List.append_assoc, ← List.append_assoc]

/-- A stream that has ended stays as it is. -/
theorem finish_brings {last : Json} :
    Brings (Over text thought last) (Over text thought last) finish := by
  intro events s h
  have htruncated : s.envelope.isTruncated = false := by simp [Envelope.isTruncated, h.finished]
  have hthought : giveThought s = (s, .ok []) := by simp [giveThought, emit, h.finished]
  have hconclude : s.envelope.conclude = (s.envelope, []) := by
    simp [Envelope.conclude, h.finished]
  have hfinish : finish s = (s, .ok []) := by
    simp only [finish, choose, htruncated, Bool.false_eq_true, if_false]
    refine andThen_eq_ok hthought ?_
    simp only [emit, hconclude]
  exact ⟨s, [], hfinish, by rwa [List.append_nil]⟩

/-- The chunks of a stream lead to the end of the message. -/
theorem takes_bring {chunks : List Json} {last : Json} (h : IsStreamed chunks last) :
    Brings (At []) (Over (joined "content" (chunks ++ [last]))
        (joined "thinking" (chunks ++ [last])) last)
      ((sequence ((chunks ++ [last]).map take)).andThen finish) := by
  have hearly : Brings (At []) (At chunks) (sequence (chunks.map take)) :=
    brings_sequence_map fun before chunk after hsplit => take_brings before chunk
      ((addEnd_brings_of_goesOn (h.goesOn chunk (by simp [hsplit]))).weaken fun _ _ hs => .inr hs)
  rw [List.map_append]
  refine (hearly.append ?_).andThen finish_brings
  exact brings_sequence_cons (take_brings chunks last (addEnd_brings_of_ends h.ends))
    (brings_skip fun events s hs => hs)

theorem map_step_eq {frames : List Frame} {chunks : List Json}
    (hframes : List.Forall₂ (fun frame chunk => Json.read? frame.data = some chunk) frames chunks)
    (herrors : ∀ chunk ∈ chunks, chunk.present? "error" = none) :
    frames.map step = chunks.map take := by
  induction hframes with
  | nil => rfl
  | cons hread _ ih =>
    obtain ⟨herror, hrest⟩ := List.forall_mem_cons.1 herrors
    rw [List.map_cons, List.map_cons, step_eq hread herror, ih hrest]

end StreamState

/-! ## The reply -/

/-- The reply with a text and reasoning, of which the last chunk says the rest. -/
def replyOf (text thought : String) (last : Json) : Reply where
  message := {
    role := .assistant
    content := textBlocks text
    stopReason := (last.get "done_reason").text?.map (.classify .ollama)
    metadata := .ofList (thoughtFields thought) }
  usage := decodeUsage last

variable {chunks : List Json} {last : Json}

theorem close_openBlocks (text : String) :
    (StreamState.openBlocks text).map (OpenBlock.close .ollama)
      = (textBlocks text).map fun b => .ok (some b) := by
  by_cases htext : text = ""
  · rw [StreamState.openBlocks, if_pos htext, textBlocks, if_pos htext]
    rfl
  · rw [StreamState.openBlocks, if_neg htext, textBlocks, if_neg htext]
    rfl

theorem readReply_of_lines (ids : CallIds) {frames : List Frame}
    (hframes : List.Forall₂ (fun frame chunk => Json.read? frame.data = some chunk) frames
      (chunks ++ [last]))
    (h : IsStreamed chunks last) :
    readReply .ollama ids (frames.map .ok) = .ok (replyOf (joined "content" (chunks ++ [last]))
      (joined "thinking" (chunks ++ [last])) last) := by
  obtain ⟨s, events, hsteps, hover⟩ := StreamState.takes_bring h [] {} (.inl ⟨rfl, rfl, rfl⟩)
  obtain ⟨e, early, hholds, hstarted, hreason, husage, habout, hevents⟩ := hover.ended
  rw [← StreamState.map_step_eq hframes h.errors] at hsteps
  have hclose := close_openBlocks (joined "content" (chunks ++ [last]))
  have hstream : streamEvents .ollama ids (frames.map .ok)
      = (early ++ notes (thoughtFields (joined "thinking" (chunks ++ [last])))
        ++ e.endEvents ++ [Event.messageStop]).map .ok := by
    rw [← hevents, List.nil_append]
    exact streamEvents_of_steps Translation.ollama rfl (fun _ _ => rfl) (fun _ => rfl) hsteps
  rw [hholds.readReply_eq hstarted hclose hstream,
    Transcript.reply_eq habout _ e (hholds.bears_endEvents hclose), hreason, husage]
  have hcalls : ∀ text, (textBlocks text).filterMap Block.toolCall? = [] := by
    intro text
    unfold textBlocks
    split <;> rfl
  have hclassify : ∀ (word : String) (message : Message),
      message.content = textBlocks (joined "content" (chunks ++ [last])) →
      StopReason.classifyFor .ollama word message = .classify .ollama word := by
    intro word message hcontent
    rw [StopReason.classifyFor_eq, Message.toolCalls, hcontent, hcalls]
    exact if_neg fun hand => hand.2 rfl
  have hcounts : (decide (0 < (decodeUsage last).cache.created)
      || decide (0 < (decodeUsage last).cache.read)) = false := rfl
  simp only [hcounts, Bool.false_eq_true, if_false, List.append_nil]
  rw [replyOf]
  have hreasons : (last.get "done_reason").text?.map (fun word => StopReason.classifyFor .ollama
      word { role := .assistant
             content := textBlocks (joined "content" (chunks ++ [last]))
             metadata := .ofList (thoughtFields (joined "thinking" (chunks ++ [last]))) })
      = (last.get "done_reason").text?.map (.classify .ollama) :=
    Option.map_congr fun word _ => hclassify word _ rfl
  rw [hreasons]

/-! ## The body -/

theorem exists_members_of_isDone (h : isDone last = true) : ∃ members, last = .object members := by
  cases last with
  | object members => exact ⟨members, rfl⟩
  | _ => cases h

theorem decodeMessage_wholeMessage (chunks : List Json) :
    decodeMessage (wholeMessage chunks) = .ok {
      role := .assistant
      content := textBlocks (joined "content" chunks)
      metadata := .ofList (thoughtFields (joined "thinking" chunks)) } := by
  have hrole : decodeRole (wholeMessage chunks) = .ok .assistant := by
    have htext : Dialect.requireText .ollama (wholeMessage chunks) "role" = .ok "assistant" :=
      requireText_eq_ok rfl
    rw [decodeRole, htext]
    rfl
  have hcontent : (wholeMessage chunks).textOrEmpty "content" = joined "content" chunks := rfl
  have hthought : (wholeMessage chunks).textOrEmpty "thinking" = joined "thinking" chunks := rfl
  have himages : ((wholeMessage chunks).get "images").elements? = none := rfl
  rw [decodeMessage, hrole, himages, hcontent, hthought]
  simp only [Option.getD_none, List.mapM_nil, List.append_nil, bind, Except.bind, pure,
    Except.pure, String.isEmpty_iff, textBlocks, thoughtFields]
  by_cases hempty : joined "thinking" chunks = ""
  · rw [if_pos hempty, if_pos hempty]
    rfl
  · rw [if_neg hempty, if_neg hempty]
    rfl

theorem decodeReply_of_whole (h : IsStreamed chunks last) {body : Bytes}
    (hread : Json.readBytes? body = some (whole chunks last)) :
    decodeReply body = .ok (replyOf (joined "content" (chunks ++ [last]))
      (joined "thinking" (chunks ++ [last])) last) := by
  have hother : ∀ key, key ≠ "message" → (whole chunks last).get key = last.get key :=
    fun key hkey => Json.get_set_of_ne last hkey _
  have hmessage : (whole chunks last).get "message" = wholeMessage (chunks ++ [last]) := by
    obtain ⟨members, hmembers⟩ := exists_members_of_isDone h.ends
    rw [whole, hmembers, Json.get_set_self]
  have herror : ((whole chunks last).get "error").text? = none := by
    rw [hother "error" (by decide), Json.get_of_present?_eq_none (h.errors last (by simp))]
    rfl
  have husage : decodeUsage (whole chunks last) = decodeUsage last := by
    simp only [decodeUsage, Json.countOrZero, hother "prompt_eval_count" (by decide),
      hother "eval_count" (by decide)]
  have hparse : Dialect.parseBody .ollama body = .ok (whole chunks last) := by
    rw [Dialect.parseBody, hread]
  rw [decodeReply, hparse]
  simp only [bind, Except.bind, pure, Except.pure, herror, hmessage, husage,
    decodeMessage_wholeMessage, hother "done_reason" (by decide)]
  rfl

/-! ## Agreement -/

/-- A stream of lines, however its text and its reasoning are cut, gives the reply of the body that
bears both as a whole and agrees with the last line in all else. -/
theorem lines_agree_with_body (ids : CallIds) (frames : List Frame) (chunks : List Json)
    (last : Json)
    (hframes : List.Forall₂ (fun frame chunk => Json.read? frame.data = some chunk) frames
      (chunks ++ [last]))
    (h : IsStreamed chunks last) (body : Bytes)
    (hread : Json.readBytes? body = some (whole chunks last)) :
    ∃ reply, readReply .ollama ids (frames.map .ok) = .ok reply ∧ decodeReply body = .ok reply :=
  ⟨_, readReply_of_lines ids hframes h, decodeReply_of_whole h hread⟩

/-- Lines with reasoning in two pieces, a line without a message, and an end that brings text. -/
def hailChunks : List Json := [
  .object [("done", .bool false), ("message", .object [
    ("content", .string ""), ("role", .string "assistant"), ("thinking", .string "H")])],
  .object [("done", .bool false), ("message", .object [
    ("content", .string "Good "), ("thinking", .string "m")])],
  .object [("model", .string "llama")]]

/-- The last line. -/
def hailEnd : Json := .object [
  ("done", .bool true), ("done_reason", .string "length"), ("eval_count", .ofCount 2),
  ("message", .object [("content", .string "day")]), ("prompt_eval_count", .ofCount 9)]

theorem isStreamed_hailChunks : IsStreamed hailChunks hailEnd where
  errors := by decide +kernel
  goesOn := by decide +kernel
  ends := by decide +kernel

theorem lines_agree_with_body_hail :
    IsStreamed hailChunks hailEnd ∧ ∃ reply,
      readReply .ollama .numbered
          ((hailChunks ++ [hailEnd]).map fun chunk => .ok ⟨none, chunk.toText⟩)
        = .ok reply ∧
      decodeReply (Bytes.ofString (whole hailChunks hailEnd).toText) = .ok reply := by
  have hdepth : ∀ chunk ∈ hailChunks ++ [hailEnd], chunk.depth ≤ Json.maxDepth := by decide
  have hsame : ∀ chunk ∈ hailChunks ++ [hailEnd], chunk.reread.canonical = chunk := by
    decide +kernel
  have hframes : List.Forall₂ (fun frame chunk => Json.read? frame.data = some chunk)
      ((hailChunks ++ [hailEnd]).map fun chunk => (⟨none, chunk.toText⟩ : Frame))
      (hailChunks ++ [hailEnd]) := by
    rw [List.forall₂_map_left_iff]
    refine List.forall₂_same.2 fun chunk hchunk => ?_
    rw [Json.read?_toText (hdepth chunk hchunk), hsame chunk hchunk]
  have hbody : (whole hailChunks hailEnd).reread.canonical = whole hailChunks hailEnd := by
    decide +kernel
  have hread : Json.readBytes? (Bytes.ofString (whole hailChunks hailEnd).toText)
      = some (whole hailChunks hailEnd) := by
    rw [Json.readBytes?_toText (by decide +kernel), hbody]
  have hagree := lines_agree_with_body .numbered _ hailChunks hailEnd hframes
    isStreamed_hailChunks _ hread
  rw [List.map_map] at hagree
  exact ⟨isStreamed_hailChunks, hagree⟩

end ChatWire.Ollama
