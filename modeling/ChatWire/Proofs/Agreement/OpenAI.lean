import ChatWire.Proofs.Agreement.OpenAIChunks
import ChatWire.Proofs.Dialect.Basic
import ChatWire.Proofs.Json.Members
import ChatWire.Proofs.Json.Reprint

/-!
# Streams and bodies in the chat-completions format

A body says in one message what the chunks of a stream say in pieces (`OpenAI.IsBody`). The reply
that is read from the stream agrees with the one that is read from the body, however the pieces are
scattered over the chunks (`OpenAI.chunks_agree_with_body`).
-/

namespace ChatWire.OpenAI

open Dialect (requireText_eq_ok mapM_eq_ok_of_forall₂)
open Json (get_of_present? get_of_present?_eq_none)

/-- A tool call of a body says what the pieces of a position say. -/
structure IsCall (ps : List Json) (p : Nat) (call : Json) : Prop where
  id : call.get "id" = (firstAt ps p).get "id"
  name : (call.get "function").get "name" = ((firstAt ps p).get "function").get "name"
  arguments : (call.get "function").get "arguments" = .string (argumentsAt ps p)

/-- A message says what has been said in pieces: the whole text, the tool calls in the order in
which their positions first occur, and the whole refusal, null when it is empty. -/
structure IsMessage (message : Json) (g : Gathered) : Prop where
  role : message.get "role" = .string "assistant"
  content : message.get "content" = .string g.text ∨ g.text = "" ∧ message.get "content" = .null
  calls : positions g.pieces = [] ∧ message.present? "tool_calls" = none ∨
    ∃ calls, message.get "tool_calls" = .array calls ∧
      List.Forall₂ (IsCall g.pieces) (positions g.pieces) calls
  refusal : message.get "refusal" = if g.refusal = "" then .null else .string g.refusal
  toolCallId : message.present? "tool_call_id" = none

/-- A body says what chunks say. -/
structure IsBody (value : Json) (chunks : List Json) : Prop where
  error : value.present? "error" = none
  message : ∃ choice, (value.get "choices").first? = some choice ∧
    IsMessage (choice.get "message") (gather chunks)
  usage : value.present? "usage" = (chunks.filterMap (·.present? "usage")).getLast?

/-! ## Reading the body -/

variable {chunks : List Json} {message : Json}

theorem get_of_isSome {value : Json} {key : String} (h : (value.get key).text?.isSome) :
    value.get key = .string (value.textOrEmpty key) := by
  obtain ⟨s, hs⟩ := Option.isSome_iff_exists.1 h
  unfold Json.textOrEmpty
  rw [hs]
  unfold Json.text? at hs
  split at hs
  case h_1 heq =>
    rw [heq, Option.getD_some, Option.some.inj hs]
  case h_2 => cases hs

/-- The arguments of a call are read alike, in pieces and as a whole. -/
theorem decodeToolCall_eq {call : Json} {id name raw : String} (hid : call.get "id" = .string id)
    (hname : (call.get "function").get "name" = .string name)
    (hraw : (call.get "function").get "arguments" = .string raw)
    (hread : raw = "" ∨ (Json.read? raw).isSome) :
    decodeToolCall call
      = .ok ⟨id, name, (OpenBlock.readArguments? raw).getD Json.emptyObject⟩ := by
  have hid' : textOf call "id" = .ok id := requireText_eq_ok hid
  have hname' : textOf (call.get "function") "name" = .ok name := requireText_eq_ok hname
  have hraw' : ((call.get "function").get "arguments").text? = some raw := by
    rw [hraw]
    rfl
  rw [decodeToolCall]
  rcases hread with rfl | hread
  · simp only [hraw', hid', hname']
    rfl
  · obtain ⟨v, hv⟩ := Option.isSome_iff_exists.1 hread
    have hne : raw ≠ "" := by
      rintro rfl
      exact Json.not_all_isBlank_of_read? hv rfl
    simp only [hraw', hid', hname', hv, OpenBlock.readArguments?_of_read? hv]
    rfl

theorem decodeToolCalls_eq (h : IsStreamed chunks) (hm : IsMessage message (gather chunks)) :
    decodeToolCalls .assistant message
      = .ok ((positions (gather chunks).pieces).map (toolCallAt (gather chunks).pieces)) := by
  rcases hm.calls with ⟨hnone, hmissing⟩ | ⟨calls, hcalls, hsame⟩
  · rw [decodeToolCalls, hmissing, hnone]
    rfl
  · have hread : calls.mapM decodeToolCall
        = .ok ((positions (gather chunks).pieces).map (toolCallAt (gather chunks).pieces)) := by
      refine mapM_eq_ok_of_forall₂ hsame fun p hp call hcall => ?_
      obtain ⟨hid, hname⟩ := h.named p hp
      exact decodeToolCall_eq (hcall.id.trans (get_of_isSome hid))
        (hcall.name.trans (get_of_isSome hname)) hcall.arguments (h.arguments p hp)
    have hpresent : message.present? "tool_calls" = some (.array calls) := by
      unfold Json.get at hcalls
      cases hget : message.get? "tool_calls" with
      | none => simp [hget] at hcalls
      | some v =>
        obtain rfl : v = .array calls := by simpa [hget] using hcalls
        rw [Json.present?, hget]
        rfl
    rw [decodeToolCalls, hpresent]
    exact hread

theorem decodeContent_eq {g : Gathered} (hm : IsMessage message g) :
    decodeContent (message.get "content")
      = .ok (if g.text = "" then [] else [.text g.text]) := by
  rcases hm.content with htext | ⟨hempty, hnull⟩
  · rw [htext, decodeContent]
    simp only [String.isEmpty_iff]
  · rw [hnull, decodeContent, if_pos hempty]

theorem decodeMessage_eq (h : IsStreamed chunks) (hm : IsMessage message (gather chunks)) :
    decodeMessage message = .ok {
      role := .assistant
      content := (gather chunks).finals
      metadata := refusalFields (gather chunks).refusal } := by
  have hrole : decodeRole message = .ok .assistant := by
    have htext : textOf message "role" = .ok "assistant" := requireText_eq_ok hm.role
    rw [decodeRole, htext]
    rfl
  have hrefusal : (message.get "refusal").text?
      = if (gather chunks).refusal = "" then none else some (gather chunks).refusal := by
    rw [hm.refusal]
    split <;> rfl
  rw [decodeMessage, hrole]
  simp only [bind, Except.bind, pure, Except.pure, reduceCtorEq, if_false, hm.toolCallId,
    Option.isSome_none, Bool.false_eq_true, decodeContent_eq hm, decodeToolCalls_eq h hm]
  rw [hrefusal, Gathered.finals, refusalFields]
  by_cases hempty : (gather chunks).refusal = ""
  · rw [if_pos hempty, if_pos hempty]
  · rw [if_neg hempty, if_neg hempty]

/-- The reply of the body: the blocks that the chunks tell, the refusal if there is one, and the
token counts. -/
theorem decodeReply_of_isBody (h : IsStreamed chunks) {body : Bytes} {value : Json}
    (hread : Json.readBytes? body = some value) (hbody : IsBody value chunks) :
    ∃ stopReason, decodeReply body = .ok ⟨{
      role := .assistant
      content := (gather chunks).finals
      stopReason
      metadata := refusalFields (gather chunks).refusal }, (gather chunks).usage⟩ := by
  obtain ⟨choice, hchoice, hmessage⟩ := hbody.message
  have hparse : Dialect.parseBody .openai body = .ok value := by
    rw [Dialect.parseBody, hread]
  have husage : decodeUsage (value.get "usage") = (gather chunks).usage := by
    have hpresent := hbody.usage
    rw [gather, ← hpresent]
    cases hvalue : value.present? "usage" with
    | none =>
      rw [get_of_present?_eq_none hvalue]
      rfl
    | some usage =>
      rw [get_of_present? hvalue]
      rfl
  refine ⟨(choice.get "finish_reason").text?.map (.classify .openai), ?_⟩
  rw [decodeReply, hparse]
  simp only [bind, Except.bind, pure, Except.pure, hbody.error, hchoice,
    decodeMessage_eq h hmessage, husage]

/-! ## Agreement -/

/-- The replies that are read from a stream and from a body that say the same agree. The chunks may
cut the text, the refusal and the arguments of each tool call in pieces of any size, empty ones
included, and mix the pieces of different calls in any way; the end mark may be missing. The indices
of the stream are below the number of blocks that it brings. -/
theorem chunks_agree_with_body (ids : CallIds) (frames done : List Frame)
    (hframes : StreamState.BearChunks frames)
    (hdone : done = [] ∨ ∃ frame, done = [frame] ∧ StreamState.isDone frame = true)
    (h : IsStreamed (frames.map StreamState.chunkOf)) (body : Bytes) (value : Json)
    (hread : Json.readBytes? body = some value)
    (hbody : IsBody value (frames.map StreamState.chunkOf)) :
    ∃ streamed whole, readReply .openai ids ((frames ++ done).map .ok) = .ok streamed ∧
      decodeReply body = .ok whole ∧ streamed.Agrees whole ∧
      IndicesBelow streamed.message.withoutUsage.content.length
        (streamEvents .openai ids ((frames ++ done).map .ok)) := by
  obtain ⟨events, hstreamed, hstream, htells⟩ := readReply_of_chunks ids hframes hdone h
  obtain ⟨stopReason, hwhole⟩ := decodeReply_of_isBody h hread hbody
  have hbears := htells.bears _ h.close_blocks
  have hblocks : (Transcript.reply .openai events).message.withoutUsage.content
      = (gather (frames.map StreamState.chunkOf)).finals := hbears.filter_content_zipIdx
  refine ⟨_, _, hstreamed, hwhole, ⟨?_, ?_, ?_, ?_⟩, ?_⟩
  · obtain ⟨inner, hframed, -⟩ := htells.framed
    rw [hframed]
    rfl
  · change (Transcript.content events).filter (fun b => !b.isUsage) = _
    simp only [← hblocks, Message.withoutUsage, List.filter_filter, Bool.and_self]
    rfl
  · have hmetadata : (Transcript.metadata events).insertAll
        ((Transcript.stopSequence? events).map fun s => ("stop_sequence", Json.string s)).toList
          = refusalFields (gather (frames.map StreamState.chunkOf)).refusal := by
      rw [htells.stopSequence, htells.metadata]
      rfl
    exact hmetadata
  · exact htells.usage
  · rw [hblocks, hstream]
    exact hbears.indicesBelow

/-- Chunks with a text in two pieces, a call without arguments, and a call at an earlier position
whose arguments come in two pieces. -/
def searchChunks : List Json := [
  .object [("choices", .array [.object [("delta", .object [("content", .string "Look")])]])],
  .object [("choices", .array [.object [("delta", .object [
    ("content", .string " up"),
    ("tool_calls", .array [
      .object [("function", .object [("arguments", .string ""), ("name", .string "find")]),
        ("id", .string "b"), ("index", .ofCount 1)],
      .object [("function", .object [("arguments", .string "[1"), ("name", .string "list")]),
        ("id", .string "a"), ("index", .ofCount 0)]])])]])],
  .object [("choices", .array [.object [
    ("delta", .object [
      ("refusal", .string "No."),
      ("tool_calls", .array [
        .object [("function", .object [("arguments", .string ",2]")]), ("index", .ofCount 0)]])]),
    ("finish_reason", .string "tool_calls")]]),
    ("usage", .object [("prompt_tokens", .ofCount 10),
      ("prompt_tokens_details", .object [("cached_tokens", .ofCount 4)])])]]

/-- The body that says the same. -/
def searchBody : Json := .object [
  ("choices", .array [.object [("message", .object [
    ("content", .string "Look up"), ("refusal", .string "No."), ("role", .string "assistant"),
    ("tool_calls", .array [
      .object [("function", .object [("arguments", .string ""), ("name", .string "find")]),
        ("id", .string "b")],
      .object [("function", .object [("arguments", .string "[1,2]"), ("name", .string "list")]),
        ("id", .string "a")]])])]]),
  ("usage", .object [("prompt_tokens", .ofCount 10),
    ("prompt_tokens_details", .object [("cached_tokens", .ofCount 4)])])]

theorem isStreamed_searchChunks : IsStreamed searchChunks where
  errors := by decide +kernel
  placed := by decide +kernel
  named := by decide +kernel
  arguments := by decide +kernel
  textFirst before chunk after hsplit hpieces := by
    cases before with
    | nil =>
      obtain rfl := (List.cons.inj hsplit).1
      exact absurd rfl hpieces
    | cons first more =>
      obtain rfl := (List.cons.inj hsplit).1
      refine .inr ?_
      rw [List.cons_append, ← List.singleton_append, text_gather_append, Ne,
        String.append_eq_empty_iff]
      exact fun h => absurd h.1 (by decide +kernel)
  ended := by decide +kernel

theorem isBody_searchBody : IsBody searchBody searchChunks where
  error := by decide +kernel
  message := by
    have hpositions : positions (gather searchChunks).pieces = [1, 0] := by decide +kernel
    refine ⟨_, rfl, rfl, .inl ?_, .inr ⟨_, rfl, ?_⟩, ?_, ?_⟩
    · decide +kernel
    · rw [hpositions]
      exact .cons ⟨by decide +kernel, by decide +kernel, by decide +kernel⟩
        (.cons ⟨by decide +kernel, by decide +kernel, by decide +kernel⟩ .nil)
    · decide +kernel
    · decide +kernel
  usage := by decide +kernel

theorem chunks_agree_with_body_search :
    IsStreamed searchChunks ∧ IsBody searchBody searchChunks ∧ ∃ streamed whole,
      readReply .openai .numbered (framesOf searchChunks ++ [.ok ⟨none, "[DONE]"⟩]) = .ok streamed ∧
      decodeReply (Bytes.ofString searchBody.toText) = .ok whole ∧ streamed.Agrees whole := by
  have hprinted : ∀ chunk ∈ searchChunks, chunk.IsReprinted := by decide +kernel
  have hbytes : Json.readBytes? (Bytes.ofString searchBody.toText) = some searchBody :=
    Json.IsReprinted.readBytes?_eq (by decide +kernel)
  have hframes : StreamState.BearChunks (searchChunks.map fun chunk => ⟨none, chunk.toText⟩) := by
    intro frame hframe
    obtain ⟨chunk, hchunk, rfl⟩ := List.mem_map.1 hframe
    have hread : Json.read? (Frame.mk none chunk.toText).data = some chunk := hprinted chunk hchunk
    exact ⟨StreamState.isDone_of_read? hread, Option.isSome_of_eq_some hread⟩
  have hchunks : (searchChunks.map fun chunk => (⟨none, chunk.toText⟩ : Frame)).map
      StreamState.chunkOf = searchChunks := by
    rw [List.map_map]
    refine (List.map_congr_left fun chunk hchunk => ?_).trans (List.map_id _)
    have hread : Json.read? (Frame.mk none chunk.toText).data = some chunk := hprinted chunk hchunk
    rw [Function.comp_apply, StreamState.chunkOf, hread]
    rfl
  have hstreamed := isStreamed_searchChunks
  have hbody := isBody_searchBody
  obtain ⟨streamed, whole, hreply, hwhole, hagrees, -⟩ := chunks_agree_with_body .numbered
    (searchChunks.map fun chunk => ⟨none, chunk.toText⟩) [⟨none, "[DONE]"⟩] hframes
    (.inr ⟨_, rfl, by decide +kernel⟩) (by rw [hchunks]; exact hstreamed)
    (Bytes.ofString searchBody.toText) searchBody hbytes (by rw [hchunks]; exact hbody)
  rw [List.map_append] at hreply
  exact ⟨hstreamed, hbody, streamed, whole, hreply, hwhole, hagrees⟩

end ChatWire.OpenAI
