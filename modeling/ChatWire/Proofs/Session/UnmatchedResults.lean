import ChatWire.Conversation
import ChatWire.Proofs.Dialect.Basic
import ChatWire.Proofs.Session.Outbound

/-!
# Results and the calls they answer

Two passes look for the call that a result answers. The conversation looks among all its messages
and takes a message's own calls for earlier ones wherever they stand
(`Conversation.exists_call_of_matched`); a request looks among the messages that it carries and in
front of the result. So the results of a conversation in which every result answers a call are named
in a request, unless their calls stand aside
(`Request.nameless_only_if_called_aside`).
-/

namespace ChatWire

namespace Conversation

theorem unmatchedFrom_append (calls : List String) (before after : List Message) :
    unmatchedFrom calls (before ++ after) = unmatchedFrom calls before
      ++ unmatchedFrom (calls ++ (before.flatMap Message.toolCalls).map ToolCall.id) after := by
  induction before generalizing calls with
  | nil => simp [unmatchedFrom]
  | cons m rest ih =>
    rw [List.cons_append, unmatchedFrom, unmatchedFrom, ih, List.append_assoc, List.append_assoc,
      List.flatMap_cons, List.map_append]

/-- The conversation finds a call for every result among the calls so far and those of the result's
own message. -/
theorem exists_call_of_matched {c : Conversation} (h : c.unmatchedResults = [])
    {before after : List Message} {m : Message} (hmessages : c.messages = before ++ m :: after)
    {r : ToolResult} (hr : r ∈ m.toolResults) :
    ∃ call ∈ before.flatMap Message.toolCalls ++ m.toolCalls, call.id = r.id := by
  rw [unmatchedResults, hmessages, unmatchedFrom_append, unmatchedFrom] at h
  have hown := (List.append_eq_nil_iff.1 (List.append_eq_nil_iff.1 h).2).1
  have hfound := List.filter_eq_nil_iff.1 hown r hr
  rw [List.nil_append, ← List.map_append, Bool.not_eq_true', Bool.not_eq_false,
    List.contains_iff_mem] at hfound
  exact List.mem_map.1 hfound

end Conversation

namespace Request

open Dialect (bind_eq_error_iff exists_of_mapM_eq_error)

/-! ## What a request carries -/

/-- What a request carries stands in the conversation, behind the same messages and the ones that
are not carried. -/
theorem exists_of_carried_eq {messages front back : List Message} {x : Message}
    (h : carried messages = front ++ x :: back) :
    ∃ before m after, messages = before ++ m :: after ∧ m.role ≠ .system ∧
      x = m.withoutUsage ∧ front = carried before := by
  obtain ⟨kept, rest, hkept, rfl, hrest⟩ := List.map_eq_append_iff.1 h
  obtain ⟨m, others, rfl, rfl, -⟩ := List.map_eq_cons_iff.1 hrest
  obtain ⟨before, after, rfl, rfl, hrole, -⟩ := filter_eq_append_cons hkept
  exact ⟨before, m, after, rfl, by simpa using hrole, rfl, rfl⟩

/-- The calls that a request carries are those of the messages that it carries. -/
theorem mem_callsBefore_carried {before : List Message} {front : List Block} {call : ToolCall} :
    call ∈ callsBefore (carried before) (front.filter fun b => !b.isUsage) ↔
      (∃ x ∈ before, x.role ≠ .system ∧ call ∈ x.toolCalls) ∨ .toolCall call ∈ front := by
  have hblocks (blocks : List Block) :
      call ∈ (blocks.filter fun b => !b.isUsage).filterMap Block.toolCall? ↔
        .toolCall call ∈ blocks := by
    rw [mem_filterMap_toolCall?, List.mem_filter]
    exact and_iff_left rfl
  have hmessage (x : Message) : call ∈ x.withoutUsage.toolCalls ↔ call ∈ x.toolCalls :=
    (hblocks x.content).trans Message.mem_toolCalls.symm
  rw [callsBefore, List.mem_append, hblocks, carried, List.flatMap_map, List.mem_flatMap]
  simp only [List.mem_filter, bne_iff_ne, hmessage, and_assoc]

/-- The result that a request carries without a name, as its `i`th message and there its `j`th
block, has none in the conversation either, where it stands behind as many messages that are carried
and behind as many blocks that are. None of these messages and none of the blocks in front of it
calls its tool; such calls as there are stand in standing instructions before it or behind it in its
own message. -/
inductive IsCalledAside (messages : List Message) (i j : Nat) (r : ToolResult) : Prop
  | intro {before after : List Message} {m : Message} {front back : List Block}
      (hmessages : messages = before ++ m :: after) (hrole : m.role ≠ .system)
      (hcontent : m.content = front ++ .toolResult r :: back)
      (hi : (before.filter fun x => x.role != .system).length = i)
      (hj : (front.filter fun b => !b.isUsage).length = j)
      (hname : r.name = "")
      (hbefore : ∀ x ∈ before, ∀ call ∈ x.toolCalls, call.id = r.id → x.role = .system)
      (hfront : ∀ call, .toolCall call ∈ front → call.id ≠ r.id)
      (haside : (∃ x ∈ before, ∃ call ∈ x.toolCalls, call.id = r.id) ∨
        ∃ call, .toolCall call ∈ back ∧ call.id = r.id)

variable {c : Conversation}

/-- A result that is carried without a name is the one in its place and has no call before it. -/
theorem exists_of_nameless {messages : List Message}
    (hcalls : ∀ m ∈ messages, ∀ call ∈ m.toolCalls, call.name ≠ "") {i j : Nat} {m' : Message}
    (hm' : (outbound messages)[i]? = some m') {r : ToolResult}
    (hr : m'.content[j]? = some (.toolResult r)) (hname : r.name = "") :
    ∃ before m after front back, messages = before ++ m :: after ∧ m.role ≠ .system ∧
      (carried before).length = i ∧ m.content = front ++ .toolResult r :: back ∧
      (front.filter fun b => !b.isUsage).length = j ∧
      ∀ call ∈ callsBefore (carried before) (front.filter fun b => !b.isUsage), call.id ≠ r.id := by
  obtain ⟨earlier, x, later, kept, b, rest, hcarried, hi, hcontent, hj, hnamed⟩ :=
    exists_of_getElem?_nameResults hm' hr
  obtain ⟨before, m, after, hmessages, hrole, rfl, rfl⟩ := exists_of_carried_eq hcarried
  obtain ⟨front, back, hm, rfl, -, -⟩ := filter_eq_append_cons hcontent
  cases hnamed with
  | kept h => exact absurd hname (h r rfl)
  | @called r' _ _ call _ hsplit hid =>
    have hcall : call ∈ callsBefore (carried before) (front.filter fun b => !b.isUsage) := by
      rw [hsplit]
      exact List.mem_append_right _ List.mem_cons_self
    rcases mem_callsBefore_carried.1 hcall with ⟨y, hy, -, hy'⟩ | hfront
    · have hmem : y ∈ messages := hmessages ▸ List.mem_append_left _ hy
      exact absurd hname (hcalls y hmem call hy')
    · have hmem : m ∈ messages := hmessages ▸ List.mem_append_right _ List.mem_cons_self
      have hcall' : .toolCall call ∈ m.content := hm ▸ List.mem_append_left _ hfront
      exact absurd hname (hcalls m hmem call (Message.mem_toolCalls.2 hcall'))
  | uncalled _ hnone =>
    exact ⟨before, m, after, front, back, hmessages, hrole, hi, hm, hj, hnone⟩

/-- A name is missing in a request only where it was missing and no call gave it. -/
theorem isCalledAside_of_nameless
    (hcalls : ∀ m ∈ c.messages, ∀ call ∈ m.toolCalls, call.name ≠ "")
    (hmatched : c.unmatchedResults = []) {i j : Nat} {m' : Message}
    (hm' : (outbound c.messages)[i]? = some m') {r : ToolResult}
    (hr : m'.content[j]? = some (.toolResult r)) (hname : r.name = "") :
    IsCalledAside c.messages i j r := by
  obtain ⟨before, m, after, front, back, hmessages, hrole, hi, hcontent, hj, hnone⟩ :=
    exists_of_nameless hcalls hm' hr hname
  have hbefore : ∀ x ∈ before, ∀ call ∈ x.toolCalls, call.id = r.id → x.role = .system := by
    intro x hx call hcall hid
    by_contra hsent
    exact hnone call (mem_callsBefore_carried.2 (.inl ⟨x, hx, hsent, hcall⟩)) hid
  have hfront : ∀ call, .toolCall call ∈ front → call.id ≠ r.id := fun call hcall =>
    hnone call (mem_callsBefore_carried.2 (.inr hcall))
  have hown : r ∈ m.toolResults :=
    Message.mem_toolResults.2 (hcontent ▸ List.mem_append_right _ List.mem_cons_self)
  obtain ⟨call, hcall, hid⟩ := Conversation.exists_call_of_matched hmatched hmessages hown
  rw [carried, List.length_map] at hi
  refine .intro hmessages hrole hcontent hi hj hname hbefore hfront ?_
  rcases List.mem_append.1 hcall with hearlier | hsame
  · obtain ⟨x, hx, hmem⟩ := List.mem_flatMap.1 hearlier
    exact .inl ⟨x, hx, call, hmem, hid⟩
  · rw [Message.mem_toolCalls, hcontent] at hsame
    rcases List.mem_append.1 hsame with hmem | hmem
    · exact absurd hid (hfront call hmem)
    · exact .inr ⟨call, List.mem_of_ne_of_mem Block.noConfusion hmem, hid⟩

/-! ## Refused results -/

theorem namelessResult_of_encodePart {b : Block} {id : String}
    (h : Gemini.encodePart b = .error (.unsupported .gemini (.namelessResult id))) :
    ∃ r, b = .toolResult r ∧ r.name = "" ∧ r.id = id := by
  cases b with
  | toolResult r =>
    rw [Gemini.encodePart] at h
    split at h
    case isTrue hname =>
      injection h with h
      injection h with _ h
      injection h with h
      exact ⟨r, rfl, String.isEmpty_iff.1 hname, h⟩
    case isFalse => cases h
  | redactedThinking | cacheControl | usage => cases h
  | _ => cases h

theorem namelessResult_of_encodeMessage {m : Message} {id : String}
    (h : Gemini.encodeMessage m = .error (.unsupported .gemini (.namelessResult id))) :
    ∃ r ∈ m.toolResults, r.name = "" ∧ r.id = id := by
  rcases bind_eq_error_iff.1 h with hrole | ⟨name, -, h⟩
  · cases hm : m.role <;> rw [hm] at hrole <;> cases hrole
  · rcases bind_eq_error_iff.1 h with hparts | ⟨parts, -, hpure⟩
    · obtain ⟨b, hb, hfail⟩ := exists_of_mapM_eq_error hparts
      obtain ⟨r, rfl, hname, hid⟩ := namelessResult_of_encodePart hfail
      exact ⟨r, Message.mem_toolResults.2 hb, hname, hid⟩
    · cases hpure

theorem exists_of_check_eq_error {o : Options} {e : Error} (h : o.check = .error e) :
    ∃ fault, e = .setting fault := by
  unfold Options.check at h
  split at h
  case isTrue => exact ⟨_, (Except.error.inj h).symm⟩
  case isFalse =>
    split at h
    case isTrue => exact ⟨_, (Except.error.inj h).symm⟩
    case isFalse =>
      split at h
      case h_1 => exact ⟨_, (Except.error.inj h).symm⟩
      case h_2 => cases h

theorem namelessResult_of_body {model : String} {messages : List Message} {tools : List Tool}
    {o : Options} {id : String}
    (h : body .gemini model messages tools o
      = .error (.unsupported .gemini (.namelessResult id))) :
    ∃ m ∈ outbound messages, ∃ r ∈ m.toolResults, r.name = "" ∧ r.id = id := by
  rcases bind_eq_error_iff.1 h with hcheck | ⟨_, -, h⟩
  · obtain ⟨fault, hfault⟩ := exists_of_check_eq_error hcheck
    cases hfault
  · rcases bind_eq_error_iff.1 h with hbody | ⟨json, -, hpure⟩
    · rcases bind_eq_error_iff.1 hbody with hwrite | ⟨_, -, hpure⟩
      · obtain ⟨m, hm, hfail⟩ := exists_of_mapM_eq_error hwrite
        exact ⟨m, hm, namelessResult_of_encodeMessage hfail⟩
      · cases hpure
    · cases hpure

/-- If every call has a name and every result of a conversation answers a call, then a result goes
out without a name only if its calls stand aside, and the Gemini format refuses no result for its
name but such a one. -/
theorem nameless_only_if_called_aside {c : Conversation}
    (hcalls : ∀ m ∈ c.messages, ∀ call ∈ m.toolCalls, call.name ≠ "")
    (hmatched : c.unmatchedResults = []) :
    (∀ i j m r, (outbound c.messages)[i]? = some m → m.content[j]? = some (.toolResult r) →
      r.name = "" → IsCalledAside c.messages i j r) ∧
    ∀ model tools o id,
      body .gemini model c.messages tools o = .error (.unsupported .gemini (.namelessResult id)) →
      ∃ i j m r, (outbound c.messages)[i]? = some m ∧ m.content[j]? = some (.toolResult r) ∧
        r.name = "" ∧ r.id = id ∧ IsCalledAside c.messages i j r := by
  constructor
  · intro i j m r hm hr hname
    exact isCalledAside_of_nameless hcalls hmatched hm hr hname
  · intro model tools o id hrefused
    obtain ⟨m, hm, r, hr, hname, hid⟩ := namelessResult_of_body hrefused
    obtain ⟨i, hi⟩ := List.mem_iff_getElem?.1 hm
    obtain ⟨j, hj⟩ := List.mem_iff_getElem?.1 (Message.mem_toolResults.1 hr)
    exact ⟨i, j, m, r, hi, hj, hname, hid, isCalledAside_of_nameless hcalls hmatched hi hj hname⟩

/-- Two results without names, of which one answers the model and the other standing
instructions. -/
def clockHistory : Conversation where
  messages := [
    { role := .system, content := [.toolCall ⟨"c0", "clock", .emptyObject⟩] },
    { role := .assistant, content := [.toolCall ⟨"c1", "sun", .emptyObject⟩] },
    { role := .tool, content := [.toolResult ⟨"c1", "", "much", false⟩,
        .toolResult ⟨"c0", "", "noon", false⟩] }]

theorem nameless_only_if_called_aside_clock :
    (∀ m ∈ clockHistory.messages, ∀ call ∈ m.toolCalls, call.name ≠ "") ∧
      clockHistory.unmatchedResults = [] ∧
      (outbound clockHistory.messages).flatMap Message.toolResults
        = [⟨"c1", "sun", "much", false⟩, ⟨"c0", "", "noon", false⟩] ∧
      IsCalledAside clockHistory.messages 1 1 ⟨"c0", "", "noon", false⟩ ∧
      body .gemini "gemini" clockHistory.messages [] {}
        = .error (.unsupported .gemini (.namelessResult "c0")) ∧
      ∃ i j r, r.id = "c0" ∧ IsCalledAside clockHistory.messages i j r := by
  have hcalls : ∀ m ∈ clockHistory.messages, ∀ call ∈ m.toolCalls, call.name ≠ "" := by decide
  have hmatched : clockHistory.unmatchedResults = [] := by decide
  have hrefused : body .gemini "gemini" clockHistory.messages [] {}
      = .error (.unsupported .gemini (.namelessResult "c0")) := rfl
  obtain ⟨hnameless, hgemini⟩ := nameless_only_if_called_aside hcalls hmatched
  obtain ⟨i, j, -, r, -, -, -, hid, haside⟩ := hgemini "gemini" [] {} "c0" hrefused
  exact ⟨hcalls, hmatched, by decide, hnameless 1 1 _ _ rfl rfl rfl, hrefused,
    i, j, r, hid, haside⟩

/-- Every call has a name and every result answers a call, and still a result goes out without a
name and is refused for it. -/
def IsMatchedButRefused (c : Conversation) : Prop :=
  (∀ m ∈ c.messages, ∀ call ∈ m.toolCalls, call.name ≠ "") ∧ c.unmatchedResults = [] ∧
    (∃ m ∈ outbound c.messages, ∃ r ∈ m.toolResults, r.name = "") ∧
    ∃ id, body .gemini "gemini" c.messages [] {}
      = .error (.unsupported .gemini (.namelessResult id))

/-- The call of the result stands in standing instructions. -/
def standingCall : Conversation where
  messages := [
    { role := .system, content := [.toolCall ⟨"a", "find", .emptyObject⟩] },
    .ofToolResult ⟨"a", "", "found", false⟩]

/-- The call of the result stands behind it. -/
def lateCall : Conversation where
  messages := [
    { role := .assistant, content := [.toolResult ⟨"a", "", "found", false⟩,
        .toolCall ⟨"a", "find", .emptyObject⟩] }]

theorem matched_results_refused :
    IsMatchedButRefused standingCall ∧ IsMatchedButRefused lateCall := by
  exact ⟨⟨by decide, by decide, by decide, "a", rfl⟩, ⟨by decide, by decide, by decide, "a", rfl⟩⟩

end Request

end ChatWire
