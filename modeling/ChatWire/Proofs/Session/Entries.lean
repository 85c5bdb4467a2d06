import ChatWire.Proofs.Dialect.Basic
import ChatWire.Proofs.Session.Outbound

/-!
# The entries of a request

The message list of a request has the entries of the messages that travel, in order, behind the
system prompt where the format has it there. A message is one entry, unless it comes from tools and
the format wants one result to a message (`Request.Entries`). The request fails with the first entry
that cannot be written, and for nothing else but tools that the format does not take
(`Request.body_carries`).
-/

namespace ChatWire.Request

open Dialect

variable {p : Provider} {m : Message}

/-- The member of a body that lists the messages. -/
def messagesKey : Provider → String
  | .gemini => "contents"
  | _ => "messages"

/-- The entries before those of the messages. -/
def promptEntries (p : Provider) (o : Options) : List Json :=
  match p, o.systemPrompt with
  | .openai, some prompt | .ollama, some prompt =>
    [.object [("content", .string prompt), ("role", .string "system")]]
  | _, _ => []

/-- The message has several blocks from tools in a format that wants one result to a message. -/
def IsTakenApart (p : Provider) (m : Message) : Prop :=
  p = .openai ∧ m.role = .tool ∧ 1 < m.content.length

/-- A block from a tool as a message of its own. -/
def alone (b : Block) : Message := { role := .tool, content := [b] }

/-- What a message becomes in the message list. -/
inductive Entries (p : Provider) (m : Message) : List Json → Prop
  | whole {w : Json} (h : ¬ IsTakenApart p m) (hw : p.encodeMessage m = .ok w) : Entries p m [w]
  | blocks {ws : List Json} (h : IsTakenApart p m)
      (hws : List.Forall₂ (fun b w => p.encodeMessage (alone b) = .ok w) m.content ws) :
      Entries p m ws

/-- The first fault of a message that cannot be written. -/
inductive Refuses (p : Provider) (m : Message) (e : Error) : Prop
  | whole (h : ¬ IsTakenApart p m) (he : p.encodeMessage m = .error e)
  | block {before after : List Block} {b : Block} (h : IsTakenApart p m)
      (hcontent : m.content = before ++ b :: after)
      (hbefore : ∀ x ∈ before, ∃ w, p.encodeMessage (alone x) = .ok w)
      (he : p.encodeMessage (alone b) = .error e)

/-! ## One message -/

theorem spread_of_isTakenApart (h : IsTakenApart p m) : spread p [m] = m.content.map alone := by
  obtain ⟨rfl, hrole, hlength⟩ := h
  rw [spread, if_pos rfl, List.flatMap_singleton, splitResults, if_pos (by simp [hrole, hlength])]
  rfl

theorem spread_of_not_isTakenApart (h : ¬ IsTakenApart p m) : spread p [m] = [m] := by
  unfold spread
  split
  case isTrue hp =>
    have hone : ¬ (m.role = .tool ∧ 1 < m.content.length) := fun hm => h ⟨hp, hm⟩
    rw [List.flatMap_singleton, splitResults, if_neg (by simpa using hone)]
  case isFalse => rfl

theorem mapM_spread_eq_ok_iff {ws : List Json} :
    (spread p [m]).mapM p.encodeMessage = .ok ws ↔ Entries p m ws := by
  by_cases h : IsTakenApart p m
  · rw [spread_of_isTakenApart h, mapM_eq_ok_iff_forall₂, List.forall₂_map_left_iff]
    constructor
    · intro hws
      exact .blocks h hws
    · intro hentries
      cases hentries with
      | whole hnot => exact absurd h hnot
      | blocks _ hws => exact hws
  · rw [spread_of_not_isTakenApart h, mapM_cons_eq_ok_iff]
    constructor
    · rintro ⟨w, rest, hw, hrest, rfl⟩
      obtain rfl := Except.ok.inj hrest
      exact .whole h hw
    · intro hentries
      cases hentries with
      | whole _ hw => exact ⟨_, [], hw, rfl, rfl⟩
      | blocks hapart => exact absurd hapart h

theorem mapM_spread_eq_error_iff {e : Error} :
    (spread p [m]).mapM p.encodeMessage = .error e ↔ Refuses p m e := by
  by_cases h : IsTakenApart p m
  · rw [spread_of_isTakenApart h, mapM_eq_error_iff]
    constructor
    · rintro ⟨before, x, after, hsplit, hbefore, hx⟩
      obtain ⟨front, back, hcontent, rfl, hback⟩ := List.map_eq_append_iff.1 hsplit
      obtain ⟨b, rest, rfl, rfl, rfl⟩ := List.map_eq_cons_iff.1 hback
      exact .block h hcontent (fun x hx => hbefore (alone x) (List.mem_map_of_mem hx)) hx
    · intro hrefuses
      cases hrefuses with
      | whole hnot => exact absurd h hnot
      | @block before after b _ hcontent hbefore he =>
        refine ⟨before.map alone, alone b, after.map alone, ?_, ?_, he⟩
        · rw [hcontent, List.map_append, List.map_cons]
        · intro x hx
          obtain ⟨y, hy, rfl⟩ := List.mem_map.1 hx
          exact hbefore y hy
  · rw [spread_of_not_isTakenApart h, mapM_cons_eq_error_iff]
    constructor
    · rintro (he | ⟨-, hnil⟩)
      · exact .whole h he
      · cases hnil
    · intro hrefuses
      cases hrefuses with
      | whole _ he => exact .inl he
      | block hapart => exact absurd hapart h

/-! ## All messages -/

theorem spread_eq_flatMap (p : Provider) (messages : List Message) :
    spread p messages = messages.flatMap fun m => spread p [m] := by
  induction messages with
  | nil =>
    unfold spread
    split <;> rfl
  | cons m rest ih => rw [List.flatMap_cons, ← ih, ← spread_append, List.singleton_append]

theorem mapM_sent (p : Provider) (messages : List Message) :
    (sent p messages).mapM p.encodeMessage
      = ((nameResults (carried messages)).mapM fun m =>
          (spread p [m]).mapM p.encodeMessage).map List.flatten := by
  rw [← mapM_flatMap, ← spread_eq_flatMap]
  rfl

/-- The entries of messages are those of each of them, in order. -/
theorem mapM_sent_eq_ok_iff {messages : List Message} {ws : List Json} :
    (sent p messages).mapM p.encodeMessage = .ok ws ↔
      ∃ groups, List.Forall₂ (Entries p) (nameResults (carried messages)) groups ∧
        ws = groups.flatten := by
  rw [mapM_sent, map_eq_ok_iff]
  refine exists_congr fun groups => and_congr ?_ eq_comm
  rw [mapM_eq_ok_iff_forall₂]
  simp only [mapM_spread_eq_ok_iff]

theorem mapM_sent_eq_error_iff {messages : List Message} {e : Error} :
    (sent p messages).mapM p.encodeMessage = .error e ↔
      ∃ before m after, nameResults (carried messages) = before ++ m :: after ∧
        (∀ x ∈ before, ∃ ws, Entries p x ws) ∧ Refuses p m e := by
  rw [mapM_sent, map_eq_error_iff, mapM_eq_error_iff]
  simp only [mapM_spread_eq_ok_iff, mapM_spread_eq_error_iff]

theorem get?_assembled (p : Provider) (model : String) (tools : List Tool) (o : Options)
    (written : List Json) :
    (assembled p model tools o written).get? (messagesKey p)
      = some (.array (promptEntries p o ++ written)) := by
  cases p with
  | anthropic => rfl
  | gemini => rfl
  | openai =>
    cases h : o.systemPrompt <;> simp [assembled, openaiBody, Json.ofMembers, Json.get?,
      messagesKey, promptEntries, leadingPrompt, h]
  | ollama =>
    cases h : o.systemPrompt <;> simp [assembled, ollamaBody, Json.get?, messagesKey, promptEntries,
      leadingPrompt, h]

/-- Nothing more is taken out of what travels. -/
theorem carried_carried (messages : List Message) :
    carried (carried messages) = carried messages := by
  have hroles : ∀ m ∈ carried messages, (m.role != .system) = true := by
    intro m hm
    obtain ⟨x, hx, rfl⟩ := List.mem_map.1 hm
    exact (List.mem_filter.1 hx).2
  have hcounts : ∀ m ∈ carried messages, m.withoutUsage = m := by
    intro m hm
    obtain ⟨x, -, rfl⟩ := List.mem_map.1 hm
    simp [Message.withoutUsage]
  conv_lhs => rw [carried, List.filter_eq_self.2 hroles]
  exact (List.map_congr_left hcounts).trans (List.map_id _)

theorem body_carried (p : Provider) (model : String) (messages : List Message) (tools : List Tool)
    (o : Options) :
    body p model (carried messages) tools o = body p model messages tools o := by
  have hsame : outbound (carried messages) = outbound messages :=
    congrArg nameResults (carried_carried messages)
  cases p <;> simp only [body, conversationBody, hsame]

theorem body_eq_conversationBody {o : Options} (hcheck : o.check = .ok ())
    (hextra : o.extra = .empty) (p : Provider) (model : String) (messages : List Message)
    (tools : List Tool) :
    body p model messages tools o = conversationBody p model messages tools o := by
  rw [body, hcheck, hextra]
  cases conversationBody p model messages tools o <;> rfl

/-- With valid options and no further fields, standing instructions and cache counts do not matter
for a request. The list of its messages has the system prompt in front where the format has it there
and one is set, and then the entries of each of the other messages, whose results are named, in
order. It fails exactly if tools are given to the local chat format, or else with the first fault of
the first message that cannot be written. -/
theorem body_carries (p : Provider) (model : String) (messages : List Message) (tools : List Tool)
    {o : Options} (hcheck : o.check = .ok ()) (hextra : o.extra = .empty) :
    body p model messages tools o = body p model (carried messages) tools o ∧
    (∀ request, body p model messages tools o = .ok request →
      ∃ groups, List.Forall₂ (Entries p) (nameResults (carried messages)) groups ∧
        request.get? (messagesKey p) = some (.array (promptEntries p o ++ groups.flatten))) ∧
    ∀ e, body p model messages tools o = .error e ↔
      (p = .ollama ∧ tools ≠ [] ∧ e = .unsupported .ollama .toolDeclarations) ∨
      (p = .ollama → tools = []) ∧ ∃ before m after,
        nameResults (carried messages) = before ++ m :: after ∧
        (∀ x ∈ before, ∃ ws, Entries p x ws) ∧ Refuses p m e := by
  refine ⟨(body_carried p model messages tools o).symm, ?_⟩
  rw [body_eq_conversationBody hcheck hextra]
  by_cases htools : p = .ollama → tools = []
  · rw [conversationBody_eq htools]
    constructor
    · intro request hrequest
      obtain ⟨written, hwritten, rfl⟩ := map_eq_ok_iff.1 hrequest
      obtain ⟨groups, hentries, rfl⟩ := mapM_sent_eq_ok_iff.1 hwritten
      exact ⟨groups, hentries, get?_assembled p model tools o groups.flatten⟩
    · intro e
      have hno : ¬ (p = .ollama ∧ tools ≠ [] ∧ e = .unsupported .ollama .toolDeclarations) :=
        fun h => h.2.1 (htools h.1)
      rw [or_iff_right hno, and_iff_right htools, map_eq_error_iff]
      exact mapM_sent_eq_error_iff
  · obtain ⟨rfl, hsome⟩ := Classical.not_imp.1 htools
    rw [conversationBody_of_tools hsome]
    constructor
    · intro request hrequest
      cases hrequest
    · intro e
      constructor
      · intro he
        exact .inl ⟨rfl, hsome, (Except.error.inj he).symm⟩
      · rintro (⟨-, -, rfl⟩ | ⟨hnone, -⟩)
        · rfl
        · exact absurd (hnone rfl) hsome

/-- A question about two cities, the calls that it leads to with the cache counts of the reply, and
both results in one message, the second one without the name of its tool. -/
def weatherHistory : List Message := [
  .ofText .system "Be brief.",
  .ofText .user "Lima or Oslo?",
  { role := .assistant, content := [.toolCall ⟨"c1", "sun", .emptyObject⟩,
      .toolCall ⟨"c2", "rain", .emptyObject⟩, .usage ⟨512, 0⟩] },
  { role := .tool, content := [.toolResult ⟨"c1", "sun", "much", false⟩,
      .toolResult ⟨"c2", "", "down", true⟩] }]

/-- The entry of a result. -/
def resultEntry (id name content : String) : Json :=
  .object [("content", .string content), ("name", .string name), ("role", .string "tool"),
    ("tool_call_id", .string id)]

theorem body_carries_weather :
    ∃ request groups o, o = { systemPrompt := some "Be brief." : Options } ∧
      o.check = .ok () ∧ o.extra = .empty ∧
      body .openai "gpt" weatherHistory [] o = .ok request ∧
      List.Forall₂ (Entries .openai) (nameResults (carried weatherHistory)) groups ∧
      request.get? "messages" = some (.array (promptEntries .openai o ++ groups.flatten)) ∧
      ∃ asked called, groups.flatten = [asked, called, resultEntry "c1" "sun" "much",
        resultEntry "c2" "rain" "[error] down"] := by
  have hcheck : ({ systemPrompt := some "Be brief." } : Options).check = .ok () := by
    decide +kernel
  obtain ⟨request, hrequest⟩ : ∃ request, body .openai "gpt" weatherHistory []
      { systemPrompt := some "Be brief." } = .ok request := ⟨_, rfl⟩
  obtain ⟨groups, hentries, hlist⟩ :=
    (body_carries .openai "gpt" weatherHistory [] hcheck rfl).2.1 request hrequest
  have hwritten : (sent .openai weatherHistory).mapM Provider.openai.encodeMessage
      = .ok groups.flatten :=
    mapM_sent_eq_ok_iff.2 ⟨groups, hentries, rfl⟩
  exact ⟨request, groups, _, rfl, hcheck, rfl, hrequest, hentries, hlist, _, _,
    Except.ok.inj (hwritten.symm.trans rfl)⟩

end ChatWire.Request
