import ChatWire.Proofs.Dialect.Replies
import ChatWire.Proofs.Stream.Completion

/-!
# Stop reasons of whole replies and of streams

An assembly reads the provider's word for why generation ended together with the message: a normal
stop with tool calls waits for the tools. Two of the readers of whole replies read the word alone
and tell such a stop as a normal one. Apart from this case the stop reason does not depend on how a
reply was received (`stopReason_agrees`).
-/

namespace ChatWire

/-! ## The word -/

/-- The provider's word for why generation ended, if the body of a reply has one. -/
def Provider.stopWord? (p : Provider) (value : Json) : Option String :=
  match p with
  | .anthropic => (value.get "stop_reason").text?
  | .gemini => (value.get "candidates").first?.bind fun candidate =>
    Gemini.textField? candidate "finish_reason" "finishReason"
  | .openai => (value.get "choices").first?.bind fun choice => (choice.get "finish_reason").text?
  | .ollama => (value.get "done_reason").text?

/-- The reader of whole replies passes over the tool calls of a message that stopped normally. -/
def Provider.PassesOver (p : Provider) (word : String) (m : Message) : Prop :=
  (p = .anthropic ∨ p = .openai) ∧ StopReason.classify p word = .stop ∧ m.toolCalls ≠ []

instance (p : Provider) (word : String) (m : Message) : Decidable (p.PassesOver word m) :=
  inferInstanceAs (Decidable (_ ∧ _ ∧ _))

/-- Messages with the same tool calls are read alike. -/
theorem StopReason.classifyFor_congr {m m' : Message} (h : m.toolCalls = m'.toolCalls)
    (p : Provider) (word : String) : classifyFor p word m = classifyFor p word m' := by
  rw [classifyFor_eq, classifyFor_eq, h]

/-- Where calls are passed over, the word alone is read as a normal stop. -/
theorem Provider.classify_eq {p : Provider} (hp : p = .anthropic ∨ p = .openai) (word : String)
    (m : Message) : StopReason.classify p word
      = if p.PassesOver word m then .stop else .classifyFor p word m := by
  rw [StopReason.classifyFor_eq]
  by_cases hcalls : StopReason.classify p word = .stop ∧ m.toolCalls ≠ []
  · have hpasses : p.PassesOver word m := ⟨hp, hcalls⟩
    rw [if_pos hpasses, hcalls.1]
  · have hpasses : ¬ p.PassesOver word m := fun h => hcalls h.2
    rw [if_neg hpasses, if_neg hcalls]

/-! ## Whole replies -/

variable {ids : CallIds} {body : Bytes} {value : Json} {reply : Reply} {word : String}

theorem Anthropic.stopReason_of_decodeReply (hread : Json.readBytes? body = some value)
    (hreply : Anthropic.decodeReply body = .ok reply)
    (hword : Provider.anthropic.stopWord? value = some word) :
    reply.message.stopReason = some (.classify .anthropic word) := by
  obtain ⟨value', hread', hm, -⟩ := Anthropic.exists_of_decodeReply hreply
  obtain rfl : value = value' := Option.some.inj (hread.symm.trans hread')
  obtain ⟨-, -, -, -, hreason⟩ := Anthropic.exists_of_decodeMessage hm
  rw [hreason]
  exact congrArg (Option.map _) hword

theorem OpenAI.stopReason_of_decodeReply (hread : Json.readBytes? body = some value)
    (hreply : OpenAI.decodeReply body = .ok reply)
    (hword : Provider.openai.stopWord? value = some word) :
    reply.message.stopReason = some (.classify .openai word) := by
  obtain ⟨value', choice, m, hread', hchoice, -, hmessage⟩ := OpenAI.exists_of_decodeReply hreply
  obtain rfl : value = value' := Option.some.inj (hread.symm.trans hread')
  rw [Provider.stopWord?, hchoice] at hword
  rw [hmessage]
  exact congrArg (Option.map _) hword

theorem Gemini.stopReason_of_decodeReply (hread : Json.readBytes? body = some value)
    (hreply : Gemini.decodeReply ids body = .ok reply)
    (hword : Provider.gemini.stopWord? value = some word) :
    reply.message.stopReason = some (.classifyFor .gemini word reply.message) := by
  obtain ⟨value', hread', hcases⟩ := Gemini.exists_of_decodeReply hreply
  obtain rfl : value = value' := Option.some.inj (hread.symm.trans hread')
  rcases hcases with ⟨hnone, -⟩ | ⟨candidate, m, hcandidate, -, hmessage⟩
  · rw [Provider.stopWord?, hnone] at hword
    cases hword
  · rw [Provider.stopWord?, hcandidate] at hword
    have hcalls : reply.message.toolCalls = m.toolCalls := by
      rw [hmessage]
      rfl
    rw [StopReason.classifyFor_congr hcalls, hmessage]
    exact congrArg (Option.map _) hword

/-- A reply in the local chat format has no tool calls. -/
theorem Ollama.stopReason_of_decodeReply (hread : Json.readBytes? body = some value)
    (hreply : Ollama.decodeReply body = .ok reply)
    (hword : Provider.ollama.stopWord? value = some word) :
    reply.message.toolCalls = [] ∧
      reply.message.stopReason = some (.classifyFor .ollama word reply.message) := by
  obtain ⟨value', m, hread', hm, hmessage⟩ := Ollama.exists_of_decodeReply hreply
  obtain rfl : value = value' := Option.some.inj (hread.symm.trans hread')
  obtain ⟨text, images, -, hcontent⟩ := Ollama.content_of_decodeMessage hm
  have hcalls : reply.message.toolCalls = [] := by
    rw [hmessage, Message.toolCalls, hcontent]
    refine List.filterMap_eq_nil_iff.2 fun b hb => ?_
    rcases List.mem_append.1 hb with hb | hb
    · obtain ⟨s, -, rfl⟩ := List.mem_map.1 hb
      rfl
    · obtain ⟨i, -, rfl⟩ := List.mem_map.1 hb
      rfl
  refine ⟨hcalls, ?_⟩
  rw [StopReason.classifyFor_eq, if_neg fun h => h.2 hcalls, hmessage]
  exact congrArg (Option.map _) hword

/-! ## Both ways -/

/-- The stop reason of a whole reply is the one that an assembly makes of the same blocks and the
same word, unless the reader passes over the tool calls. -/
theorem stopReason_agrees {p : Provider} (hread : Json.readBytes? body = some value)
    (hreply : p.decodeReply ids body = .ok reply) (hword : p.stopWord? value = some word) :
    reply.message.stopReason
        = some (if p.PassesOver word reply.message then .stop
            else .classifyFor p word reply.message) ∧
      ∀ (a : Assembly) (d : Draft) (e : Event) (streamed : Reply), a = .drafting d →
        d.stopReason = some word → (a.apply p e).2 = .ok (some streamed) →
        streamed.message.content = reply.message.content →
        streamed.message.stopReason = some (.classifyFor p word reply.message) := by
  constructor
  · cases p with
    | anthropic =>
      rw [Anthropic.stopReason_of_decodeReply hread hreply hword]
      exact congrArg some (Provider.classify_eq (.inl rfl) word _)
    | openai =>
      rw [OpenAI.stopReason_of_decodeReply hread hreply hword]
      exact congrArg some (Provider.classify_eq (.inr rfl) word _)
    | gemini =>
      rw [if_neg fun h => by rcases h.1 with h | h <;> cases h]
      exact Gemini.stopReason_of_decodeReply hread hreply hword
    | ollama =>
      rw [if_neg fun h => by rcases h.1 with h | h <;> cases h]
      exact (Ollama.stopReason_of_decodeReply hread hreply hword).2
  · rintro a d e streamed rfl hreason happly hcontent
    obtain ⟨-, d', hdraft, hconclude⟩ := (Assembly.apply_eq_reply_iff _ e streamed).1 happly
    obtain rfl : d = d' := Assembly.drafting.inj hdraft
    unfold Draft.conclude at hconclude
    split at hconclude
    case h_1 => cases hconclude
    case h_2 =>
      obtain rfl := Except.ok.inj hconclude
      have hcalls : ({ role := d.role, content := d.content, metadata := d.metadata }
          : Message).toolCalls = reply.message.toolCalls := congrArg (List.filterMap _) hcontent
      rw [Draft.reply, hreason, Option.map_some, StopReason.classifyFor_congr hcalls]

/-! ### A call that is passed over -/

/-- A reply that calls a tool and is said to have stopped normally. -/
def callBody : Json := .object [
  ("content", .array [.object [("id", .string "a"), ("input", .object []),
    ("name", .string "find"), ("type", .string "tool_use")]]),
  ("role", .string "assistant"), ("stop_reason", .string "end_turn")]

/-- The message of this reply, as it is read. -/
def callReply : Reply where
  message := {
    role := .assistant
    content := [.toolCall ⟨"a", "find", .object []⟩]
    stopReason := some .stop }
  usage := {}

theorem parseBody_callBody :
    Dialect.parseBody .anthropic (Bytes.ofString callBody.toText) = .ok callBody :=
  Dialect.parseBody_toText .anthropic (by decide) (by decide +kernel)

theorem readBytes?_callBody : Json.readBytes? (Bytes.ofString callBody.toText) = some callBody :=
  Dialect.readBytes?_of_parseBody parseBody_callBody

theorem decodeReply_callBody :
    Provider.anthropic.decodeReply .numbered (Bytes.ofString callBody.toText) = .ok callReply := by
  rw [Provider.decodeReply, Anthropic.decodeReply, parseBody_callBody]
  decide +kernel

/-- A stream that has brought the same call and the same word. -/
def callDraft : Draft where
  role := .assistant
  usage := {}
  slots := Table.empty.insert 0 (.closed (some (.toolCall ⟨"a", "find", .object []⟩)))
  stopReason := some "end_turn"

theorem stopReason_agrees_callBody :
    Json.readBytes? (Bytes.ofString callBody.toText) = some callBody ∧
      Provider.anthropic.decodeReply .numbered (Bytes.ofString callBody.toText) = .ok callReply ∧
      Provider.anthropic.stopWord? callBody = some "end_turn" ∧
      callReply.message.stopReason
        = some (if Provider.anthropic.PassesOver "end_turn" callReply.message then .stop
            else .classifyFor .anthropic "end_turn" callReply.message) ∧
      ∃ streamed, ((Assembly.drafting callDraft).apply .anthropic .messageStop).2
          = .ok (some streamed) ∧
        streamed.message.content = callReply.message.content ∧
        streamed.message.stopReason
          = some (.classifyFor .anthropic "end_turn" callReply.message) := by
  have hword : Provider.anthropic.stopWord? callBody = some "end_turn" := by decide +kernel
  have happly : ((Assembly.drafting callDraft).apply .anthropic .messageStop).2
      = .ok (some (callDraft.reply .anthropic)) := by decide +kernel
  have hcontent : (callDraft.reply .anthropic).message.content = callReply.message.content := by
    decide +kernel
  have hagrees := stopReason_agrees readBytes?_callBody decodeReply_callBody hword
  exact ⟨readBytes?_callBody, decodeReply_callBody, hword, hagrees.1, _, happly, hcontent,
    hagrees.2 _ callDraft _ _ rfl rfl happly hcontent⟩

/-- The word alone does not tell that the message waits for tools. -/
theorem stopReason_ne_classifyFor :
    ¬ ∀ (p : Provider) (ids : CallIds) (body : Bytes) (value : Json) (reply : Reply)
      (word : String), Json.readBytes? body = some value → p.decodeReply ids body = .ok reply →
      p.stopWord? value = some word →
      reply.message.stopReason = some (.classifyFor p word reply.message) := by
  intro h
  have hsame := h .anthropic .numbered _ callBody callReply "end_turn" readBytes?_callBody
    decodeReply_callBody (by decide +kernel)
  exact absurd hsame (by decide)

end ChatWire
