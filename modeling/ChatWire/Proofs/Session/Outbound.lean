import ChatWire.Dialect.Request
import ChatWire.Proofs.Message.ResultNames

/-!
# What a conversation becomes in a request

A request is made of the messages one by one: what a message becomes depends on the messages before
it, by the names of the tools that they call, and on none behind it (`Request.sent_append`). A
request can be made if each of these messages can be written
(`Request.exists_conversationBody_iff`).
-/

namespace ChatWire

namespace Request

/-! ## Requests, message by message -/

/-- The messages that a conversation becomes in a request. -/
def sent (p : Provider) (messages : List Message) : List Message :=
  if p = .openai then (outbound messages).flatMap splitResults else outbound messages

/-- The messages that later ones become, given what stands before them. -/
def sentAfter (p : Provider) (earlier later : List Message) : List Message :=
  (sent p (earlier ++ later)).drop (sent p earlier).length

/-- The messages of a conversation that travel, without cache counts. -/
def carried (messages : List Message) : List Message :=
  (messages.filter fun m => m.role != .system).map Message.withoutUsage

/-- Messages as the provider's format wants them, one result to a message or several. -/
def spread (p : Provider) (messages : List Message) : List Message :=
  if p = .openai then messages.flatMap splitResults else messages

theorem spread_append (p : Provider) (earlier later : List Message) :
    spread p (earlier ++ later) = spread p earlier ++ spread p later := by
  unfold spread
  split
  · exact List.flatMap_append
  · rfl

theorem sent_eq (p : Provider) (messages : List Message) :
    sent p messages = spread p (nameResultsFrom .empty (carried messages)) := rfl

theorem carried_append (earlier later : List Message) :
    carried (earlier ++ later) = carried earlier ++ carried later := by
  rw [carried, List.filter_append, List.map_append]
  rfl

theorem sent_append_eq (p : Provider) (earlier later : List Message) :
    sent p (earlier ++ later) = sent p earlier
      ++ spread p (nameResultsFrom (namesAfter .empty (carried earlier)) (carried later)) := by
  rw [sent_eq, carried_append, nameResultsFrom_append, spread_append]
  rfl

theorem sentAfter_eq (p : Provider) (earlier later : List Message) :
    sentAfter p earlier later
      = spread p (nameResultsFrom (namesAfter .empty (carried earlier)) (carried later)) := by
  rw [sentAfter, sent_append_eq, List.drop_left]

/-- Nothing that stands behind a message changes what the message becomes. -/
theorem sent_append (p : Provider) (earlier later : List Message) :
    sent p (earlier ++ later) = sent p earlier ++ sentAfter p earlier later := by
  rw [sent_append_eq, sentAfter_eq]

/-- A message without cache counts whose results are named. -/
def named (names : CallNames) (m : Message) : Message :=
  { m with content := (nameResultsIn names (m.content.filter fun b => !b.isUsage)).2 }

theorem sentAfter_of_system (p : Provider) (earlier : List Message) {m : Message}
    (h : m.role = .system) : sentAfter p earlier [m] = [] := by
  have hnone : carried [m] = [] := by simp [carried, h]
  rw [sentAfter_eq, hnone]
  unfold spread
  split <;> rfl

/-- What a message becomes that is no standing instruction. -/
theorem exists_sentAfter_eq (p : Provider) (earlier : List Message) {m : Message}
    (h : m.role ≠ .system) : ∃ names, sentAfter p earlier [m] = spread p [named names m] := by
  have hone : carried [m] = [m.withoutUsage] := by simp [carried, h]
  exact ⟨namesAfter .empty (carried earlier), by rw [sentAfter_eq, hone]; rfl⟩

/-! ## Requests that can be made -/

/-- All messages can be written in the provider's format. -/
def CanWrite (p : Provider) (messages : List Message) : Prop :=
  ∀ m ∈ messages, ∃ w, p.encodeMessage m = .ok w

theorem canWrite_append {p : Provider} {earlier later : List Message} :
    CanWrite p (earlier ++ later) ↔ CanWrite p earlier ∧ CanWrite p later := by
  simp [CanWrite, or_imp, forall_and]

theorem exists_mapM_iff {α β ε : Type} {f : α → Except ε β} {xs : List α} :
    (∃ ys, xs.mapM f = .ok ys) ↔ ∀ x ∈ xs, ∃ y, f x = .ok y := by
  induction xs with
  | nil => simp [pure, Except.pure]
  | cons x rest ih =>
    rw [List.forall_mem_cons, ← ih, List.mapM_cons]
    cases hx : f x with
    | error e => simp [bind, Except.bind]
    | ok y => cases hrest : rest.mapM f <;> simp [bind, Except.bind, pure, Except.pure]

/-- The body of a request with the messages as they are written. -/
def assembled (p : Provider) (model : String) (tools : List Tool) (o : Options)
    (written : List Json) : Json :=
  match p with
  | .anthropic => anthropicBody model written tools o
  | .gemini => geminiBody written tools o
  | .openai => openaiBody model (leadingPrompt o ++ written) tools o
  | .ollama => ollamaBody model (leadingPrompt o ++ written) o

theorem conversationBody_of_tools {tools : List Tool} (h : tools ≠ []) (model : String)
    (messages : List Message) (o : Options) :
    conversationBody .ollama model messages tools o
      = .error (.unsupported .ollama .toolDeclarations) := by
  cases tools with
  | nil => exact absurd rfl h
  | cons tool rest => rfl

theorem conversationBody_eq {p : Provider} {tools : List Tool} (h : p = .ollama → tools = [])
    (model : String) (messages : List Message) (o : Options) :
    conversationBody p model messages tools o
      = ((sent p messages).mapM p.encodeMessage).map (assembled p model tools o) := by
  cases p with
  | ollama =>
    obtain rfl := h rfl
    rfl
  | _ => rfl

/-- A body can be made exactly if all messages can be written; the local chat format in addition
takes no tools. -/
theorem exists_conversationBody_iff (p : Provider) (model : String) (messages : List Message)
    (tools : List Tool) (o : Options) :
    (∃ json, conversationBody p model messages tools o = .ok json) ↔
      CanWrite p (sent p messages) ∧ (p = .ollama → tools = []) := by
  by_cases htools : p = .ollama → tools = []
  · rw [conversationBody_eq htools, and_iff_left htools, CanWrite, ← exists_mapM_iff]
    cases (sent p messages).mapM p.encodeMessage <;> simp [Except.map]
  · obtain ⟨rfl, hsome⟩ := Classical.not_imp.1 htools
    rw [conversationBody_of_tools hsome]
    simp [hsome]

theorem exists_body_iff (p : Provider) (model : String) (messages : List Message)
    (tools : List Tool) (o : Options) :
    (∃ request, body p model messages tools o = .ok request) ↔
      o.check = .ok () ∧ CanWrite p (sent p messages) ∧ (p = .ollama → tools = []) := by
  rw [← exists_conversationBody_iff p model messages tools o, body]
  cases o.check with
  | error e => simp [bind, Except.bind]
  | ok _ =>
    cases conversationBody p model messages tools o <;> simp [bind, Except.bind, pure, Except.pure]

end Request

end ChatWire
