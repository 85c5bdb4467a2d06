import ChatWire.Dialect.Request
import ChatWire.Proofs.Dialect.AnthropicRoundTrip
import ChatWire.Proofs.Dialect.GeminiRoundTrip
import ChatWire.Proofs.Dialect.OpenAIRoundTrip
import ChatWire.Proofs.Message.ResultNames

/-!
# Switching providers

A history of texts, tool calls and results can be handed from one provider's format to another. Each
format gives every message back, but for the names of results, which the Anthropic format forgets
(`exists_encodeMessage_of_isPortable`); these are those of the calls before them, so that naming the
results restores them (`nameResults_recalled`).
-/

namespace ChatWire

open Dialect

/-- What can be said in all formats that know tools: a question, an answer that may lead to calls,
and the result of the last call with its id. -/
inductive IsPortable (earlier : List ToolCall) : Message → Prop
  | question {s : String} (hs : s ≠ "") :
      IsPortable earlier { role := .user, content := [.text s] }
  | answer {text : Option String} {calls : List ToolCall} (htext : text ≠ some "")
      (harguments : ∀ c ∈ calls, c.arguments ≠ .null) (hsome : text ≠ none ∨ calls ≠ []) :
      IsPortable earlier
        { role := .assistant, content := text.toList.map .text ++ calls.map .toolCall }
  | result {r : ToolResult} (hname : r.name ≠ "")
      (hcall : (lastCall? earlier r.id).map ToolCall.name = some r.name) :
      IsPortable earlier { role := .tool, content := [.toolResult r] }

/-- Every message is portable behind some calls and those of the messages before it. -/
def IsPortableHistory (earlier : List ToolCall) (history : List Message) : Prop :=
  ∀ before m after, history = before ++ m :: after →
    IsPortable (earlier ++ before.flatMap Message.toolCalls) m

/-- The block without the name of a tool that stands in for a call's. -/
def Block.withoutName : Block → Block
  | .toolResult r => .toolResult { r with name := "" }
  | b => b

/-- What is left of a message in the provider's format. -/
def Provider.recalled (p : Provider) (m : Message) : Message :=
  if p = .anthropic then { m with content := m.content.map Block.withoutName } else m

/-- The history that is read from what a provider's format writes of it, its results named. -/
def Provider.relay (p : Provider) (ids : Nat → CallIds) (history : List Message) :
    Except Error (List Message) := do
  let written ← history.mapM p.encodeMessage
  return nameResults (← p.decodeMessages ids written)

/-- Reads messages from bytes, each with ids of its own. -/
def Provider.decodeBodies (p : Provider) (ids : Nat → CallIds) :
    List Bytes → Except Error (List Message)
  | [] => .ok []
  | body :: rest => do
    let m ← p.decode (ids 0) body
    return m :: (← p.decodeBodies (fun i => ids (i + 1)) rest)

/-- The same by way of bytes. -/
def Provider.relayBytes (p : Provider) (ids : Nat → CallIds) (history : List Message) :
    Except Error (List Message) := do
  let written ← history.mapM p.encode
  return nameResults (← p.decodeBodies ids written)

/-! ## The blocks of a portable message -/

/-- A block of a portable message. -/
inductive IsPlain : Block → Prop
  | text (s : String) : IsPlain (.text s)
  | toolCall {c : ToolCall} (h : c.arguments ≠ .null) : IsPlain (.toolCall c)
  | toolResult {r : ToolResult} (h : r.name ≠ "") : IsPlain (.toolResult r)

section Answers

variable {text : Option String} {calls : List ToolCall}

theorem mem_answer {b : Block} (hb : b ∈ text.toList.map Block.text ++ calls.map Block.toolCall) :
    (∃ s, b = .text s) ∨ ∃ c ∈ calls, b = .toolCall c := by
  rcases List.mem_append.1 hb with hb | hb
  · obtain ⟨s, -, rfl⟩ := List.mem_map.1 hb
    exact .inl ⟨s, rfl⟩
  · obtain ⟨c, hc, rfl⟩ := List.mem_map.1 hb
    exact .inr ⟨c, hc, rfl⟩

theorem toolCalls_answer :
    (text.toList.map Block.text ++ calls.map Block.toolCall).filterMap Block.toolCall? = calls := by
  have htexts : (text.toList.map Block.text).filterMap Block.toolCall? = [] := by
    simp [List.filterMap_map, Function.comp_def, Block.toolCall?]
  have hcalls : (calls.map Block.toolCall).filterMap Block.toolCall? = calls := by
    simp [List.filterMap_map, Function.comp_def, Block.toolCall?]
  rw [List.filterMap_append, htexts, hcalls, List.nil_append]

theorem toolResult_notMem_answer (r : ToolResult) :
    .toolResult r ∉ text.toList.map Block.text ++ calls.map Block.toolCall := by
  intro hr
  rcases mem_answer hr with ⟨s, hs⟩ | ⟨c, -, hc⟩
  · cases hs
  · cases hc

theorem map_withoutName_answer :
    (text.toList.map Block.text ++ calls.map Block.toolCall).map Block.withoutName
      = text.toList.map Block.text ++ calls.map Block.toolCall := by
  rw [List.map_append, List.map_map, List.map_map]
  rfl

end Answers

variable {earlier : List ToolCall} {m : Message}

theorem IsPortable.isPlain (h : IsPortable earlier m) : ∀ b ∈ m.content, IsPlain b := by
  intro b hb
  cases h with
  | question hs =>
    obtain rfl := List.mem_singleton.1 hb
    exact .text _
  | answer htext harguments hsome =>
    rcases mem_answer hb with ⟨s, rfl⟩ | ⟨c, hc, rfl⟩
    · exact .text s
    · exact .toolCall (harguments c hc)
  | result hname hcall =>
    obtain rfl := List.mem_singleton.1 hb
    exact .toolResult hname

theorem IsPortable.role_ne (h : IsPortable earlier m) : m.role ≠ .system := by
  cases h <;> exact Role.noConfusion

/-- Whether a message is from a tool can be told by its blocks, unless the model is the sender. -/
theorem IsPortable.role_eq (h : IsPortable earlier m) :
    m.role = if m.role = .assistant then .assistant
      else if ∀ b ∈ m.content, b.isToolResult then .tool else .user := by
  cases h <;> simp [Block.isToolResult, Block.toolResult?]

theorem IsPortable.content_ne_nil (h : IsPortable earlier m) : m.content ≠ [] := by
  cases h with
  | question hs => simp
  | answer htext harguments hsome =>
    rename_i text calls
    cases text <;> simp_all
  | result hname hcall => simp

/-! ## In each format -/

theorem Anthropic.readBlock_of_isPlain {b : Block} (h : IsPlain b) :
    Anthropic.readBlock b = b.withoutName := by
  cases h with
  | toolCall hne => rw [Anthropic.readBlock, readCall, if_neg hne]; rfl
  | text | toolResult => rfl

theorem Gemini.readBlock_of_isPlain {b : Block} (h : IsPlain b) : Gemini.readBlock b = b := by
  cases h with
  | toolCall hne => rw [Gemini.readBlock, readCall, if_neg hne]
  | text | toolResult => rfl

theorem IsPortable.eq_mk (h : IsPortable earlier m) :
    m = { role := m.role, content := m.content } := by
  cases h <;> rfl

theorem Anthropic.readBack_of_isPortable (h : IsPortable earlier m) :
    Anthropic.readBack m = Provider.anthropic.recalled m := by
  have hplain := h.isPlain
  have hcontent : (Anthropic.readBack m).content = m.content.map Block.withoutName := by
    have hkept : m.content.filter (fun b => !b.isUsage) = m.content :=
      List.filter_eq_self.2 fun b hb => by cases hplain b hb <;> rfl
    have hnone : m.content.filter Block.isUsage = [] :=
      List.filter_eq_nil_iff.2 fun b hb => by cases hplain b hb <;> exact Bool.false_ne_true
    rw [Anthropic.readBack, hkept, hnone, List.append_nil]
    exact List.map_congr_left fun b hb => Anthropic.readBlock_of_isPlain (hplain b hb)
  have hrole : (Anthropic.readBack m).role = m.role := by
    have hunmarked : ∀ b ∈ m.content, b.isAnnotation = false :=
      fun b hb => by cases hplain b hb <;> rfl
    have htool : (m.hasContent ∧ ∀ b ∈ m.content, b.isAnnotation ∨ b.isToolResult) ↔
        ∀ b ∈ m.content, b.isToolResult := by
      constructor
      · rintro ⟨-, hall⟩ b hb
        exact (hall b hb).resolve_left (by rw [hunmarked b hb]; exact Bool.false_ne_true)
      · intro hall
        obtain ⟨b, hb⟩ := List.exists_mem_of_ne_nil _ h.content_ne_nil
        refine ⟨List.any_eq_true.2 ⟨b, hb, by rw [hunmarked b hb]; rfl⟩, ?_⟩
        exact fun b hb => .inr (hall b hb)
    conv_rhs => rw [h.role_eq]
    simp only [Anthropic.readBack, htool]
  calc Anthropic.readBack m
      = { role := (Anthropic.readBack m).role, content := (Anthropic.readBack m).content } := rfl
    _ = { role := m.role, content := m.content.map Block.withoutName } := by rw [hrole, hcontent]
    _ = Provider.anthropic.recalled m := by cases h <;> rfl

theorem Gemini.readBack_of_isPortable (h : IsPortable earlier m) : Gemini.readBack m = m := by
  have hcontent : (Gemini.readBack m).content = m.content :=
    (List.map_congr_left fun b hb => Gemini.readBlock_of_isPlain (h.isPlain b hb)).trans
      (List.map_id _)
  have hrole : (Gemini.readBack m).role = m.role := by
    conv_rhs => rw [h.role_eq]
    simp only [Gemini.readBack, ne_eq, h.content_ne_nil, not_false_iff, true_and]
  have hmetadata : (Gemini.readBack m).metadata = .empty := by
    have hnone : Gemini.readSignatures? m = none := by cases h <;> rfl
    rw [Gemini.readBack, hnone]
  calc Gemini.readBack m
      = { role := (Gemini.readBack m).role, content := (Gemini.readBack m).content,
          metadata := (Gemini.readBack m).metadata } := rfl
    _ = { role := m.role, content := m.content } := by rw [hrole, hcontent, hmetadata]
    _ = m := h.eq_mk.symm

theorem OpenAI.readBack_of_isPortable (h : IsPortable earlier m) : OpenAI.readBack m = m := by
  cases h with
  | @question s hs =>
    have hparts : OpenAI.readParts [.text s] = [.text s] :=
      if_neg (show [Block.text s] ≠ [.text ""] by simpa using hs)
    show Message.mk .user (OpenAI.readParts [.text s] ++ []) 0 none .empty = _
    rw [hparts, List.append_nil]
  | result hname hcall => rfl
  | @answer text calls htext harguments hsome =>
    have hparts : OpenAI.readParts (text.toList.map Block.text ++ calls.map Block.toolCall)
        = text.toList.map Block.text := by
      have hkept : (text.toList.map Block.text ++ calls.map Block.toolCall).filter OpenAI.isPart
          = text.toList.map Block.text := by
        simp [List.filter_map, Function.comp_def, OpenAI.isPart]
      have hne : text.toList.map Block.text ≠ [.text ""] := by
        cases text <;> simp_all
      rw [OpenAI.readParts, hkept, List.map_map]
      exact if_neg hne
    show Message.mk .assistant (OpenAI.readParts _ ++ List.map _ (List.filterMap _ _)) 0 none .empty
      = _
    rw [hparts, toolCalls_answer]

theorem OpenAI.isWritable_of_isPortable (h : IsPortable earlier m) : OpenAI.IsWritable m := by
  cases h with
  | @question s hs =>
    exact ⟨fun hrole => Role.noConfusion hrole, fun _ b hb => .inl ⟨s, List.mem_singleton.1 hb⟩⟩
  | @result r hname hcall =>
    exact ⟨fun _ => ⟨r, rfl⟩, fun hrole => absurd rfl hrole⟩
  | answer htext harguments hsome =>
    refine ⟨fun hrole => Role.noConfusion hrole, fun _ b hb => ?_⟩
    rcases mem_answer hb with ⟨s, rfl⟩ | ⟨c, -, rfl⟩
    · exact .inl ⟨s, rfl⟩
    · exact .inr (.inr ⟨rfl, c, rfl⟩)

theorem OpenAI.isRecoverable_of_isPortable (h : IsPortable earlier m)
    (harguments : ∀ c ∈ m.toolCalls, c.arguments.IsReprinted) : OpenAI.IsRecoverable m where
  types := fun _ _ hb => by cases h.isPlain _ hb
  addresses := fun _ _ hb => by cases h.isPlain _ hb
  depths := fun c hc => Json.depth_le_of_read? (harguments c hc)
  printed := fun c hc v hv => Option.some.inj (hv.symm.trans (harguments c hc))

theorem Anthropic.exists_encodeMessage_of_isPortable (h : IsPortable earlier m) :
    ∃ w, Anthropic.encodeMessage m = .ok w ∧
      Anthropic.decodeMessage w = .ok (Provider.anthropic.recalled m) := by
  have hwritable : Anthropic.IsWritable m := by
    refine Anthropic.isWritable_iff.2 ⟨h.role_ne, fun before b behind hsplit => ?_⟩
    have hb : b ∈ m.content := by rw [hsplit]; simp
    cases h.isPlain b hb <;> trivial
  obtain ⟨w, hw⟩ := (Anthropic.exists_encodeMessage_iff m).2 hwritable
  obtain ⟨-, d, hd, rfl⟩ := Anthropic.encodeMessage_eq_ok_iff.1 hw
  obtain ⟨-, groups, hgroups⟩ := Anthropic.Draft.holds_nil.of_foldlM hd
  rw [← Anthropic.readBack_of_isPortable h]
  exact ⟨_, hw, Anthropic.decodeMessage_written hgroups⟩

theorem Gemini.exists_encodeMessage_of_isPortable (h : IsPortable earlier m) :
    ∃ w, Gemini.encodeMessage m = .ok w ∧ ∀ ids, Gemini.decodeMessage ids w = .ok m := by
  have hwritable : Gemini.IsWritable m := by
    refine Gemini.isWritable_iff.2 ⟨h.role_ne, fun b hb => ?_⟩
    cases h.isPlain b hb with
    | toolResult hname => exact hname
    | text | toolCall => trivial
  have hplaced : Gemini.IsPlaced m := .absent (by cases h <;> rfl)
  refine ⟨_, Gemini.encodeMessage_eq_ok_iff.2 ⟨hwritable, rfl⟩, fun ids => ?_⟩
  have hback := Gemini.decodeMessage_written hwritable hplaced ids
  rwa [Gemini.readBack_of_isPortable h] at hback

theorem OpenAI.exists_encodeMessage_of_isPortable (h : IsPortable earlier m)
    (harguments : ∀ c ∈ m.toolCalls, c.arguments.IsReprinted) :
    ∃ w, OpenAI.encodeMessage m = .ok w ∧ OpenAI.decodeMessage w = .ok m := by
  obtain ⟨w, hw⟩ := (OpenAI.exists_encodeMessage_iff m).2 (OpenAI.isWritable_of_isPortable h)
  refine ⟨w, hw, ?_⟩
  by_cases hrole : m.role = .tool
  · obtain ⟨r, hcontent, rfl⟩ := (OpenAI.encodeMessage_of_tool hrole).1 hw
    rw [OpenAI.decodeMessage_writtenResult, h.eq_mk, hrole, hcontent]
  · obtain ⟨hfit, rfl⟩ := (OpenAI.encodeMessage_of_other hrole).1 hw
    have hrecoverable := OpenAI.isRecoverable_of_isPortable h harguments
    rw [OpenAI.decodeMessage_written hrole hfit hrecoverable, OpenAI.readBack_of_isPortable h]

/-- Every format with tools can hold a portable message and gives it back, but for the names of
results. -/
theorem exists_encodeMessage_of_isPortable {p : Provider} (hp : p ≠ .ollama)
    (h : IsPortable earlier m)
    (harguments : p = .openai → ∀ c ∈ m.toolCalls, c.arguments.IsReprinted) :
    ∃ w, p.encodeMessage m = .ok w ∧ ∀ ids, p.decodeMessage ids w = .ok (p.recalled m) := by
  cases p with
  | anthropic =>
    obtain ⟨w, hw, hback⟩ := Anthropic.exists_encodeMessage_of_isPortable h
    exact ⟨w, hw, fun _ => hback⟩
  | gemini => exact Gemini.exists_encodeMessage_of_isPortable h
  | openai =>
    obtain ⟨w, hw, hback⟩ := OpenAI.exists_encodeMessage_of_isPortable h (harguments rfl)
    exact ⟨w, hw, fun _ => hback⟩
  | ollama => exact absurd rfl hp

/-! ## Names come back -/

theorem Provider.toolCalls_recalled (p : Provider) (m : Message) :
    (p.recalled m).toolCalls = m.toolCalls := by
  have hcalls : (m.content.map Block.withoutName).filterMap Block.toolCall?
      = m.content.filterMap Block.toolCall? := by
    rw [List.filterMap_map]
    exact List.filterMap_congr fun b _ => by cases b <;> rfl
  unfold Provider.recalled
  split
  · exact hcalls
  · rfl

/-- Behind the same calls the results of a message get their names again. -/
theorem IsPortable.nameResultsIn_recalled (h : IsPortable earlier m) (p : Provider)
    {names : CallNames} (hnames : ∀ id, names.find? id = (lastCall? earlier id).map ToolCall.name) :
    (nameResultsIn names (p.recalled m).content).2 = m.content := by
  unfold Provider.recalled
  cases h with
  | question hs => split <;> rfl
  | @answer text calls htext harguments hsome =>
    split
    · show (nameResultsIn names (List.map _ _)).2 = _
      rw [map_withoutName_answer]
      exact nameResultsIn_of_notMem names toolResult_notMem_answer
    · exact nameResultsIn_of_notMem names toolResult_notMem_answer
  | @result r hname hcall =>
    have hkept : (nameResult names (.toolResult r)).2 = .toolResult r := by
      have hgiven : r.name.isEmpty = false := by simpa [String.isEmpty_iff] using hname
      rw [nameResult, hgiven]
      rfl
    have hfound : (nameResult names (.toolResult { r with name := "" })).2 = .toolResult r := by
      show Block.toolResult { r with name := (names.find? r.id).getD "" } = .toolResult r
      rw [hnames, hcall]
      rfl
    split
    · exact congrArg (fun b => [b]) hfound
    · exact congrArg (fun b => [b]) hkept

theorem isPortableHistory_cons_iff {history : List Message} :
    IsPortableHistory earlier (m :: history) ↔
      IsPortable earlier m ∧ IsPortableHistory (earlier ++ m.toolCalls) history := by
  constructor
  · intro h
    have hm := h [] m history rfl
    rw [List.flatMap_nil, List.append_nil] at hm
    refine ⟨hm, fun before m' after hsplit => ?_⟩
    have hm' := h (m :: before) m' after (congrArg (List.cons m) hsplit)
    rwa [List.flatMap_cons, ← List.append_assoc] at hm'
  · rintro ⟨hm, hrest⟩ before m' after hsplit
    cases before with
    | nil =>
      obtain ⟨rfl, -⟩ := List.cons.inj hsplit
      rwa [List.flatMap_nil, List.append_nil]
    | cons first before =>
      obtain ⟨rfl, rfl⟩ := List.cons.inj hsplit
      rw [List.flatMap_cons, ← List.append_assoc]
      exact hrest before m' after rfl

theorem IsPortableHistory.isPortable {history : List Message}
    (h : IsPortableHistory earlier history) (hm : m ∈ history) : ∃ calls, IsPortable calls m := by
  obtain ⟨before, after, rfl⟩ := List.append_of_mem hm
  exact ⟨_, h before m after rfl⟩

theorem IsPortableHistory.nameResultsFrom_recalled {history : List Message}
    (h : IsPortableHistory earlier history) (p : Provider) {names : CallNames}
    (hnames : ∀ id, names.find? id = (lastCall? earlier id).map ToolCall.name) :
    nameResultsFrom names (history.map p.recalled) = history := by
  induction history generalizing earlier names with
  | nil => rfl
  | cons m rest ih =>
    obtain ⟨hm, hrest⟩ := isPortableHistory_cons_iff.1 h
    have hnames' : ∀ id, (nameResultsIn names (p.recalled m).content).1.find? id
        = (lastCall? (earlier ++ m.toolCalls) id).map ToolCall.name := by
      intro id
      rw [find?_nameResultsIn, hnames, lastCall?_append, Option.map_or, ← p.toolCalls_recalled m]
      rfl
    have hfirst : { p.recalled m with content := (nameResultsIn names (p.recalled m).content).2 }
        = m := by
      rw [hm.nameResultsIn_recalled p hnames]
      unfold Provider.recalled
      split <;> rfl
    exact congrArg₂ List.cons hfirst (ih hrest hnames')

/-- Naming the results of what a format gives back makes the history whole. -/
theorem nameResults_recalled {history : List Message} (h : IsPortableHistory [] history)
    (p : Provider) : nameResults (history.map p.recalled) = history :=
  h.nameResultsFrom_recalled p fun _ => rfl

/-! ## Whole histories -/

section Histories

variable {p : Provider} {history : List Message}

theorem decodeMessages_of_forall₂ {written : List Json}
    (h : List.Forall₂ (fun m w => ∀ ids, p.decodeMessage ids w = .ok (p.recalled m))
      history written) (ids : Nat → CallIds) :
    p.decodeMessages ids written = .ok (history.map p.recalled) := by
  induction h generalizing ids with
  | nil => rfl
  | cons hw _ ih =>
    rw [Provider.decodeMessages, hw (ids 0)]
    exact bind_eq_ok_iff.2 ⟨_, rfl, bind_eq_ok_iff.2 ⟨_, ih fun i => ids (i + 1), rfl⟩⟩

/-- A history comes back from a format by which each of its messages is given back. -/
theorem relay_of_written (h : IsPortableHistory [] history)
    (hwritten : ∀ m ∈ history, ∃ w, p.encodeMessage m = .ok w ∧
      ∀ ids, p.decodeMessage ids w = .ok (p.recalled m)) (ids : Nat → CallIds) :
    p.relay ids history = .ok history := by
  obtain ⟨written, hmap, hback⟩ := exists_mapM_eq_ok hwritten
  unfold Provider.relay
  rw [hmap]
  refine bind_eq_ok_iff.2 ⟨written, rfl, ?_⟩
  rw [decodeMessages_of_forall₂ hback]
  exact congrArg Except.ok (nameResults_recalled h p)

theorem mapM_encode (p : Provider) (history : List Message) :
    history.mapM p.encode
      = (history.mapM p.encodeMessage).map (List.map fun w => Bytes.ofString w.toText) := by
  induction history with
  | nil => rfl
  | cons m rest ih =>
    rw [List.mapM_cons, List.mapM_cons, ih, Provider.encode]
    cases p.encodeMessage m with
    | error e => rfl
    | ok w => cases rest.mapM p.encodeMessage <;> rfl

theorem decode_toText (p : Provider) (ids : CallIds) {w : Json} (h : w.IsReprinted) :
    p.decode ids (Bytes.ofString w.toText) = p.decodeMessage ids w := by
  rw [Provider.decode, parseBody, h.readBytes?_eq]
  rfl

theorem decodeBodies_toText (p : Provider) (ids : Nat → CallIds) {written : List Json}
    (h : ∀ w ∈ written, w.IsReprinted) :
    p.decodeBodies ids (written.map fun w => Bytes.ofString w.toText)
      = p.decodeMessages ids written := by
  induction written generalizing ids with
  | nil => rfl
  | cons w rest ih =>
    obtain ⟨hw, hrest⟩ := List.forall_mem_cons.1 h
    rw [List.map_cons, Provider.decodeBodies, Provider.decodeMessages, decode_toText p (ids 0) hw,
      ih (fun i => ids (i + 1)) hrest]

/-- It does not matter whether values or bytes are handed over, if what is written can be read from
what is printed of it. -/
theorem relayBytes_eq_relay (ids : Nat → CallIds)
    (h : ∀ m ∈ history, ∀ w, p.encodeMessage m = .ok w → w.IsReprinted) :
    p.relayBytes ids history = p.relay ids history := by
  rw [Provider.relayBytes, Provider.relay, mapM_encode]
  cases hwritten : history.mapM p.encodeMessage with
  | error e => rfl
  | ok written =>
    have hreprinted : ∀ w ∈ written, w.IsReprinted := by
      intro w hw
      obtain ⟨m, hm, hencoded⟩ := exists_of_mem_of_mapM_eq_ok hwritten hw
      exact h m hm w hencoded
    exact congrArg (Except.map nameResults) (decodeBodies_toText p ids hreprinted)

end Histories

/-- A portable history that is handed to one format and from it to another comes back whole, as
values and, if the values can be read from what is printed of them, as bytes. -/
theorem relay_relay (p q : Provider) (hp : p ≠ .ollama) (hq : q ≠ .ollama)
    (ids ids' : Nat → CallIds) {history : List Message} (h : IsPortableHistory [] history)
    (harguments : p = .openai ∨ q = .openai →
      ∀ m ∈ history, ∀ c ∈ m.toolCalls, c.arguments.IsReprinted) :
    (p.relay ids history >>= q.relay ids') = .ok history ∧
      ((∀ m ∈ history, ∀ w, p.encodeMessage m = .ok w ∨ q.encodeMessage m = .ok w →
          w.IsReprinted) →
        (p.relayBytes ids history >>= q.relayBytes ids') = .ok history) := by
  have hwritten {f : Provider} (hf : f = p ∨ f = q) : ∀ m ∈ history,
      ∃ w, f.encodeMessage m = .ok w ∧ ∀ ids, f.decodeMessage ids w = .ok (f.recalled m) := by
    intro m hm
    obtain ⟨calls, hportable⟩ := h.isPortable hm
    rcases hf with rfl | rfl
    · exact exists_encodeMessage_of_isPortable hp hportable fun hf => harguments (.inl hf) m hm
    · exact exists_encodeMessage_of_isPortable hq hportable fun hf => harguments (.inr hf) m hm
  have hfirst : p.relay ids history = .ok history := relay_of_written h (hwritten (.inl rfl)) ids
  have hsecond : q.relay ids' history = .ok history := relay_of_written h (hwritten (.inr rfl)) ids'
  constructor
  · rw [hfirst]
    exact hsecond
  · intro hreprinted
    rw [relayBytes_eq_relay ids fun m hm w hw => hreprinted m hm w (.inl hw), hfirst]
    exact (relayBytes_eq_relay ids' fun m hm w hw => hreprinted m hm w (.inr hw)).trans hsecond

/-- Two lookups whose calls bear one id; the first of them fails. -/
def lookups : List Message := [
  { role := .user, content := [.text "Which oaks are there?"] },
  { role := .assistant, content := [.text "I look.",
    .toolCall ⟨"1", "find", .object [("tree", .string "oak")]⟩] },
  { role := .tool, content := [.toolResult ⟨"1", "find", "[error] no such tree", true⟩] },
  { role := .assistant, content := [.toolCall ⟨"1", "count", .object []⟩] },
  { role := .tool, content := [.toolResult ⟨"1", "count", "7", false⟩] }]

theorem isPortableHistory_lookups : IsPortableHistory [] lookups := by
  refine isPortableHistory_cons_iff.2 ⟨.question (by decide), ?_⟩
  refine isPortableHistory_cons_iff.2
    ⟨@IsPortable.answer _ (some _) [_] (by decide) (by decide) (by decide), ?_⟩
  refine isPortableHistory_cons_iff.2 ⟨.result (by decide) (by decide), ?_⟩
  refine isPortableHistory_cons_iff.2
    ⟨@IsPortable.answer _ none [_] (by decide) (by decide) (by decide), ?_⟩
  refine isPortableHistory_cons_iff.2 ⟨.result (by decide) (by decide), ?_⟩
  intro before m after hsplit
  cases before <;> cases hsplit

/-- Ids for the messages of a history. -/
def historyIds : Nat → CallIds := fun _ => .numbered

theorem relay_relay_lookups :
    IsPortableHistory [] lookups ∧
      (Provider.anthropic.relay historyIds lookups >>= Provider.openai.relay historyIds)
        = .ok lookups ∧
      (Provider.anthropic.relayBytes historyIds lookups >>= Provider.openai.relayBytes historyIds)
        = .ok lookups := by
  obtain ⟨hvalues, hbytes⟩ := relay_relay .anthropic .openai Provider.noConfusion
    Provider.noConfusion historyIds historyIds isPortableHistory_lookups (by decide +kernel)
  refine ⟨isPortableHistory_lookups, hvalues, hbytes fun m hm w hw => ?_⟩
  have hall : ∀ f ∈ [Provider.anthropic, .openai], ∀ m ∈ lookups,
      (f.encodeMessage m).toOption.all fun w => w.IsReprinted := by decide +kernel
  rcases hw with hw | hw
  · have hm' := hall .anthropic (by decide) m hm
    rw [hw] at hm'
    exact of_decide_eq_true hm'
  · have hm' := hall .openai (by decide) m hm
    rw [hw] at hm'
    exact of_decide_eq_true hm'

end ChatWire
