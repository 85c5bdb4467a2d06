import ChatWire.Dialect.Request
import ChatWire.Proofs.Dialect.AnthropicGroups
import ChatWire.Proofs.Dialect.GeminiParts
import ChatWire.Proofs.Dialect.OllamaRoundTrip
import ChatWire.Proofs.Json.Reprint

/-!
# What is read of replies

A reply that can be read has a message in its body, and the readers of messages give blocks of some
kinds and in some orders only. Nothing here depends on who wrote the body.
-/

namespace ChatWire

open Dialect (bind_eq_ok_iff)

namespace Dialect

theorem readBytes?_of_parseBody {provider : Provider} {body : Bytes} {value : Json}
    (h : parseBody provider body = .ok value) : Json.readBytes? body = some value := by
  unfold parseBody at h
  split at h
  case h_1 v hv => rw [hv, Except.ok.inj h]
  case h_2 => cases h

/-- A body is read as the value that it was printed from, if printing and sorting keep the value. -/
theorem parseBody_toText (provider : Provider) {value : Json} (hdepth : value.depth ≤ Json.maxDepth)
    (hsame : value.reread.canonical = value) :
    parseBody provider (Bytes.ofString value.toText) = .ok value := by
  rw [parseBody, Json.readBytes?_toText hdepth, hsame]

end Dialect

/-! ## Anthropic -/

namespace Anthropic

open Dialect (readBytes?_of_parseBody)

theorem exists_of_decodeReply {body : Bytes} {reply : Reply}
    (h : decodeReply body = .ok reply) :
    ∃ value, Json.readBytes? body = some value ∧ decodeMessage value = .ok reply.message ∧
      reply.usage = decodeUsage (value.get "usage") := by
  obtain ⟨value, hvalue, hrest⟩ := bind_eq_ok_iff.1 h
  refine ⟨value, readBytes?_of_parseBody hvalue, ?_⟩
  split at hrest
  · cases hrest
  · obtain ⟨m, hm, hpure⟩ := bind_eq_ok_iff.1 hrest
    obtain rfl := Except.ok.inj hpure
    exact ⟨hm, rfl⟩

theorem exists_of_decodeMessage {value : Json} {m : Message} (h : decodeMessage value = .ok m) :
    ∃ blocks, decodeContent (value.get "content") = .ok blocks ∧
      m.content = blocks ++ (decodeCacheUsage? value).toList.map .usage ∧
      m.role ≠ .system ∧
      m.stopReason = (value.get "stop_reason").text?.map (.classify .anthropic) := by
  obtain ⟨name, -, h⟩ := bind_eq_ok_iff.1 h
  dsimp only at h
  split at h
  case h_3 => cases h
  all_goals
    obtain ⟨role, hrole, h⟩ := bind_eq_ok_iff.1 h
    obtain rfl := Except.ok.inj hrole
    obtain ⟨blocks, hblocks, hpure⟩ := bind_eq_ok_iff.1 h
    obtain rfl := Except.ok.inj hpure
    refine ⟨blocks, hblocks, rfl, ?_, rfl⟩
    dsimp only
    split <;> simp

theorem isAnnotation_of_decodeBlock {value : Json} {b : Block}
    (h : decodeBlock value = .ok (some b)) : b.isAnnotation = false := by
  obtain ⟨kind, -, h⟩ := bind_eq_ok_iff.1 h
  split at h
  case h_1 | h_2 | h_3 | h_6 | h_7 =>
    obtain ⟨_, -, hpure⟩ := bind_eq_ok_iff.1 h
    obtain rfl := Option.some.inj (Except.ok.inj hpure)
    rfl
  case h_4 | h_5 =>
    obtain ⟨_, -, h⟩ := bind_eq_ok_iff.1 h
    obtain ⟨_, -, hpure⟩ := bind_eq_ok_iff.1 h
    obtain rfl := Option.some.inj (Except.ok.inj hpure)
    rfl
  case h_8 => cases Except.ok.inj h

/-- Every cache mark stands right behind a block with content. -/
def IsMarked (blocks : List Block) : Prop :=
  ∀ before lifetime behind, blocks = before ++ .cacheControl lifetime :: behind →
    ∃ front b, before = front ++ [b] ∧ b.isAnnotation = false

theorem IsMarked.cons {b : Block} (hb : b.isAnnotation = false) {blocks : List Block}
    (h : IsMarked blocks) : IsMarked (b :: blocks) := by
  intro before lifetime behind hsplit
  cases before with
  | nil =>
    obtain rfl := (List.cons.inj hsplit).1
    cases hb
  | cons first rest =>
    obtain ⟨rfl, hrest⟩ := List.cons.inj hsplit
    obtain ⟨front, c, rfl, hc⟩ := h rest lifetime behind hrest
    exact ⟨b :: front, c, rfl, hc⟩

theorem IsMarked.cons_mark {b : Block} (hb : b.isAnnotation = false)
    (lifetime : Option CacheLifetime) {blocks : List Block} (h : IsMarked blocks) :
    IsMarked (b :: .cacheControl lifetime :: blocks) := by
  intro before other behind hsplit
  cases before with
  | nil =>
    obtain rfl := (List.cons.inj hsplit).1
    cases hb
  | cons first rest =>
    obtain ⟨rfl, hrest⟩ := List.cons.inj hsplit
    cases rest with
    | nil => exact ⟨[], b, rfl, hb⟩
    | cons second rest =>
      obtain ⟨rfl, hmore⟩ := List.cons.inj hrest
      obtain ⟨front, c, rfl, hc⟩ := h rest other behind hmore
      exact ⟨b :: .cacheControl lifetime :: front, c, rfl, hc⟩

theorem decodeBlocks_spec {values : List Json} {blocks : List Block}
    (h : decodeBlocks values = .ok blocks) :
    IsMarked blocks ∧ ∀ b ∈ blocks, b.isUsage = false := by
  induction values generalizing blocks with
  | nil =>
    obtain rfl := Except.ok.inj h
    exact ⟨fun before lifetime behind hsplit => by simp at hsplit, by simp⟩
  | cons value rest ih =>
    rw [decodeBlocks] at h
    obtain ⟨decoded, hdecoded, h⟩ := bind_eq_ok_iff.1 h
    cases decoded with
    | none => exact ih h
    | some b =>
      obtain ⟨behind, hbehind, hpure⟩ := bind_eq_ok_iff.1 h
      obtain rfl := Except.ok.inj hpure
      obtain ⟨hmarked, hcounts⟩ := ih hbehind
      have hb := isAnnotation_of_decodeBlock hdecoded
      have hcount : b.isUsage = false := by
        cases b with
        | usage u => cases hb
        | _ => rfl
      cases value.get? "cache_control" with
      | none => exact ⟨hmarked.cons hb, List.forall_mem_cons.2 ⟨hcount, hcounts⟩⟩
      | some mark =>
        refine ⟨hmarked.cons_mark hb _, List.forall_mem_cons.2 ⟨hcount, ?_⟩⟩
        exact List.forall_mem_cons.2 ⟨rfl, hcounts⟩

theorem decodeContent_spec {value : Json} {blocks : List Block}
    (h : decodeContent value = .ok blocks) :
    IsMarked blocks ∧ ∀ b ∈ blocks, b.isUsage = false := by
  have hnil : IsMarked [] := fun before lifetime behind hsplit => by simp at hsplit
  unfold decodeContent at h
  split at h
  case h_1 s =>
    obtain rfl := Except.ok.inj h
    exact ⟨hnil.cons rfl, by simp [Block.isUsage]⟩
  case h_2 values => exact decodeBlocks_spec h
  case h_3 =>
    obtain rfl := Except.ok.inj h
    exact ⟨hnil, by simp⟩
  case h_4 => cases h

end Anthropic

/-! ## Chat completions -/

namespace OpenAI

open Dialect (readBytes?_of_parseBody)

theorem exists_of_decodeReply {body : Bytes} {reply : Reply}
    (h : decodeReply body = .ok reply) :
    ∃ value choice m, Json.readBytes? body = some value ∧
      (value.get "choices").first? = some choice ∧
      decodeMessage (choice.get "message") = .ok m ∧ reply.message = { m with
        stopReason := (choice.get "finish_reason").text?.map (.classify .openai) } := by
  obtain ⟨value, hvalue, hrest⟩ := bind_eq_ok_iff.1 h
  dsimp only at hrest
  split at hrest
  · cases hrest
  · split at hrest
    case h_1 => cases hrest
    case h_2 choice hchoice =>
      obtain ⟨m, hm, hpure⟩ := bind_eq_ok_iff.1 hrest
      obtain rfl := Except.ok.inj hpure
      exact ⟨value, choice, m, readBytes?_of_parseBody hvalue, hchoice, hm, rfl⟩

/-- The blocks of the content are texts and images. -/
theorem block_of_decodeParts {parts : List Json} {blocks : List Block}
    (h : decodeParts parts = .ok blocks) :
    ∀ b ∈ blocks, (∃ s, b = .text s) ∨ ∃ a, b = .attachment a := by
  induction parts generalizing blocks with
  | nil =>
    obtain rfl := Except.ok.inj h
    simp
  | cons part rest ih =>
    rw [decodeParts] at h
    split at h
    case h_1 =>
      obtain ⟨text, -, h⟩ := bind_eq_ok_iff.1 h
      obtain ⟨behind, hbehind, hpure⟩ := bind_eq_ok_iff.1 h
      obtain rfl := Except.ok.inj hpure
      exact List.forall_mem_cons.2 ⟨.inl ⟨text, rfl⟩, ih hbehind⟩
    case h_2 =>
      obtain ⟨image, -, h⟩ := bind_eq_ok_iff.1 h
      obtain ⟨behind, hbehind, hpure⟩ := bind_eq_ok_iff.1 h
      obtain rfl := Except.ok.inj hpure
      exact List.forall_mem_cons.2 ⟨.inr ⟨image, rfl⟩, ih hbehind⟩
    case h_3 => exact ih h

theorem block_of_decodeContent {value : Json} {blocks : List Block}
    (h : decodeContent value = .ok blocks) :
    ∀ b ∈ blocks, (∃ s, b = .text s) ∨ ∃ a, b = .attachment a := by
  unfold decodeContent at h
  split at h
  case h_1 =>
    obtain rfl := Except.ok.inj h
    simp
  case h_2 s =>
    obtain rfl := Except.ok.inj h
    split
    · simp
    · exact List.forall_mem_cons.2 ⟨.inl ⟨s, rfl⟩, by simp⟩
  case h_3 parts => exact block_of_decodeParts h
  case h_4 => cases h

theorem role_of_decodeToolCalls {role : Role} {value : Json} {calls : List ToolCall}
    (h : decodeToolCalls role value = .ok calls) : calls = [] ∨ role = .assistant := by
  unfold decodeToolCalls at h
  split at h
  case h_1 => exact .inl (Except.ok.inj h).symm
  case h_2 =>
    split at h
    · cases h
    · exact .inr (by simp_all)

/-- A message is one result, if it is from a tool, and else texts, images and, if it is from the
model, tool calls. -/
theorem content_of_decodeMessage {value : Json} {m : Message} (h : decodeMessage value = .ok m) :
    m.role = .tool ∧ (∃ r, m.content = [.toolResult r]) ∨
      m.role ≠ .tool ∧ ∀ b ∈ m.content, (∃ s, b = .text s) ∨ (∃ a, b = .attachment a) ∨
        (∃ c, b = .toolCall c) ∧ m.role = .assistant := by
  obtain ⟨role, -, h⟩ := bind_eq_ok_iff.1 h
  dsimp only at h
  split at h
  case isTrue hrole =>
    obtain ⟨raw, -, h⟩ := bind_eq_ok_iff.1 h
    obtain ⟨id, -, hpure⟩ := bind_eq_ok_iff.1 h
    obtain rfl := Except.ok.inj hpure
    exact .inl ⟨rfl, _, rfl⟩
  case isFalse hrole =>
    split at h
    · cases h
    · obtain ⟨blocks, hblocks, h⟩ := bind_eq_ok_iff.1 h
      obtain ⟨calls, hcalls, hpure⟩ := bind_eq_ok_iff.1 h
      obtain rfl := Except.ok.inj hpure
      refine .inr ⟨hrole, fun b hb => ?_⟩
      rcases List.mem_append.1 hb with hb | hb
      · rcases block_of_decodeContent hblocks b hb with htext | hmedia
        · exact .inl htext
        · exact .inr (.inl hmedia)
      · obtain ⟨c, hc, rfl⟩ := List.mem_map.1 hb
        rcases role_of_decodeToolCalls hcalls with rfl | hassistant
        · cases hc
        · exact .inr (.inr ⟨⟨c, rfl⟩, hassistant⟩)

end OpenAI

/-! ## Local chat -/

namespace Ollama

open Dialect (readBytes?_of_parseBody)

theorem exists_of_decodeReply {body : Bytes} {reply : Reply}
    (h : decodeReply body = .ok reply) :
    ∃ value m, Json.readBytes? body = some value ∧
      decodeMessage (value.get "message") = .ok m ∧ reply.message = { m with
        stopReason := (value.get "done_reason").text?.map (.classify .ollama) } := by
  obtain ⟨value, hvalue, hrest⟩ := bind_eq_ok_iff.1 h
  dsimp only at hrest
  split at hrest
  · cases hrest
  · obtain ⟨m, hm, hpure⟩ := bind_eq_ok_iff.1 hrest
    obtain rfl := Except.ok.inj hpure
    exact ⟨value, m, readBytes?_of_parseBody hvalue, hm, rfl⟩

theorem exists_of_decodeImages {values : List Json} {blocks : List Block}
    (h : values.mapM decodeImage = .ok blocks) :
    ∃ images, (∀ i ∈ images, MediaClass.ofType i.1 = .image) ∧ blocks = imageBlocks images := by
  induction values generalizing blocks with
  | nil =>
    obtain rfl := Except.ok.inj h
    exact ⟨[], by simp, rfl⟩
  | cons value rest ih =>
    rw [List.mapM_cons] at h
    obtain ⟨b, hb, h⟩ := bind_eq_ok_iff.1 h
    obtain ⟨behind, hbehind, hpure⟩ := bind_eq_ok_iff.1 h
    obtain rfl := Except.ok.inj hpure
    obtain ⟨images, himages, rfl⟩ := ih hbehind
    unfold decodeImage at hb
    split at hb
    case h_1 => cases hb
    case h_2 encoded _ =>
      obtain ⟨bytes, -, hpure⟩ := bind_eq_ok_iff.1 hb
      obtain rfl := Except.ok.inj hpure
      rw [sniffImageType_eq]
      refine ⟨(imageTypeOf bytes, bytes) :: images, ?_, rfl⟩
      exact List.forall_mem_cons.2 ⟨ofType_imageTypeOf bytes, himages⟩

/-- A message is a text, if it has one, and images behind it. -/
theorem content_of_decodeMessage {value : Json} {m : Message} (h : decodeMessage value = .ok m) :
    ∃ (text : Option String) (images : List (String × Bytes)),
      (∀ i ∈ images, MediaClass.ofType i.1 = .image) ∧
        m.content = text.toList.map .text ++ imageBlocks images := by
  obtain ⟨role, -, h⟩ := bind_eq_ok_iff.1 h
  obtain ⟨blocks, hblocks, hpure⟩ := bind_eq_ok_iff.1 h
  obtain rfl := Except.ok.inj hpure
  obtain ⟨images, himages, rfl⟩ := exists_of_decodeImages hblocks
  dsimp only
  split
  · exact ⟨none, images, himages, rfl⟩
  · exact ⟨some (value.textOrEmpty "content"), images, himages, rfl⟩

end Ollama

/-! ## Gemini -/

namespace Gemini

open Dialect (readBytes?_of_parseBody)

theorem exists_of_decodeReply {ids : CallIds} {body : Bytes} {reply : Reply}
    (h : decodeReply ids body = .ok reply) :
    ∃ value, Json.readBytes? body = some value ∧
      ((value.get "candidates").first? = none ∧ reply.message.role = .assistant ∧
          reply.message.content = [] ∧ reply.message.stopReason = some .blocked ∨
        ∃ candidate m, (value.get "candidates").first? = some candidate ∧
          (m = { role := .assistant } ∨ ∃ content, decodeMessage ids content = .ok m) ∧
          reply.message = { m with
            stopReason := (textField? candidate "finish_reason" "finishReason").map
              fun word => .classifyFor .gemini word m }) := by
  obtain ⟨value, hvalue, hrest⟩ := bind_eq_ok_iff.1 h
  refine ⟨value, readBytes?_of_parseBody hvalue, ?_⟩
  dsimp only at hrest
  split at hrest
  · cases hrest
  · obtain ⟨usage, -, hrest⟩ := bind_eq_ok_iff.1 hrest
    split at hrest
    case h_1 hnone =>
      split at hrest
      case h_1 reason _ =>
        obtain rfl := Except.ok.inj hrest
        exact .inl ⟨hnone, rfl, rfl, rfl⟩
      case h_2 => cases hrest
    case h_2 candidate hcandidate =>
      refine .inr ⟨candidate, ?_⟩
      split at hrest
      case h_1 content _ =>
        obtain ⟨m, hm, hpure⟩ := bind_eq_ok_iff.1 hrest
        obtain rfl := Except.ok.inj hpure
        exact ⟨m, hcandidate, .inr ⟨content, hm⟩, rfl⟩
      case h_2 =>
        obtain rfl := Except.ok.inj hrest
        exact ⟨_, hcandidate, .inl rfl, rfl⟩

theorem block_of_foldlM_add {ids : CallIds} {parts : List Json} {c c' : Contents}
    (h : parts.foldlM (Contents.add ids) c = .ok c') :
    ∀ b ∈ c'.blocks, b ∈ c.blocks ∨ ∃ freshId part, decodePart freshId part = .ok (some b) := by
  induction parts generalizing c with
  | nil =>
    obtain rfl := Except.ok.inj h
    exact fun b hb => .inl hb
  | cons part rest ih =>
    obtain ⟨next, hnext, hrest⟩ := Dialect.foldlM_cons_eq_ok_iff.1 h
    intro b hb
    rcases ih hrest b hb with hb | hb
    · obtain ⟨block, hblock, hpure⟩ := bind_eq_ok_iff.1 hnext
      obtain rfl := Except.ok.inj hpure
      rcases List.mem_append.1 hb with hb | hb
      · exact .inl hb
      · obtain rfl : block = some b := Option.mem_toList.1 hb
        exact .inr ⟨_, part, hblock⟩
    · exact .inr hb

/-- A message has no annotations and no sealed reasoning. -/
theorem content_of_decodeMessage {ids : CallIds} {value : Json} {m : Message}
    (h : decodeMessage ids value = .ok m) :
    m.role ≠ .system ∧
      ∀ b ∈ m.content, b.isAnnotation = false ∧ ∀ data, b ≠ .redactedThinking data := by
  obtain ⟨role, hrole, h⟩ := bind_eq_ok_iff.1 h
  obtain ⟨parts, -, h⟩ := bind_eq_ok_iff.1 h
  obtain ⟨contents, hcontents, hpure⟩ := bind_eq_ok_iff.1 h
  obtain rfl := Except.ok.inj hpure
  constructor
  · have hsystem : role ≠ .system := by
      rintro rfl
      unfold decodeRole at hrole
      split at hrole <;> cases hrole
    dsimp only
    split
    · simp
    · exact hsystem
  · intro b hb
    rcases block_of_foldlM_add hcontents b hb with hb | ⟨freshId, part, hpart⟩
    · cases hb
    · cases Gives.of_decodePart hpart <;> exact ⟨rfl, by simp⟩

end Gemini

/-! ## Messages that are read -/

/-- A message as the readers of a format give it, whatever they are given. -/
def Provider.IsRead (p : Provider) (m : Message) : Prop :=
  match p with
  | .anthropic => m.role ≠ .system ∧ ∃ (blocks : List Block) (cache : Option CacheUsage),
    Anthropic.IsMarked blocks ∧ (∀ b ∈ blocks, b.isUsage = false) ∧
      m.content = blocks ++ cache.toList.map .usage
  | .gemini => m.role ≠ .system ∧
    ∀ b ∈ m.content, b.isAnnotation = false ∧ ∀ data, b ≠ .redactedThinking data
  | .openai => m.role = .tool ∧ (∃ r, m.content = [.toolResult r]) ∨
    m.role ≠ .tool ∧ ∀ b ∈ m.content, (∃ s, b = .text s) ∨ (∃ a, b = .attachment a) ∨
      (∃ c, b = .toolCall c) ∧ m.role = .assistant
  | .ollama => ∃ (text : Option String) (images : List (String × Bytes)),
    (∀ i ∈ images, MediaClass.ofType i.1 = .image) ∧
      m.content = text.toList.map .text ++ Ollama.imageBlocks images

theorem Provider.isRead_of_decodeMessage {p : Provider} {ids : CallIds} {value : Json}
    {m : Message} (h : p.decodeMessage ids value = .ok m) : p.IsRead m := by
  cases p with
  | anthropic =>
    obtain ⟨blocks, hblocks, hcontent, hrole, -⟩ := Anthropic.exists_of_decodeMessage h
    obtain ⟨hmarked, hcounts⟩ := Anthropic.decodeContent_spec hblocks
    exact ⟨hrole, blocks, _, hmarked, hcounts, hcontent⟩
  | gemini => exact Gemini.content_of_decodeMessage h
  | openai => exact OpenAI.content_of_decodeMessage h
  | ollama => exact Ollama.content_of_decodeMessage h

theorem Provider.isRead_of_decodeReply {p : Provider} {ids : CallIds} {body : Bytes}
    {reply : Reply} (h : p.decodeReply ids body = .ok reply) : p.IsRead reply.message := by
  cases p with
  | anthropic =>
    obtain ⟨value, -, hm, -⟩ := Anthropic.exists_of_decodeReply h
    have hread : Provider.anthropic.decodeMessage ids value = .ok reply.message := hm
    exact isRead_of_decodeMessage hread
  | gemini =>
    have hempty : ∀ m : Message, m.role = .assistant → m.content = [] →
        Provider.gemini.IsRead m := by
      intro m hrole hcontent
      exact ⟨by simp [hrole], by simp [hcontent]⟩
    obtain ⟨value, -, hcases⟩ := Gemini.exists_of_decodeReply h
    rcases hcases with ⟨-, hrole, hcontent, -⟩ | ⟨candidate, m, -, rfl | ⟨content, hm⟩, hmessage⟩
    · exact hempty _ hrole hcontent
    · exact hempty _ (by rw [hmessage]) (by rw [hmessage])
    · have hread : Provider.gemini.IsRead m := Gemini.content_of_decodeMessage hm
      rw [hmessage]
      exact hread
  | openai =>
    obtain ⟨value, choice, m, -, -, hm, hmessage⟩ := OpenAI.exists_of_decodeReply h
    have hread : Provider.openai.IsRead m := OpenAI.content_of_decodeMessage hm
    rw [hmessage]
    exact hread
  | ollama =>
    obtain ⟨value, m, -, hm, hmessage⟩ := Ollama.exists_of_decodeReply h
    have hread : Provider.ollama.IsRead m := Ollama.content_of_decodeMessage hm
    rw [hmessage]
    exact hread

end ChatWire
