import ChatWire.Proofs.Dialect.AnthropicGroups
import ChatWire.Proofs.Dialect.GeminiRoundTrip
import ChatWire.Proofs.Dialect.OpenAIRoundTrip
import ChatWire.Proofs.Dialect.Replies
import ChatWire.Proofs.Session.Outbound

/-!
# Sending a recorded reply

A reply that has been recorded is sent with every later request. The readers take some media and
some results of tools that the writers of the same format refuse; a reply without such blocks can
always be sent, whatever else is in its body (`reply_resends`).
-/

namespace ChatWire

open Request (sent sentAfter named spread CanWrite)

/-- A recorded reply can be sent behind earlier messages: the formats refuse moving pictures and
sound, media that are no images, and results that are left without the name of a tool. -/
def Provider.CanResend (p : Provider) (earlier : List Message) (m : Message) : Prop :=
  match p with
  | .anthropic =>
    ∀ a, .attachment a ∈ m.content → a.mediaClass ≠ .video ∧ a.mediaClass ≠ .audio
  | .gemini => ∀ carried ∈ sentAfter .gemini earlier [m], ∀ r,
    .toolResult r ∈ carried.content → r.name ≠ ""
  | .openai => m.role ≠ .system → ∀ a, .attachment a ∈ m.content → a.mediaClass = .image
  | .ollama => True

variable {m : Message}

/-! ## Blocks of a message with names -/

theorem mem_named_iff {names : CallNames} {b : Block} (hresult : b.isToolResult = false)
    (husage : b.isUsage = false) : b ∈ (named names m).content ↔ b ∈ m.content := by
  rw [named, mem_nameResultsIn_iff hresult, List.mem_filter, husage]
  exact and_iff_left rfl

theorem isUsage_of_mem_named {names : CallNames} {b : Block}
    (h : b ∈ (named names m).content) : b.isUsage = false := by
  obtain ⟨c, hc, hnamed⟩ := mem_of_mem_nameResultsIn h
  have hnot := (List.mem_filter.1 hc).2
  cases hnamed with
  | same => simpa using hnot
  | result r name => rfl

/-- A message without cache counts and results is sent as it is. -/
theorem named_content_eq (names : CallNames)
    (h : ∀ b ∈ m.content, b.isUsage = false ∧ b.isToolResult = false) :
    (named names m).content = m.content := by
  have hfilter : (m.content.filter fun b => !b.isUsage) = m.content :=
    List.filter_eq_self.2 fun b hb => by rw [(h b hb).1]; rfl
  rw [named, hfilter]
  refine nameResultsIn_of_notMem names fun r hr => ?_
  cases (h _ hr).2

/-- A message that is not split is sent if it can be written. -/
theorem canWrite_spread_iff {p : Provider} {x : Message}
    (h : p ≠ .openai ∨ Request.splitResults x = [x]) :
    CanWrite p (spread p [x]) ↔ ∃ w, p.encodeMessage x = .ok w := by
  have hspread : spread p [x] = [x] := by
    unfold spread
    split
    case isTrue hp =>
      rw [List.flatMap_singleton]
      exact h.resolve_left fun hne => hne hp
    case isFalse => rfl
  rw [hspread]
  exact List.forall_mem_singleton

/-! ## Anthropic -/

namespace Anthropic

/-- Naming leaves the marks where they are. -/
theorem canMark_of_named {names : CallNames} {blocks : List Block} (h : IsMarked blocks)
    {before behind : List Block} {lifetime : Option CacheLifetime}
    (hsplit : (nameResultsIn names blocks).2 = before ++ .cacheControl lifetime :: behind) :
    CanMark before := by
  -- the two lists have the same marks at the same places, so each is cut where the mark stands
  have hnamed := isNamed_nameResultsIn names blocks
  rw [hsplit] at hnamed
  have hbefore := List.forall₂_take_append blocks before _ hnamed
  have hbehind := List.forall₂_drop_append blocks before _ hnamed
  obtain ⟨b, rest, hb, -, hdrop⟩ := List.forall₂_cons_right_iff.1 hbehind
  obtain rfl : b = .cacheControl lifetime := by
    cases hb
    rfl
  have hblocks : blocks = blocks.take before.length ++ .cacheControl lifetime :: rest := by
    rw [← hdrop, List.take_append_drop]
  obtain ⟨front, c, htake, hc⟩ := h _ _ _ hblocks
  rw [htake] at hbefore
  have hback := List.forall₂_drop_append before front [c] hbefore.flip
  obtain ⟨last, more, hlast, hmore, hdropped⟩ := List.forall₂_cons_right_iff.1 hback
  obtain rfl := List.forall₂_nil_right_iff.1 hmore
  have hcut : before = before.take front.length ++ [last] := by
    rw [← hdropped, List.take_append_drop]
  refine ⟨before.take front.length, last, [], hcut, ?_, by simp⟩
  cases hlast with
  | same => exact hc
  | result r name => rfl

theorem canWrite_named_iff (h : Provider.anthropic.IsRead m) (names : CallNames) :
    CanWrite .anthropic (spread .anthropic [named names m]) ↔
      ∀ a, .attachment a ∈ m.content → a.mediaClass ≠ .video ∧ a.mediaClass ≠ .audio := by
  obtain ⟨hrole, blocks, cache, hmarked, hcounts, hcontent⟩ := h
  have hfilter : (m.content.filter fun b => !b.isUsage) = blocks := by
    have hkept : (blocks.filter fun b => !b.isUsage) = blocks :=
      List.filter_eq_self.2 fun b hb => by rw [hcounts b hb]; rfl
    rw [hcontent, List.filter_append, hkept]
    cases cache <;> simp [Block.isUsage]
  rw [canWrite_spread_iff (.inl (by decide)), Provider.encodeMessage, exists_encodeMessage_iff]
  constructor
  · intro hw a ha
    exact hw.media a ((mem_named_iff rfl rfl).2 ha)
  · intro hmedia
    refine ⟨hrole, fun a ha => hmedia a ((mem_named_iff rfl rfl).1 ha), ?_, ?_⟩
    · have hnone : (named names m).content.filter Block.isUsage = [] :=
        List.filter_eq_nil_iff.2 fun b hb => by rw [isUsage_of_mem_named hb]; simp
      rw [hnone]
      exact Nat.zero_le 1
    · intro before lifetime behind hsplit
      rw [named, hfilter] at hsplit
      exact canMark_of_named hmarked hsplit

end Anthropic

/-! ## Gemini -/

namespace Gemini

theorem canWrite_named_iff (h : Provider.gemini.IsRead m) (names : CallNames) :
    CanWrite .gemini (spread .gemini [named names m]) ↔
      ∀ r, .toolResult r ∈ (named names m).content → r.name ≠ "" := by
  obtain ⟨hrole, hcontent⟩ := h
  rw [canWrite_spread_iff (.inl (by decide)), Provider.encodeMessage]
  constructor
  · rintro ⟨w, hw⟩
    exact (encodeMessage_eq_ok_iff.1 hw).1.named
  · intro hnamed
    refine ⟨_, encodeMessage_eq_ok_iff.2 ⟨⟨hrole, ?_, ?_, ?_, hnamed⟩, rfl⟩⟩
    · intro data hdata
      exact (hcontent _ ((mem_named_iff rfl rfl).1 hdata)).2 data rfl
    · intro lifetime hmark
      cases (hcontent _ ((mem_named_iff rfl rfl).1 hmark)).1
    · intro u hu
      cases isUsage_of_mem_named hu

end Gemini

/-! ## Chat completions -/

namespace OpenAI

theorem canWrite_named_iff (h : Provider.openai.IsRead m) (names : CallNames) :
    CanWrite .openai (spread .openai [named names m]) ↔
      ∀ a, .attachment a ∈ m.content → a.mediaClass = .image := by
  rcases h with ⟨hrole, r, hcontent⟩ | ⟨hrole, hblocks⟩
  · obtain ⟨r', hresult⟩ : ∃ r', (named names m).content = [.toolResult r'] := by
      have hnamed := isNamed_nameResult names (.toolResult r)
      rw [named, hcontent]
      generalize hblock : (nameResult names (.toolResult r)).2 = block at hnamed
      have hone : (nameResultsIn names [.toolResult r]).2 = [block] := congrArg (· :: []) hblock
      cases hnamed with
      | same => exact ⟨r, hone⟩
      | result _ name => exact ⟨{ r with name }, hone⟩
    have hsplit : Request.splitResults (named names m) = [named names m] := by
      simp [Request.splitResults, hresult]
    rw [canWrite_spread_iff (.inr hsplit), Provider.encodeMessage, exists_encodeMessage_iff]
    constructor
    · intro _ a ha
      simp [hcontent] at ha
    · intro _
      exact ⟨fun _ => ⟨r', hresult⟩, fun hother => absurd hrole hother⟩
  · have hname : (named names m).content = m.content := by
      refine named_content_eq names fun b hb => ?_
      rcases hblocks b hb with ⟨s, rfl⟩ | ⟨a, rfl⟩ | ⟨⟨c, rfl⟩, -⟩ <;> exact ⟨rfl, rfl⟩
    have hsplit : Request.splitResults (named names m) = [named names m] := by
      have hother : (named names m).role ≠ .tool := hrole
      simp [Request.splitResults, hother]
    rw [canWrite_spread_iff (.inr hsplit), Provider.encodeMessage, exists_encodeMessage_iff]
    constructor
    · intro hw a ha
      rcases hw.ofOthers hrole _ (by rwa [hname]) with ⟨s, hs⟩ | ⟨a', himage, ha'⟩ | ⟨-, c, hc⟩
      · cases hs
      · obtain rfl := Block.attachment.inj ha'
        exact himage
      · cases hc
    · intro himages
      refine ⟨fun htool => absurd htool hrole, fun _ b hb => ?_⟩
      rw [hname] at hb
      rcases hblocks b hb with ⟨s, rfl⟩ | ⟨a, rfl⟩ | ⟨⟨c, rfl⟩, hassistant⟩
      · exact .inl ⟨s, rfl⟩
      · exact .inr (.inl ⟨a, himages a hb, rfl⟩)
      · exact .inr (.inr ⟨hassistant, c, rfl⟩)

end OpenAI

/-! ## Local chat -/

namespace Ollama

theorem canWrite_named (h : Provider.ollama.IsRead m) (names : CallNames) :
    CanWrite .ollama (spread .ollama [named names m]) := by
  obtain ⟨text, images, himages, hcontent⟩ := h
  have hname : (named names m).content = m.content := by
    refine named_content_eq names fun b hb => ?_
    rw [hcontent] at hb
    rcases List.mem_append.1 hb with hb | hb
    · obtain ⟨s, -, rfl⟩ := List.mem_map.1 hb
      exact ⟨rfl, rfl⟩
    · obtain ⟨i, -, rfl⟩ := List.mem_map.1 hb
      exact ⟨rfl, rfl⟩
  rw [canWrite_spread_iff (.inl (by decide)), Provider.encodeMessage]
  exact ⟨_, encodeMessage_of_eq himages (hname.trans hcontent)⟩

end Ollama

/-! ## Replies -/

/-- The message as it is recorded, charged with tokens. -/
def Message.charged (m : Message) (tokens : UInt64) : Message := { m with tokenCount := tokens }

/-- What is sent of a message that was read can be written exactly if the message can be resent. -/
theorem canWrite_sentAfter_iff {p : Provider} (h : p.IsRead m) (earlier : List Message) :
    CanWrite p (sentAfter p earlier [m]) ↔ p.CanResend earlier m := by
  by_cases hsystem : m.role = .system
  -- nothing is sent of a standing instruction, and two of the readers give none
  · rw [Request.sentAfter_of_system p earlier hsystem]
    refine iff_of_true (fun x hx => absurd hx List.not_mem_nil) ?_
    cases p with
    | anthropic => exact absurd hsystem h.1
    | gemini => exact absurd hsystem h.1
    | openai => exact fun hother => absurd hsystem hother
    | ollama => trivial
  · obtain ⟨names, hnames⟩ := Request.exists_sentAfter_eq p earlier hsystem
    rw [hnames]
    cases p with
    | anthropic => exact Anthropic.canWrite_named_iff h names
    | gemini =>
      have hspread : spread .gemini [named names m] = [named names m] := rfl
      rw [Gemini.canWrite_named_iff h, Provider.CanResend, hnames, hspread,
        List.forall_mem_singleton]
    | openai =>
      rw [OpenAI.canWrite_named_iff h]
      exact ⟨fun himages _ => himages, fun h => h hsystem⟩
    | ollama => exact iff_of_true (Ollama.canWrite_named h names) trivial

/-- What is sent of a recorded reply can be written exactly if the reply can be resent, and then so
can every request that has nothing else to refuse. -/
theorem reply_resends {p : Provider} {ids : CallIds} {body : Bytes} {reply : Reply}
    (h : p.decodeReply ids body = .ok reply) (tokens : UInt64) (earlier later : List Message) :
    (CanWrite p (sentAfter p earlier [reply.message.charged tokens]) ↔
        p.CanResend earlier (reply.message.charged tokens)) ∧
      ∀ (model : String) (tools : List Tool) (o : Options), o.check = .ok () →
        (p = .ollama → tools = []) → CanWrite p (sent p earlier) →
        CanWrite p (sentAfter p (earlier ++ [reply.message.charged tokens]) later) →
        ((∃ request, Request.body p model (earlier ++ reply.message.charged tokens :: later) tools o
            = .ok request) ↔ p.CanResend earlier (reply.message.charged tokens)) := by
  have hread : p.IsRead (reply.message.charged tokens) := Provider.isRead_of_decodeReply h
  have hresend := canWrite_sentAfter_iff hread earlier
  refine ⟨hresend, fun model tools o hcheck htools hearlier hlater => ?_⟩
  have hsplit : earlier ++ reply.message.charged tokens :: later
      = (earlier ++ [reply.message.charged tokens]) ++ later := by simp
  rw [Request.exists_body_iff, hsplit, Request.sent_append, Request.sent_append,
    Request.canWrite_append, Request.canWrite_append, ← hresend]
  constructor
  · rintro ⟨-, ⟨⟨-, hm⟩, -⟩, -⟩
    exact hm
  · intro hm
    exact ⟨hcheck, ⟨⟨hearlier, hm⟩, hlater⟩, htools⟩

/-! ### Pictures, films, plans and a result without a name -/

/-- A chat completion that shows what is at an address. -/
def pictureBody (url : String) : Json := .object [
  ("choices", .array [.object [("finish_reason", .string "stop"), ("message", .object [
    ("content", .array [.object [("image_url", .object [("url", .string url)]),
      ("type", .string "image_url")]]),
    ("role", .string "assistant")])]])]

/-- An Anthropic reply that shows what is at an address. -/
def filmBody (url : String) : Json := .object [
  ("content", .array [.object [("source", .object [("type", .string "url"), ("url", .string url)]),
    ("type", .string "image")]]),
  ("role", .string "assistant"), ("stop_reason", .string "end_turn")]

/-- A Gemini reply with a result that names no tool. -/
def namelessBody : Json := .object [
  ("candidates", .array [.object [("content", .object [
      ("parts", .array [.object [("functionResponse", .object [
        ("name", .string ""), ("response", .object [])])]]),
      ("role", .string "model")]),
    ("finishReason", .string "STOP")]])]

/-- A reply of one block that stopped normally. -/
def replyWith (block : Block) : Reply where
  message := { role := .assistant, content := [block], stopReason := some .stop }
  usage := {}

/-- A reply that shows what is at an address. -/
def showing (type url : String) : Reply := replyWith (.attachment ⟨type, .address url⟩)

/-- What is asked before and behind a picture. -/
def question : Message := .ofText .user "What is this?"

theorem canWrite_question (earlier : List Message) :
    CanWrite .openai (sentAfter .openai earlier [question]) := by
  have hrole : question.role ≠ .system := by simp [question, Message.ofText]
  obtain ⟨names, hnames⟩ := Request.exists_sentAfter_eq .openai earlier hrole
  rw [hnames]
  exact List.forall_mem_singleton.2 ⟨_, rfl⟩

theorem decodeReply_pictureBody :
    Provider.openai.decodeReply .numbered
        (Bytes.ofString (pictureBody "https://a.b/cat.png").toText)
      = .ok (showing "image/png" "https://a.b/cat.png") := by
  rw [Provider.decodeReply, OpenAI.decodeReply,
    Dialect.parseBody_toText _ (by decide) (by decide +kernel)]
  decide +kernel

theorem reply_resends_picture :
    ∃ m, m = (showing "image/png" "https://a.b/cat.png").message.charged 7 ∧
      Provider.openai.CanResend [question] m ∧
      CanWrite .openai (sentAfter .openai [question] [m]) ∧
      ∃ request,
        Request.body .openai "gpt" ([question] ++ m :: [question]) [] {} = .ok request := by
  obtain ⟨hwrite, hbody⟩ := reply_resends decodeReply_pictureBody 7 [question] [question]
  have hresend : Provider.openai.CanResend [question]
      ((showing "image/png" "https://a.b/cat.png").message.charged 7) := by
    intro _ a ha
    obtain rfl := Block.attachment.inj (List.mem_singleton.1 ha)
    decide
  have hcheck : ({} : Options).check = .ok () := by decide +kernel
  refine ⟨_, rfl, hresend, hwrite.2 hresend, ?_⟩
  exact (hbody "gpt" [] {} hcheck (fun _ => rfl) (canWrite_question [])
    (canWrite_question _)).2 hresend

/-- A reply whose content may be used, and which no request can carry. -/
def IsStuck (p : Provider) (body : Bytes) : Prop :=
  ∃ reply, p.decodeReply .numbered body = .ok reply ∧
    (Outcome.ofMessage reply.message).message? = some reply.message ∧
    ¬ CanWrite p (sentAfter p [] [reply.message])

theorem isStuck_of_error {p : Provider} {body : Bytes} {reply : Reply} {x : Message} {e : Error}
    (h : p.decodeReply .numbered body = .ok reply) (hstop : reply.message.stopReason = some .stop)
    (hx : x ∈ sentAfter p [] [reply.message]) (herror : p.encodeMessage x = .error e) :
    IsStuck p body := by
  refine ⟨reply, h, ?_, fun hcan => ?_⟩
  · rw [Outcome.ofMessage, hstop]
    rfl
  · obtain ⟨w, hw⟩ := hcan x hx
    rw [herror] at hw
    cases hw

/-- The readers take films, plans and results without names that the writers refuse. -/
theorem replies_are_stuck :
    IsStuck .anthropic (Bytes.ofString (filmBody "https://a.b/clip.mp4").toText) ∧
      IsStuck .gemini (Bytes.ofString namelessBody.toText) ∧
      IsStuck .openai (Bytes.ofString (pictureBody "https://a.b/plan.pdf").toText) := by
  have hfilm : Provider.anthropic.decodeReply .numbered
      (Bytes.ofString (filmBody "https://a.b/clip.mp4").toText)
        = .ok (showing "video/mp4" "https://a.b/clip.mp4") := by
    rw [Provider.decodeReply, Anthropic.decodeReply,
      Dialect.parseBody_toText _ (by decide) (by decide +kernel)]
    decide +kernel
  have hnameless : Provider.gemini.decodeReply .numbered (Bytes.ofString namelessBody.toText)
      = .ok (replyWith (.toolResult ⟨"", "", "\x7b\x7d", false⟩)) := by
    rw [Provider.decodeReply, Gemini.decodeReply,
      Dialect.parseBody_toText _ (by decide) (by decide +kernel)]
    decide +kernel
  have hplan : Provider.openai.decodeReply .numbered
      (Bytes.ofString (pictureBody "https://a.b/plan.pdf").toText)
        = .ok (showing "application/pdf" "https://a.b/plan.pdf") := by
    rw [Provider.decodeReply, OpenAI.decodeReply,
      Dialect.parseBody_toText _ (by decide) (by decide +kernel)]
    decide +kernel
  exact ⟨isStuck_of_error hfilm rfl List.mem_cons_self rfl,
    isStuck_of_error hnameless rfl List.mem_cons_self rfl,
    isStuck_of_error hplan rfl List.mem_cons_self rfl⟩

end ChatWire
