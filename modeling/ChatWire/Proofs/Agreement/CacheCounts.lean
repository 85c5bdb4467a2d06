import ChatWire.Proofs.Dialect.Replies
import ChatWire.Proofs.Stream.Completion

/-!
# Cache counts at the end of a reply

An assembly ends the content of a message with its cache counts if one of them is positive
(`Assembly.isAnnotated_of_answers`). Of the readers of whole replies only one gives cache counts at
all, and it does so where the body has them, even if both are zero. So whether a reply ends with its
cache counts depends on how it was received, and `annotations_agree_iff` says where it does not.
-/

namespace ChatWire

/-- Input was put into the cache or read from it. -/
def TokenUsage.UsesCache (u : TokenUsage) : Prop := 0 < u.cacheCreated ∨ 0 < u.cacheRead

instance (u : TokenUsage) : Decidable u.UsesCache := inferInstanceAs (Decidable (_ ∨ _))

namespace Reply

/-- The cache counts among the blocks. -/
def annotations (r : Reply) : List Block := r.message.content.filter Block.isUsage

/-- The content ends with the cache counts of the report if one of them is positive, and has no
cache counts otherwise. -/
def IsAnnotated (r : Reply) : Prop :=
  if r.usage.UsesCache then r.message.content.getLast? = some (.usage r.usage.cache)
  else ∀ b ∈ r.message.content, b.isUsage = false

/-- Behind blocks of other kinds stand the cache counts of the report, under a condition. -/
structure EndsWithCounts (r : Reply) (condition : Prop) [Decidable condition]
    (blocks : List Block) : Prop where
  others : ∀ b ∈ blocks, b.isUsage = false
  content : r.message.content = blocks ++ if condition then [.usage r.usage.cache] else []

namespace EndsWithCounts

variable {r : Reply} {condition : Prop} [Decidable condition] {blocks : List Block}

theorem annotations_eq (h : r.EndsWithCounts condition blocks) :
    r.annotations = if condition then [.usage r.usage.cache] else [] := by
  have hblocks : blocks.filter Block.isUsage = [] :=
    List.filter_eq_nil_iff.2 fun b hb => by simp [h.others b hb]
  rw [annotations, h.content, List.filter_append, hblocks, List.nil_append]
  split <;> rfl

theorem isAnnotated_iff (h : r.EndsWithCounts condition blocks) :
    r.IsAnnotated ↔ (condition ↔ r.usage.UsesCache) := by
  unfold IsAnnotated
  rw [h.content]
  by_cases huses : r.usage.UsesCache <;> by_cases hcondition : condition
  · simp [huses, hcondition]
  · -- the last block would be one of the others
    have hlast : blocks.getLast? ≠ some (.usage r.usage.cache) := fun hlast => by
      have hcounts := h.others _ (List.mem_of_getLast? hlast)
      cases hcounts
    simp [huses, hcondition, hlast]
  · simp [huses, hcondition, Block.isUsage]
  · simpa [huses, hcondition] using h.others

end EndsWithCounts

end Reply

/-! ## Assembled replies -/

variable {p : Provider}

/-- No block of a transcript is cache counts. -/
theorem Opening.isUsage_of_block? {o : Opening} {fragments : List Fragment} {b : Block}
    (h : o.block? fragments = some b) : b.isUsage = false := by
  cases o with
  | toolCall id name =>
    obtain ⟨arguments, -, rfl⟩ := Option.map_eq_some_iff.1 h
    rfl
  | unknown kind => cases h
  | _ =>
    obtain rfl := Option.some.inj h
    rfl

theorem Transcript.isUsage_of_blockAt? {events : List Event} {i : Nat} {b : Block}
    (h : blockAt? events i = some b) : b.isUsage = false := by
  unfold blockAt? at h
  split at h
  · exact Opening.isUsage_of_block? h
  · cases h

theorem Transcript.reply_endsWithCounts (events : List Event) :
    (reply p events).EndsWithCounts (usage events).UsesCache
      ((indices events).filterMap (blockAt? events)) where
  others b hb := by
    obtain ⟨i, -, hi⟩ := List.mem_filterMap.1 hb
    exact isUsage_of_blockAt? hi
  content := by
    have hcounts : (reply p events).message.content = content events := rfl
    rw [hcounts, content]
    simp only [TokenUsage.UsesCache, Bool.or_eq_true, decide_eq_true_eq]
    rfl

/-- An assembly gives replies that end with their cache counts if one of them is positive. -/
theorem Assembly.endsWithCounts_of_answers {events : List Event} {k : Nat} {r : Reply}
    (h : (answers p .waiting events)[k]? = some (.ok (some r))) :
    ∃ blocks, r.EndsWithCounts r.usage.UsesCache blocks := by
  obtain ⟨-, d, hrun, hconclude⟩ := (answers_eq_reply_iff_run .waiting events k r).1 h
  obtain ⟨-, htells⟩ := exists_of_run_eq_drafting hrun
  obtain ⟨-, rfl⟩ := (htells.conclude_eq_ok r).1 hconclude
  exact ⟨_, Transcript.reply_endsWithCounts _⟩

/-! ## Whole replies -/

variable {ids : CallIds} {body : Bytes} {value : Json} {reply : Reply}

/-- The body of a reply that is read with cache counts at the end of its content. -/
def Provider.Annotates (p : Provider) (value : Json) : Prop :=
  p = .anthropic ∧ (((value.get "usage").get? "cache_creation_input_tokens").isSome ∨
    ((value.get "usage").get? "cache_read_input_tokens").isSome)

instance (p : Provider) (value : Json) : Decidable (p.Annotates value) :=
  inferInstanceAs (Decidable (_ ∧ _))

theorem Anthropic.decodeCacheUsage?_eq (value : Json) :
    decodeCacheUsage? value = if Provider.anthropic.Annotates value then
      some (decodeUsage (value.get "usage")).cache else none := by
  have hget : decodeCacheUsage? value
      = if ((value.get "usage").get? "cache_creation_input_tokens").isSome
          || ((value.get "usage").get? "cache_read_input_tokens").isSome then
        some (decodeUsage (value.get "usage")).cache else none := by
    unfold decodeCacheUsage? Json.get
    cases value.get? "usage" <;> rfl
  rw [hget]
  simp only [Provider.Annotates, Bool.or_eq_true, true_and]

theorem Provider.endsWithCounts_of_decodeReply (hread : Json.readBytes? body = some value)
    (h : p.decodeReply ids body = .ok reply) :
    ∃ blocks, reply.EndsWithCounts (p.Annotates value) blocks := by
  have hisRead := isRead_of_decodeReply h
  -- three of the readers give no cache counts whatsoever
  have hplain (hp : p ≠ .anthropic) (hnone : ∀ b ∈ reply.message.content, b.isUsage = false) :
      ∃ blocks, reply.EndsWithCounts (p.Annotates value) blocks := by
    have hnot : ¬ p.Annotates value := fun hannotates => hp hannotates.1
    exact ⟨_, hnone, by rw [if_neg hnot, List.append_nil]⟩
  cases p with
  | anthropic =>
    obtain ⟨value', hread', hm, husage⟩ := Anthropic.exists_of_decodeReply h
    obtain rfl : value = value' := Option.some.inj (hread.symm.trans hread')
    obtain ⟨blocks, hblocks, hcontent, -⟩ := Anthropic.exists_of_decodeMessage hm
    refine ⟨blocks, (Anthropic.decodeContent_spec hblocks).2, ?_⟩
    rw [hcontent, Anthropic.decodeCacheUsage?_eq, husage]
    split <;> rfl
  | gemini =>
    refine hplain nofun fun b hb => ?_
    have hannotation := (hisRead.2 b hb).1
    cases b with
    | usage => cases hannotation
    | _ => rfl
  | openai =>
    refine hplain nofun fun b hb => ?_
    rcases hisRead with ⟨-, r, hcontent⟩ | ⟨-, hblocks⟩
    · rw [hcontent, List.mem_singleton] at hb
      rw [hb]
      rfl
    · rcases hblocks b hb with ⟨_, rfl⟩ | ⟨_, rfl⟩ | ⟨⟨_, rfl⟩, -⟩ <;> rfl
  | ollama =>
    refine hplain nofun fun b hb => ?_
    obtain ⟨text, images, -, hcontent⟩ := hisRead
    rw [hcontent] at hb
    rcases List.mem_append.1 hb with hb | hb
    · obtain ⟨s, -, rfl⟩ := List.mem_map.1 hb
      rfl
    · obtain ⟨i, -, rfl⟩ := List.mem_map.1 hb
      rfl

/-! ## Both ways -/

/-- A whole reply ends with its cache counts where `Provider.Annotates` says so, a streamed one
where one of them is positive. So the law of the streamed ones holds of a whole one exactly if the
two conditions come to the same, and exactly then a streamed reply with the same report has the same
cache counts among its blocks. -/
theorem annotations_agree_iff (hread : Json.readBytes? body = some value)
    (hreply : p.decodeReply ids body = .ok reply) :
    (∃ blocks, reply.EndsWithCounts (p.Annotates value) blocks) ∧
    (reply.IsAnnotated ↔ (p.Annotates value ↔ reply.usage.UsesCache)) ∧
    ∀ (events : List Event) (k : Nat) (streamed : Reply),
      (Assembly.answers p .waiting events)[k]? = some (.ok (some streamed)) →
      streamed.IsAnnotated ∧ (streamed.usage = reply.usage →
        (streamed.annotations = reply.annotations ↔
          (p.Annotates value ↔ reply.usage.UsesCache))) := by
  obtain ⟨blocks, hwhole⟩ := Provider.endsWithCounts_of_decodeReply hread hreply
  refine ⟨⟨blocks, hwhole⟩, hwhole.isAnnotated_iff, fun events k streamed hstreamed => ?_⟩
  obtain ⟨_, hstream⟩ := Assembly.endsWithCounts_of_answers hstreamed
  refine ⟨hstream.isAnnotated_iff.2 Iff.rfl, fun husage => ?_⟩
  rw [hstream.annotations_eq, hwhole.annotations_eq, husage]
  by_cases hcondition : p.Annotates value <;> by_cases huses : reply.usage.UsesCache <;>
    simp [hcondition, huses]

/-! ### Cache counts that are left out, and some that are put in -/

/-- A reply for which input was read from the cache, or for which the cache was of no use. -/
def cacheBody : Provider → Json
  | .openai => .object [
    ("choices", .array [.object [
      ("message", .object [("content", .string "Hi."), ("role", .string "assistant")])]]),
    ("usage", .object [
      ("prompt_tokens", .number (.whole 9)),
      ("prompt_tokens_details", .object [("cached_tokens", .number (.whole 5))])])]
  | .gemini => .object [
    ("candidates", .array [.object [("content", .object [
      ("parts", .array [.object [("text", .string "Hi.")]]), ("role", .string "model")])]]),
    ("usageMetadata", .object [
      ("cachedContentTokenCount", .number (.whole 5)),
      ("promptTokenCount", .number (.whole 9))])]
  | _ => .object [
    ("content", .string "Hi."), ("role", .string "assistant"),
    ("usage", .object [("cache_read_input_tokens", .number (.whole 0))])]

/-- The replies as they are read. -/
def cacheReply : Provider → Reply
  | .openai | .gemini => ⟨.ofText .assistant "Hi.", { input := 4, cacheRead := 5 }⟩
  | _ => ⟨{ role := .assistant, content := [.text "Hi.", .usage ⟨0, 0⟩] }, {}⟩

theorem parseBody_cacheBody (hp : p ≠ .ollama) :
    Dialect.parseBody p (Bytes.ofString (cacheBody p).toText) = .ok (cacheBody p) := by
  refine Dialect.parseBody_toText p ?_ ?_ <;> cases p <;> decide +kernel

theorem decodeReply_cacheBody (hp : p ≠ .ollama) :
    p.decodeReply .numbered (Bytes.ofString (cacheBody p).toText) = .ok (cacheReply p) := by
  have hparse := parseBody_cacheBody hp
  cases p with
  | anthropic =>
    rw [Provider.decodeReply, Anthropic.decodeReply, hparse]
    decide +kernel
  | gemini =>
    rw [Provider.decodeReply, Gemini.decodeReply, hparse]
    decide +kernel
  | openai =>
    rw [Provider.decodeReply, OpenAI.decodeReply, hparse]
    decide +kernel
  | ollama => exact absurd rfl hp

theorem annotations_agree_iff_cacheBody :
    Json.readBytes? (Bytes.ofString (cacheBody .openai).toText) = some (cacheBody .openai) ∧
      Provider.openai.decodeReply .numbered (Bytes.ofString (cacheBody .openai).toText)
        = .ok (cacheReply .openai) ∧
      ¬ (cacheReply .openai).IsAnnotated := by
  have hread := Dialect.readBytes?_of_parseBody (parseBody_cacheBody (p := .openai) nofun)
  have hreply := decodeReply_cacheBody (p := .openai) nofun
  refine ⟨hread, hreply, fun hannotated => ?_⟩
  have hiff := (annotations_agree_iff hread hreply).2.1.1 hannotated
  exact absurd hiff (by decide)

/-- None of the readers of whole replies that know of a cache gives its counts as assemblies do. -/
theorem whole_replies_not_annotated :
    (¬ ∀ (ids : CallIds) (body : Bytes) (reply : Reply),
      Provider.openai.decodeReply ids body = .ok reply → reply.IsAnnotated) ∧
    (¬ ∀ (ids : CallIds) (body : Bytes) (reply : Reply),
      Provider.gemini.decodeReply ids body = .ok reply → reply.IsAnnotated) ∧
    ¬ ∀ (ids : CallIds) (body : Bytes) (reply : Reply),
      Provider.anthropic.decodeReply ids body = .ok reply → reply.IsAnnotated := by
  have hnot {p : Provider} (hp : p ≠ .ollama) : ¬ ∀ (ids : CallIds) (body : Bytes) (reply : Reply),
      p.decodeReply ids body = .ok reply → reply.IsAnnotated := by
    intro h
    have hannotated := h .numbered _ _ (decodeReply_cacheBody hp)
    obtain ⟨_, hcounts⟩ := Provider.endsWithCounts_of_decodeReply
      (Dialect.readBytes?_of_parseBody (parseBody_cacheBody hp)) (decodeReply_cacheBody hp)
    rw [hcounts.isAnnotated_iff] at hannotated
    cases p with
    | ollama => exact absurd rfl hp
    | _ => exact absurd hannotated (by decide)
  exact ⟨hnot nofun, hnot nofun, hnot nofun⟩

end ChatWire
