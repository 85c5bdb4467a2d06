import ChatWire.Proofs.Agreement.AnthropicEvents
import ChatWire.Proofs.Dialect.Replies

/-!
# Records of token counts

The same record of token counts stands in a body and in the event that begins a streamed message.
The body's reader takes whatever is no count for zero; the event's reader knows its members by type
and takes no record in which one of them is anything but a count. What both take they read alike,
and `Anthropic.usages_agree_iff` says which records these are.
-/

namespace ChatWire

open Json (recordMembers?_one recordMembers?_two required?_of_has optional?_of_has
  optional?_of_lacks exists_of_has_tag get?_canonical_of_has get?_canonical_of_lacks)

namespace Json

variable {ms members : List (String × Json)} {name : String} {names : List String}

/-- The members of a record that has been read are there at most once. -/
theorem once_of_recordMembers? (h : recordMembers? names (.object ms) = some members)
    (hname : name ∈ names) :
    members = ms ∧ ((∃ x, (object ms).Has name x) ∨ (object ms).Lacks name) := by
  simp only [recordMembers?] at h
  split_ifs at h with hall
  refine ⟨(Option.some.inj h).symm, ?_⟩
  have hlength := of_decide_eq_true (List.all_eq_true.1 hall name hname)
  rcases hfilter : ms.filter fun m => m.1 == name with _ | ⟨m, _ | ⟨m', rest⟩⟩
  · exact .inr (by rw [Lacks, under, hfilter, List.map_nil])
  · exact .inl ⟨m.2, by rw [Has, under, hfilter, List.map_singleton]⟩
  · simp [hfilter] at hlength

theorem eq_ofCount_of_count? {v : Json} {n : UInt64} (h : v.count? = some n) : v = ofCount n := by
  unfold count? at h
  split at h
  · rw [Option.some.inj h, ofCount]
  · cases h

end Json

namespace Anthropic

variable {ms : List (String × Json)} {usage : Json} {u : TokenUsage}

/-- The counts of a record. -/
def countNames : List String :=
  ["input_tokens", "output_tokens", "cache_creation_input_tokens", "cache_read_input_tokens"]

/-- Each of the counts is there once, as a whole number of 64 bits, or is left out. -/
def IsCounted (usage : Json) : Prop := ∀ name ∈ countNames, ∃ n, SaysCount usage name n

theorem saysCount_of_optional? {name : String} {n : UInt64}
    (honce : (∃ x, (Json.object ms).Has name x) ∨ (Json.object ms).Lacks name)
    (h : Json.optional? ms name 0 Json.count? = some n) : SaysCount (.object ms) name n := by
  rcases honce with ⟨x, hx⟩ | hnone
  · rw [optional?_of_has hx] at h
    exact .inl (Json.eq_ofCount_of_count? h ▸ hx)
  · rw [optional?_of_lacks hnone] at h
    exact .inr ⟨(Option.some.inj h).symm, hnone⟩

/-- A record of token counts is read exactly if it says them. -/
theorem eventUsage?_eq_some_iff :
    eventUsage? (.object ms) = some u ↔ SaysCounts (.object ms) u := by
  refine ⟨fun h => ?_, eventUsage?_of_says⟩
  obtain ⟨members, hms, hcounts⟩ := Option.bind_eq_some_iff.1 h
  have honce := fun name (hname : name ∈ countNames) => Json.once_of_recordMembers? hms hname
  obtain rfl : members = ms := (honce "input_tokens" (by decide)).1
  obtain ⟨input, hinput, hcounts⟩ := Option.bind_eq_some_iff.1 hcounts
  obtain ⟨output, houtput, hcounts⟩ := Option.bind_eq_some_iff.1 hcounts
  obtain ⟨created, hcreated, hcounts⟩ := Option.bind_eq_some_iff.1 hcounts
  obtain ⟨read, hread, hcounts⟩ := Option.bind_eq_some_iff.1 hcounts
  obtain rfl := Option.some.inj hcounts
  exact {
    input := saysCount_of_optional? (honce _ (by decide)).2 hinput
    output := saysCount_of_optional? (honce _ (by decide)).2 houtput
    cacheCreated := saysCount_of_optional? (honce _ (by decide)).2 hcreated
    cacheRead := saysCount_of_optional? (honce _ (by decide)).2 hread }

theorem exists_saysCounts_iff : (∃ u, SaysCounts usage u) ↔ IsCounted usage := by
  simp only [IsCounted, countNames, List.forall_mem_cons, List.not_mem_nil, false_implies,
    implies_true, and_true]
  constructor
  · rintro ⟨u, hinput, houtput, hcreated, hread⟩
    exact ⟨⟨_, hinput⟩, ⟨_, houtput⟩, ⟨_, hcreated⟩, ⟨_, hread⟩⟩
  · rintro ⟨⟨input, hinput⟩, ⟨output, houtput⟩, ⟨created, hcreated⟩, ⟨read, hread⟩⟩
    exact ⟨⟨input, output, created, read⟩, hinput, houtput, hcreated, hread⟩

/-- What is said to be a count is taken for this count by the reader of bodies too. -/
theorem countOrZero_of_says {name : String} {n : UInt64} (h : SaysCount usage name n) :
    usage.canonical.countOrZero name = n := by
  rcases h with h | ⟨rfl, h⟩
  · have hcount : (Json.ofCount n).canonical = .ofCount n := by simp [Json.ofCount, Json.canonical]
    rw [Json.countOrZero, Json.get, get?_canonical_of_has h, hcount]
    rfl
  · rw [Json.countOrZero, Json.get, get?_canonical_of_lacks h]
    rfl

theorem decodeUsage_of_says (h : SaysCounts usage u) : decodeUsage usage.canonical = u := by
  rw [decodeUsage, countOrZero_of_says h.input, countOrZero_of_says h.output,
    countOrZero_of_says h.cacheCreated, countOrZero_of_says h.cacheRead]

/-! ## The beginning of a message -/

variable {data : String} {role : Option String} {v m : Json}

/-- A record that begins a message with token counts. -/
structure BeginsWith (v : Json) (role : Option String) (usage : Json) : Prop where
  type : v.Has "type" (.string "message_start")
  message : ∃ m, v.Has "message" m ∧ SaysWord m "role" role ∧ m.Has "usage" usage

/-- The role of a message that begins. -/
def startRole (role : Option String) : Role := if role = some "user" then .user else .assistant

/-- The beginning of a message is read if its token counts are. -/
theorem event?_of_beginsWith (h : BeginsWith v role usage) :
    event? v = (eventUsage? usage).map fun u => some (.messageStart (startRole role) u) := by
  obtain ⟨htype, m, hmessage, hrole, husage⟩ := h
  obtain ⟨rest, htag, hunder⟩ := exists_of_has_tag htype
  have hmessage' := (hunder "message" (by decide)).trans hmessage
  obtain ⟨ms, rfl⟩ := exists_object (.inl ⟨_, husage⟩)
  have hrest : Json.recordMembers? ["message"] (.object rest) = some rest :=
    recordMembers?_one (.inl ⟨_, hmessage'⟩)
  have hms : Json.recordMembers? ["role", "usage"] (.object ms) = some ms :=
    recordMembers?_two (once_of_word hrole) (.inl ⟨_, husage⟩)
  rw [event?, htag]
  simp only [Option.bind_eq_bind, Option.bind_some, Json.text?, hrest, required?_of_has hmessage',
    messageStart?, hms, optional?_word hrole, optional?_of_has husage]
  cases eventUsage? usage <;> rfl

/-- A record in a frame that begins a message is the event with these counts, or it is malformed. -/
theorem readEvent_of_beginsWith (hread : Json.tree? data = some v) (h : BeginsWith v role usage) :
    readEvent data = match eventUsage? usage with
      | some u => .ok (some (.messageStart (startRole role) u))
      | none => .error (.malformed .anthropic .event data) := by
  rw [readEvent, hread, Option.bind_some, event?_of_beginsWith h]
  cases eventUsage? usage <;> rfl

/-! ## Both ways -/

variable {ids : CallIds} {body : Bytes} {reply : Reply} {value : Json}

/-- The same record of token counts in a body and at the beginning of a streamed message: the event
is read, with the counts of the reply, exactly if each count is a whole number of 64 bits or is left
out. With any other count the event is malformed, while the reply has been read with a zero. -/
theorem usages_agree_iff (hread : Json.readBytes? body = some value)
    (husage : value.get "usage" = (Json.object ms).canonical)
    (hreply : Provider.anthropic.decodeReply ids body = .ok reply)
    (htree : Json.tree? data = some v) (hbegins : BeginsWith v role (.object ms)) :
    (readEvent data = .ok (some (.messageStart (startRole role) reply.usage)) ↔
      IsCounted (.object ms)) ∧
    (¬ IsCounted (.object ms) → readEvent data = .error (.malformed .anthropic .event data)) := by
  obtain ⟨value', hvalue', -, hcounts⟩ := exists_of_decodeReply hreply
  obtain rfl : value' = value := Option.some.inj (hvalue'.symm.trans hread)
  rw [readEvent_of_beginsWith htree hbegins, ← exists_saysCounts_iff]
  cases hevent : eventUsage? (.object ms) with
  | none =>
    have hnot : ¬ ∃ u, SaysCounts (.object ms) u := fun ⟨u, hu⟩ => by
      rw [eventUsage?_eq_some_iff.2 hu] at hevent
      cases hevent
    exact ⟨iff_of_false nofun hnot, fun _ => rfl⟩
  | some u =>
    have hsays := eventUsage?_eq_some_iff.1 hevent
    rw [hcounts, husage, decodeUsage_of_says hsays]
    exact ⟨iff_of_true rfl ⟨u, hsays⟩, fun hnot => absurd ⟨u, hsays⟩ hnot⟩

/-! ### A count, and what is none -/

/-- Token counts with this one for the input. -/
def inputCount (count : Json) : Json := .object [("input_tokens", count)]

/-- A reply with these token counts. -/
def countedBody (count : Json) : Json := .object [("content", .string "Hi."),
  ("role", .string "assistant"), ("usage", inputCount count)]

/-- The beginning of a streamed message with these token counts. -/
def countedStart (count : Json) : Json := .object [("message", .object [
  ("role", .string "assistant"), ("usage", inputCount count)]), ("type", .string "message_start")]

theorem beginsWith_countedStart (count : Json) :
    BeginsWith (countedStart count) (some "assistant") (inputCount count) :=
  ⟨rfl, _, rfl, rfl, rfl⟩

theorem readBytes?_countedBody (count : Json)
    (hdepth : (countedBody count).depth ≤ Json.maxDepth)
    (hsame : (countedBody count).reread.canonical = countedBody count) :
    Json.readBytes? (Bytes.ofString (countedBody count).toText) = some (countedBody count) ∧
    Provider.anthropic.decodeReply .numbered (Bytes.ofString (countedBody count).toText)
      = .ok ⟨.ofText .assistant "Hi.", { input := count.count?.getD 0 }⟩ := by
  have hparse := Dialect.parseBody_toText .anthropic hdepth hsame
  refine ⟨Dialect.readBytes?_of_parseBody hparse, ?_⟩
  rw [Provider.decodeReply, decodeReply, hparse]
  rfl

theorem tree?_countedStart (count : Json) (hdepth : (countedStart count).depth ≤ Json.maxDepth)
    (hsame : (countedStart count).reread = countedStart count) :
    Json.tree? (countedStart count).toText = some (countedStart count) := by
  rw [Json.tree?_toText hdepth, hsame]

theorem usages_agree_iff_counted :
    Provider.anthropic.decodeReply .numbered (Bytes.ofString (countedBody (.ofCount 9)).toText)
      = .ok ⟨.ofText .assistant "Hi.", { input := 9 }⟩ ∧
    readEvent (countedStart (.ofCount 9)).toText
      = .ok (some (.messageStart .assistant { input := 9 })) := by
  obtain ⟨hread, hreply⟩ := readBytes?_countedBody (.ofCount 9) (by decide)
    (by decide +kernel)
  have htree := tree?_countedStart (.ofCount 9) (by decide) (by decide +kernel)
  have hcounted : IsCounted (inputCount (.ofCount 9)) :=
    exists_saysCounts_iff.1 ⟨{ input := 9 }, .inl rfl, .inr ⟨rfl, rfl⟩, .inr ⟨rfl, rfl⟩,
      .inr ⟨rfl, rfl⟩⟩
  exact ⟨hreply, (usages_agree_iff hread rfl hreply htree
    (beginsWith_countedStart (.ofCount 9))).1.2 hcounted⟩

/-- A count that is null is read as zero in a body, and is malformed in an event. -/
theorem usages_not_read_alike :
    ¬ ∀ (ids : CallIds) (body : Bytes) (value : Json) (reply : Reply) (data : String) (v : Json)
      (role : Option String) (ms : List (String × Json)),
      Json.readBytes? body = some value → value.get "usage" = (Json.object ms).canonical →
      Provider.anthropic.decodeReply ids body = .ok reply →
      Json.tree? data = some v → BeginsWith v role (.object ms) →
      readEvent data = .ok (some (.messageStart (startRole role) reply.usage)) := by
  intro halike
  obtain ⟨hread, hreply⟩ := readBytes?_countedBody .null (by decide) (by decide +kernel)
  have htree := tree?_countedStart .null (by decide) (by decide +kernel)
  have hbegins := beginsWith_countedStart .null
  have hstart := halike _ _ _ _ _ _ _ _ hread rfl hreply htree hbegins
  rw [readEvent_of_beginsWith htree hbegins] at hstart
  cases hstart

end Anthropic

end ChatWire
