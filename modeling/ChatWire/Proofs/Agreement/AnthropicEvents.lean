import ChatWire.Proofs.Json.Members
import ChatWire.Proofs.Stream.Transcript
import ChatWire.Proofs.Table
import ChatWire.Stream.AnthropicEvent
import Mathlib.Data.List.Basic

/-!
# What records in the Anthropic format say

A record says something by some of its members, in any order and among others. A member that counts
is there once, or it is left out where something else stands for it. `Anthropic.Says` is the list of
what a record can say; such a record is read as what it says (`Anthropic.event?_of_says`).
-/

namespace ChatWire

namespace Json

/-! ## Members of a record -/

/-- The values under a name in an object. -/
def under (name : String) : Json → Option (List Json)
  | .object members => some ((members.filter fun m => m.1 == name).map Prod.snd)
  | _ => none

variable {v x : Json} {ms : List (String × Json)} {name tag : String} {α : Type}
  {read : Json → Option α} {missing : α}

/-- A member that is there once. -/
def Has (v : Json) (name : String) (x : Json) : Prop := v.under name = some [x]

/-- A member that is not there. -/
def Lacks (v : Json) (name : String) : Prop := v.under name = some []

/-- What a reader finds under a name is the first of the values. -/
theorem find?_of_under {xs : List Json} (h : (object ms).under name = some xs) :
    (ms.find? fun m => m.1 == name).map Prod.snd = xs.head? := by
  rw [← List.head?_filter, ← List.head?_map, Option.some.inj h]

theorem required?_of_has (h : (object ms).Has name x) : required? ms name read = read x := by
  rw [required?, find?_of_under h]
  rfl

theorem optional?_of_has (h : (object ms).Has name x) :
    optional? ms name missing read = read x := by
  have hfind := find?_of_under h
  unfold optional?
  cases hm : ms.find? fun m => m.1 == name with
  | none => simp [hm] at hfind
  | some m =>
    obtain rfl : m.2 = x := by simpa [hm] using hfind
    rfl

theorem optional?_of_lacks (h : (object ms).Lacks name) :
    optional? ms name missing read = some missing := by
  have hfind := find?_of_under h
  unfold optional?
  cases hm : ms.find? fun m => m.1 == name with
  | none => rfl
  | some m => simp [hm] at hfind

/-- A record is read if each of the members that count is there at most once. -/
theorem recordMembers?_object {names : List String}
    (h : ∀ name ∈ names, (∃ x, (object ms).Has name x) ∨ (object ms).Lacks name) :
    recordMembers? names (object ms) = some ms := by
  have hcount : ∀ name ∈ names, (ms.filter fun m => m.1 == name).length ≤ 1 := by
    intro name hname
    rcases h name hname with ⟨x, hx⟩ | hnone
    · have hlength := congrArg List.length (Option.some.inj hx)
      rw [List.length_map] at hlength
      exact Nat.le_of_eq hlength
    · have hlength := congrArg List.length (Option.some.inj hnone)
      rw [List.length_map] at hlength
      exact (Nat.le_of_eq hlength).trans (Nat.zero_le 1)
  rw [recordMembers?, if_pos]
  exact List.all_eq_true.2 fun name hname => decide_eq_true (hcount name hname)

theorem recordMembers?_one (h : (∃ x, (object ms).Has name x) ∨ (object ms).Lacks name) :
    recordMembers? [name] (object ms) = some ms :=
  recordMembers?_object (List.forall_mem_singleton.2 h)

theorem recordMembers?_two {name' : String}
    (h : (∃ x, (object ms).Has name x) ∨ (object ms).Lacks name)
    (h' : (∃ x, (object ms).Has name' x) ∨ (object ms).Lacks name') :
    recordMembers? [name, name'] (object ms) = some ms :=
  recordMembers?_object (List.forall_mem_cons.2 ⟨h, List.forall_mem_singleton.2 h'⟩)

/-- Behind its tag a record has the other members. -/
theorem exists_of_has_tag (h : v.Has tag x) :
    ∃ rest, tagged? tag v = some (x, .object rest) ∧
      ∀ name, name ≠ tag → (object rest).under name = v.under name := by
  cases v with
  | object ms =>
    refine ⟨ms.filter fun m => m.1 != tag, ?_, fun name hname => ?_⟩
    · obtain ⟨⟨key, y⟩, hm, rfl⟩ := List.map_eq_singleton_iff.1 (Option.some.inj h)
      simp only [tagged?, hm]
    · have hfilter : (ms.filter fun m => m.1 != tag).filter (fun m => m.1 == name)
          = ms.filter fun m => m.1 == name := by
        rw [List.filter_filter]
        refine List.filter_congr fun m _ => ?_
        by_cases hm : m.1 = name
        · simp [hm, hname]
        · simp [hm]
      rw [under, under, hfilter]
  | _ => simp [Has, under] at h

/-! ### Canonical form -/

theorem canonicalMembers_eq_map (members : List (String × Json)) :
    canonicalMembers members = members.map fun m => (m.1, m.2.canonical) := by
  induction members with
  | nil => rw [canonicalMembers, List.map_nil]
  | cons m rest ih =>
    obtain ⟨key, v⟩ := m
    rw [canonicalMembers, ih, List.map_cons]

theorem canonical_string (s : String) : (string s).canonical = .string s := by
  simp [canonical]

/-- In canonical form a member that is there once is there. -/
theorem get?_canonical_of_has {v x : Json} {name : String} (h : v.Has name x) :
    v.canonical.get? name = some x.canonical := by
  cases v with
  | object members =>
    have hunder := Option.some.inj h
    obtain ⟨⟨key, y⟩, hone, rfl⟩ := List.map_eq_singleton_iff.1 hunder
    have hmem : (key, y) ∈ members.filter fun m => m.1 == name := by
      rw [hone]
      exact List.mem_singleton_self _
    obtain ⟨hmember, hkey⟩ := List.mem_filter.1 hmem
    obtain rfl : key = name := beq_iff_eq.1 hkey
    rw [canonical, get?, find?_key_eq, canonicalMembers_eq_map]
    refine Table.find?_ofList_of_mem (List.mem_map_of_mem hmember) fun e he hname => ?_
    obtain ⟨m, hm, rfl⟩ := List.mem_map.1 he
    have hsame : m ∈ members.filter fun m => m.1 == key :=
      List.mem_filter.2 ⟨hm, beq_iff_eq.2 hname⟩
    rw [hone, List.mem_singleton] at hsame
    rw [hsame]
  | _ => simp [Has, under] at h

theorem get?_canonical_of_lacks {v : Json} {name : String} (h : v.Lacks name) :
    v.canonical.get? name = none := by
  cases v with
  | object members =>
    have hunder := List.filter_eq_nil_iff.1 (List.map_eq_nil_iff.1 (Option.some.inj h))
    rw [canonical, get?, find?_key_eq, canonicalMembers_eq_map]
    refine Table.find?_ofList_eq_none fun e he hname => ?_
    obtain ⟨m, hm, rfl⟩ := List.mem_map.1 he
    exact hunder m hm (beq_iff_eq.2 hname)
  | _ => simp [Lacks, under] at h

end Json

namespace Anthropic

open Json (recordMembers?_object recordMembers?_one recordMembers?_two required?_of_has
  optional?_of_has optional?_of_lacks exists_of_has_tag)

/-! ## What a record can say -/

/-- A text, which may be left out when it is empty. -/
def SaysText (v : Json) (name s : String) : Prop :=
  v.Has name (.string s) ∨ s = "" ∧ v.Lacks name

/-- A count, which may be left out when it is zero. -/
def SaysCount (v : Json) (name : String) (n : UInt64) : Prop :=
  v.Has name (.ofCount n) ∨ n = 0 ∧ v.Lacks name

/-- A word, or none when it is null or left out. -/
def SaysWord (v : Json) (name : String) : Option String → Prop
  | some s => v.Has name (.string s)
  | none => v.Has name .null ∨ v.Lacks name

/-- Token counts. -/
structure SaysCounts (v : Json) (u : TokenUsage) : Prop where
  input : SaysCount v "input_tokens" u.input
  output : SaysCount v "output_tokens" u.output
  cacheCreated : SaysCount v "cache_creation_input_tokens" u.cacheCreated
  cacheRead : SaysCount v "cache_read_input_tokens" u.cacheRead

/-- The token counts of a record, which may be left out when they are zero. -/
def SaysUsage (v : Json) (u : TokenUsage) : Prop :=
  (∃ counts, v.Has "usage" counts ∧ SaysCounts counts u) ∨ u = {} ∧ v.Lacks "usage"

/-- What a block begins with. -/
inductive SaysOpening (v : Json) : Opening → Prop where
  | text {s : String} (htype : v.Has "type" (.string "text")) (htext : SaysText v "text" s) :
      SaysOpening v (.text s)
  | toolUse {id name : String} (htype : v.Has "type" (.string "tool_use"))
      (hid : v.Has "id" (.string id)) (hname : v.Has "name" (.string name)) :
      SaysOpening v (.toolCall id name)
  | thinking {s signature : String} (htype : v.Has "type" (.string "thinking"))
      (hthinking : SaysText v "thinking" s) (hsignature : SaysText v "signature" signature) :
      SaysOpening v (.thinking s signature)
  | redactedThinking {data : String} (htype : v.Has "type" (.string "redacted_thinking"))
      (hdata : v.Has "data" (.string data)) : SaysOpening v (.redactedThinking data)
  | unknown {kind : String} (htype : v.Has "type" (.string kind))
      (hkind : kind ∉ ["text", "tool_use", "thinking", "redacted_thinking"]) :
      SaysOpening v (.unknown "unknown")

/-- What a block grows by. -/
inductive SaysFragment (v : Json) : Fragment → Prop where
  | text {s : String} (htype : v.Has "type" (.string "text_delta"))
      (htext : v.Has "text" (.string s)) : SaysFragment v (.text s)
  | thinking {s : String} (htype : v.Has "type" (.string "thinking_delta"))
      (hthinking : v.Has "thinking" (.string s)) : SaysFragment v (.thinking s)
  | signature {s : String} (htype : v.Has "type" (.string "signature_delta"))
      (hsignature : v.Has "signature" (.string s)) : SaysFragment v (.signature s)
  | arguments {s : String} (htype : v.Has "type" (.string "input_json_delta"))
      (harguments : v.Has "partial_json" (.string s)) : SaysFragment v (.arguments s)
  | other {kind : String} (htype : v.Has "type" (.string kind))
      (hkind : kind ∉ ["text_delta", "thinking_delta", "signature_delta", "input_json_delta"]) :
      SaysFragment v (.other "unknown")

/-- What an event says, nothing when its type is unknown. Reports of errors are left out. -/
inductive Says (v : Json) : Option Event → Prop where
  | messageStart {m : Json} {usage : TokenUsage} (htype : v.Has "type" (.string "message_start"))
      (hmessage : v.Has "message" m) (hrole : m.Has "role" (.string "assistant"))
      (husage : SaysUsage m usage) : Says v (some (.messageStart .assistant usage))
  | blockStart {i : UInt64} {block : Json} {o : Opening}
      (htype : v.Has "type" (.string "content_block_start")) (hindex : v.Has "index" (.ofCount i))
      (hi : i.toNat < UInt32.size) (hblock : v.Has "content_block" block)
      (hopening : SaysOpening block o) : Says v (some (.blockStart i.toNat o))
  | blockDelta {i : UInt64} {delta : Json} {f : Fragment}
      (htype : v.Has "type" (.string "content_block_delta")) (hindex : v.Has "index" (.ofCount i))
      (hi : i.toNat < UInt32.size) (hdelta : v.Has "delta" delta)
      (hfragment : SaysFragment delta f) : Says v (some (.blockDelta i.toNat f))
  | blockStop {i : UInt64} (htype : v.Has "type" (.string "content_block_stop"))
      (hindex : v.Has "index" (.ofCount i)) (hi : i.toNat < UInt32.size) :
      Says v (some (.blockStop i.toNat))
  | messageDelta {delta : Json} {reason sequence : Option String} {usage : TokenUsage}
      (htype : v.Has "type" (.string "message_delta")) (hdelta : v.Has "delta" delta)
      (hreason : SaysWord delta "stop_reason" reason)
      (hsequence : SaysWord delta "stop_sequence" sequence) (husage : SaysUsage v usage) :
      Says v (some (.messageDelta reason sequence usage))
  | messageStop (htype : v.Has "type" (.string "message_stop")) : Says v (some .messageStop)
  | ping (htype : v.Has "type" (.string "ping")) : Says v (some .ping)
  | unknown {kind : String} (htype : v.Has "type" (.string kind))
      (hkind : kind ∉ ["message_start", "message_delta", "content_block_start",
        "content_block_delta", "content_block_stop", "message_stop", "ping", "error"]) :
      Says v none

/-! ## Reading what a record says -/

section Members

variable {ms : List (String × Json)} {v : Json} {name : String}

theorem SaysText.congr {v' : Json} {s : String} (h : SaysText v name s)
    (hsame : v'.under name = v.under name) : SaysText v' name s :=
  h.imp hsame.trans fun h => ⟨h.1, hsame.trans h.2⟩

theorem SaysUsage.congr {v' : Json} {u : TokenUsage} (h : SaysUsage v u)
    (hsame : v'.under "usage" = v.under "usage") : SaysUsage v' u :=
  h.imp (fun ⟨counts, h, hcounts⟩ => ⟨counts, hsame.trans h, hcounts⟩)
    fun h => ⟨h.1, hsame.trans h.2⟩

theorem once_of_text {s : String} (h : SaysText v name s) : (∃ x, v.Has name x) ∨ v.Lacks name :=
  h.imp (fun h => ⟨_, h⟩) And.right

theorem once_of_count {n : UInt64} (h : SaysCount v name n) : (∃ x, v.Has name x) ∨ v.Lacks name :=
  h.imp (fun h => ⟨_, h⟩) And.right

theorem once_of_word {s : Option String} (h : SaysWord v name s) :
    (∃ x, v.Has name x) ∨ v.Lacks name := by
  cases s with
  | some s => exact .inl ⟨_, h⟩
  | none => exact h.imp_left fun h => ⟨_, h⟩

theorem once_of_usage {u : TokenUsage} (h : SaysUsage v u) :
    (∃ x, v.Has "usage" x) ∨ v.Lacks "usage" :=
  h.imp (fun ⟨counts, h, _⟩ => ⟨counts, h⟩) And.right

theorem optional?_text {s : String} (h : SaysText (.object ms) name s) :
    Json.optional? ms name "" Json.text? = some s := by
  rcases h with h | ⟨rfl, h⟩
  · rw [optional?_of_has h]
    rfl
  · exact optional?_of_lacks h

theorem optional?_count {n : UInt64} (h : SaysCount (.object ms) name n) :
    Json.optional? ms name 0 Json.count? = some n := by
  rcases h with h | ⟨rfl, h⟩
  · rw [optional?_of_has h]
    rfl
  · exact optional?_of_lacks h

theorem optional?_word {s : Option String} (h : SaysWord (.object ms) name s) :
    Json.optional? ms name none (Json.nullable Json.text?) = some s := by
  cases s with
  | some s =>
    rw [optional?_of_has h]
    rfl
  | none =>
    rcases h with h | h
    · rw [optional?_of_has h]
      rfl
    · exact optional?_of_lacks h

theorem exists_object (h : (∃ x, v.Has name x) ∨ v.Lacks name) : ∃ ms, v = .object ms := by
  cases v with
  | object ms => exact ⟨ms, rfl⟩
  | _ => simp [Json.Has, Json.Lacks, Json.under] at h

theorem eventUsage?_of_says {u : TokenUsage} (h : SaysCounts v u) : eventUsage? v = some u := by
  obtain ⟨hinput, houtput, hcreated, hread⟩ := h
  obtain ⟨ms, rfl⟩ := exists_object (once_of_count hinput)
  have hms : Json.recordMembers? ["input_tokens", "output_tokens", "cache_creation_input_tokens",
      "cache_read_input_tokens"] (.object ms) = some ms := by
    refine recordMembers?_object ?_
    simp only [List.forall_mem_cons, List.not_mem_nil, false_implies, implies_true, and_true]
    exact ⟨once_of_count hinput, once_of_count houtput, once_of_count hcreated,
      once_of_count hread⟩
  rw [eventUsage?, hms]
  simp only [Option.bind_eq_bind, Option.bind_some, optional?_count hinput, optional?_count houtput,
    optional?_count hcreated, optional?_count hread]
  rfl

theorem optional?_usage {u : TokenUsage} (h : SaysUsage (.object ms) u) :
    Json.optional? ms "usage" {} eventUsage? = some u := by
  rcases h with ⟨counts, h, hcounts⟩ | ⟨rfl, h⟩
  · rw [optional?_of_has h]
    exact eventUsage?_of_says hcounts
  · exact optional?_of_lacks h

theorem messageStart?_of_says {u : TokenUsage} (hrole : v.Has "role" (.string "assistant"))
    (husage : SaysUsage v u) : messageStart? v = some (.messageStart .assistant u) := by
  obtain ⟨ms, rfl⟩ := exists_object (.inl ⟨_, hrole⟩)
  have hms : Json.recordMembers? ["role", "usage"] (.object ms) = some ms :=
    recordMembers?_two (.inl ⟨_, hrole⟩) (once_of_usage husage)
  have hword : SaysWord (.object ms) "role" (some "assistant") := hrole
  rw [messageStart?, hms]
  simp only [Option.bind_eq_bind, Option.bind_some, optional?_word hword, optional?_usage husage]
  rfl

theorem stopInfo?_of_says {reason sequence : Option String}
    (hreason : SaysWord v "stop_reason" reason) (hsequence : SaysWord v "stop_sequence" sequence) :
    stopInfo? v = some (reason, sequence) := by
  obtain ⟨ms, rfl⟩ := exists_object (once_of_word hreason)
  have hms : Json.recordMembers? ["stop_reason", "stop_sequence"] (.object ms) = some ms :=
    recordMembers?_two (once_of_word hreason) (once_of_word hsequence)
  rw [stopInfo?, hms]
  simp only [Option.bind_eq_bind, Option.bind_some, optional?_word hreason,
    optional?_word hsequence]
  rfl

theorem opening?_of_says {o : Opening} (h : SaysOpening v o) : opening? v = some o := by
  cases h with
  | text htype htext =>
    obtain ⟨rest, htag, hunder⟩ := exists_of_has_tag htype
    have htext' := htext.congr (hunder "text" (by decide))
    have hms : Json.recordMembers? ["text"] (.object rest) = some rest :=
      recordMembers?_one (once_of_text htext')
    rw [opening?, htag]
    simp only [Option.bind_eq_bind, Option.bind_some, innerTag?, hms, optional?_text htext']
    rfl
  | toolUse htype hid hname =>
    obtain ⟨rest, htag, hunder⟩ := exists_of_has_tag htype
    have hid' := (hunder "id" (by decide)).trans hid
    have hname' := (hunder "name" (by decide)).trans hname
    have hms : Json.recordMembers? ["id", "name"] (.object rest) = some rest :=
      recordMembers?_two (.inl ⟨_, hid'⟩) (.inl ⟨_, hname'⟩)
    rw [opening?, htag]
    simp only [Option.bind_eq_bind, Option.bind_some, innerTag?, hms, required?_of_has hid',
      required?_of_has hname', Json.text?]
    rfl
  | thinking htype hthinking hsignature =>
    obtain ⟨rest, htag, hunder⟩ := exists_of_has_tag htype
    have hthinking' := hthinking.congr (hunder "thinking" (by decide))
    have hsignature' := hsignature.congr (hunder "signature" (by decide))
    have hms : Json.recordMembers? ["thinking", "signature"] (.object rest) = some rest :=
      recordMembers?_two (once_of_text hthinking') (once_of_text hsignature')
    rw [opening?, htag]
    simp only [Option.bind_eq_bind, Option.bind_some, innerTag?, hms, optional?_text hthinking',
      optional?_text hsignature']
    rfl
  | redactedThinking htype hdata =>
    obtain ⟨rest, htag, hunder⟩ := exists_of_has_tag htype
    have hdata' := (hunder "data" (by decide)).trans hdata
    have hms : Json.recordMembers? ["data"] (.object rest) = some rest :=
      recordMembers?_one (.inl ⟨_, hdata'⟩)
    rw [opening?, htag]
    simp only [Option.bind_eq_bind, Option.bind_some, innerTag?, hms, required?_of_has hdata',
      Json.text?]
    rfl
  | unknown htype hkind =>
    obtain ⟨rest, htag, -⟩ := exists_of_has_tag htype
    have hms : Json.recordMembers? [] (.object rest) = some rest := rfl
    rw [opening?, htag]
    simp only [Option.bind_eq_bind, Option.bind_some, innerTag?, hms]
    split
    case h_5 => rfl
    all_goals simp at hkind

theorem fragmentText_of_has {rest : List (String × Json)} {s : String}
    (h : (Json.object rest).Has name (.string s)) :
    ((Json.recordMembers? [name] (.object rest)).bind fun ms => Json.required? ms name Json.text?)
      = some s := by
  have hms : Json.recordMembers? [name] (.object rest) = some rest :=
    recordMembers?_one (.inl ⟨_, h⟩)
  rw [hms, Option.bind_some, required?_of_has h]
  rfl

theorem fragment?_of_says {f : Fragment} (h : SaysFragment v f) : fragment? v = some f := by
  cases h with
  | text htype htext =>
    obtain ⟨rest, htag, hunder⟩ := exists_of_has_tag htype
    have hone := fragmentText_of_has ((hunder "text" (by decide)).trans htext)
    rw [fragment?, htag]
    simp only [Option.bind_eq_bind, Option.bind_some, innerTag?, hone]
    rfl
  | thinking htype hthinking =>
    obtain ⟨rest, htag, hunder⟩ := exists_of_has_tag htype
    have hone := fragmentText_of_has ((hunder "thinking" (by decide)).trans hthinking)
    rw [fragment?, htag]
    simp only [Option.bind_eq_bind, Option.bind_some, innerTag?, hone]
    rfl
  | signature htype hsignature =>
    obtain ⟨rest, htag, hunder⟩ := exists_of_has_tag htype
    have hone := fragmentText_of_has ((hunder "signature" (by decide)).trans hsignature)
    rw [fragment?, htag]
    simp only [Option.bind_eq_bind, Option.bind_some, innerTag?, hone]
    rfl
  | arguments htype harguments =>
    obtain ⟨rest, htag, hunder⟩ := exists_of_has_tag htype
    have hone := fragmentText_of_has ((hunder "partial_json" (by decide)).trans harguments)
    rw [fragment?, htag]
    simp only [Option.bind_eq_bind, Option.bind_some, innerTag?, hone]
    rfl
  | other htype hkind =>
    obtain ⟨rest, htag, -⟩ := exists_of_has_tag htype
    have hms : Json.recordMembers? [] (.object rest) = some rest := rfl
    rw [fragment?, htag]
    simp only [Option.bind_eq_bind, Option.bind_some, innerTag?, hms]
    split
    case h_5 => rfl
    all_goals simp at hkind

theorem required?_index {i : UInt64} (hindex : (Json.object ms).Has "index" (.ofCount i))
    (hi : i.toNat < UInt32.size) : Json.required? ms "index" index? = some i.toNat := by
  rw [required?_of_has hindex, index?]
  exact Option.filter_eq_some_iff.2 ⟨rfl, decide_eq_true hi⟩

/-- A record is read as what it says. -/
theorem event?_of_says {e : Option Event} (h : Says v e) : event? v = some e := by
  cases h with
  | messageStart htype hmessage hrole husage =>
    obtain ⟨rest, htag, hunder⟩ := exists_of_has_tag htype
    have hmessage' := (hunder "message" (by decide)).trans hmessage
    have hms : Json.recordMembers? ["message"] (.object rest) = some rest :=
      recordMembers?_one (.inl ⟨_, hmessage'⟩)
    rw [event?, htag]
    simp only [Option.bind_eq_bind, Option.bind_some, Json.text?, hms, required?_of_has hmessage',
      messageStart?_of_says hrole husage]
    rfl
  | blockStart htype hindex hi hblock hopening =>
    obtain ⟨rest, htag, hunder⟩ := exists_of_has_tag htype
    have hindex' := (hunder "index" (by decide)).trans hindex
    have hblock' := (hunder "content_block" (by decide)).trans hblock
    have hms : Json.recordMembers? ["index", "content_block"] (.object rest) = some rest :=
      recordMembers?_two (.inl ⟨_, hindex'⟩) (.inl ⟨_, hblock'⟩)
    rw [event?, htag]
    simp only [Option.bind_eq_bind, Option.bind_some, Json.text?, hms, required?_index hindex' hi,
      required?_of_has hblock', opening?_of_says hopening]
    rfl
  | blockDelta htype hindex hi hdelta hfragment =>
    obtain ⟨rest, htag, hunder⟩ := exists_of_has_tag htype
    have hindex' := (hunder "index" (by decide)).trans hindex
    have hdelta' := (hunder "delta" (by decide)).trans hdelta
    have hms : Json.recordMembers? ["index", "delta"] (.object rest) = some rest :=
      recordMembers?_two (.inl ⟨_, hindex'⟩) (.inl ⟨_, hdelta'⟩)
    rw [event?, htag]
    simp only [Option.bind_eq_bind, Option.bind_some, Json.text?, hms, required?_index hindex' hi,
      required?_of_has hdelta', fragment?_of_says hfragment]
    rfl
  | blockStop htype hindex hi =>
    obtain ⟨rest, htag, hunder⟩ := exists_of_has_tag htype
    have hindex' := (hunder "index" (by decide)).trans hindex
    have hms : Json.recordMembers? ["index"] (.object rest) = some rest :=
      recordMembers?_one (.inl ⟨_, hindex'⟩)
    rw [event?, htag]
    simp only [Option.bind_eq_bind, Option.bind_some, Json.text?, hms, required?_index hindex' hi]
    rfl
  | messageDelta htype hdelta hreason hsequence husage =>
    obtain ⟨rest, htag, hunder⟩ := exists_of_has_tag htype
    have hdelta' := (hunder "delta" (by decide)).trans hdelta
    have husage' := husage.congr (hunder "usage" (by decide))
    have hms : Json.recordMembers? ["delta", "usage"] (.object rest) = some rest :=
      recordMembers?_two (.inl ⟨_, hdelta'⟩) (once_of_usage husage')
    rw [event?, htag]
    simp only [Option.bind_eq_bind, Option.bind_some, Json.text?, hms, optional?_of_has hdelta',
      stopInfo?_of_says hreason hsequence, optional?_usage husage']
    rfl
  | messageStop htype =>
    obtain ⟨rest, htag, -⟩ := exists_of_has_tag htype
    rw [event?, htag]
    rfl
  | ping htype =>
    obtain ⟨rest, htag, -⟩ := exists_of_has_tag htype
    rw [event?, htag]
    rfl
  | unknown htype hkind =>
    obtain ⟨rest, htag, -⟩ := exists_of_has_tag htype
    have hms : Json.recordMembers? [] (.object rest) = some rest := rfl
    rw [event?, htag]
    simp only [Option.bind_eq_bind, Option.bind_some, Json.text?, hms]
    split
    case h_9 => rfl
    all_goals simp at hkind

end Members

end Anthropic

end ChatWire
