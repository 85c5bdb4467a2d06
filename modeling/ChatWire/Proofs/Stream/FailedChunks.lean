import ChatWire.Proofs.Agreement.Basic
import ChatWire.Proofs.Json.Members
import ChatWire.Proofs.Json.Reprint
import ChatWire.Proofs.Message.Counts

/-!
# What a failed chunk leaves behind

A translation that fails has nothing to undo its steps with. A chunk that is no JSON fails before
anything is done. But where a chunk holds entries (pieces of tool calls, or parts) and one of them
is malformed, what stands before it has been taken by then: it stays taken, and its events are lost.
From then on the translation does as if the chunk had been cut off in front of the malformed entry
(`Translation.failed_chunk_leaves_lead`). An overflow is no failure in this sense: it stops the
program, and nothing is asked of the translation any more.
-/

namespace ChatWire

namespace Step

variable {σ α : Type} {first second third : Step σ} {s s' : σ} {e : Error}

/-! ## Steps that fail -/

/-- The step never fails. -/
def Succeeds (step : Step σ) : Prop := ∀ s, ∃ s' events, step s = (s', .ok events)

@[simp] theorem succeeds_emit (f : σ → σ × List Event) : Succeeds (emit f) :=
  fun _ => ⟨_, _, rfl⟩

@[simp] theorem succeeds_update (f : σ → σ) : Succeeds (update f) := fun _ => ⟨_, _, rfl⟩

@[simp] theorem succeeds_skip : Succeeds (skip : Step σ) := succeeds_update id

theorem Succeeds.andThen (hfirst : Succeeds first) (hsecond : Succeeds second) :
    Succeeds (first.andThen second) := by
  intro s
  obtain ⟨t, early, ht⟩ := hfirst s
  obtain ⟨t', late, ht'⟩ := hsecond t
  exact ⟨t', early ++ late, andThen_eq_ok ht ht'⟩

theorem succeeds_sequence {steps : List (Step σ)} (h : ∀ step ∈ steps, Succeeds step) :
    Succeeds (sequence steps) := by
  induction steps with
  | nil => exact succeeds_skip
  | cons step rest ih =>
    rw [List.forall_mem_cons] at h
    exact h.1.andThen (ih h.2)

theorem Succeeds.ne_error (h : Succeeds first) (s : σ) : first s ≠ (s', .error e) := by
  obtain ⟨t, events, ht⟩ := h s
  rw [ht]
  exact nofun

/-- Where the step fails, it comes to an overflow. -/
def OnlyOverflows (step : Step σ) : Prop := ∀ s s' e, step s = (s', .error e) → e = .overflow

theorem Succeeds.onlyOverflows (h : Succeeds first) : OnlyOverflows first :=
  fun s _ _ hs => absurd hs (h.ne_error s)

/-- Where the step fails, it leaves the state as it was. -/
def FailsInPlace (step : Step σ) : Prop := ∀ s s' e, step s = (s', .error e) → s' = s

theorem Succeeds.failsInPlace (h : Succeeds first) : FailsInPlace first :=
  fun s _ _ hs => absurd hs (h.ne_error s)

theorem failsInPlace_fail : FailsInPlace (fail e : Step σ) := by
  intro s s' e' hs
  cases hs
  rfl

theorem failsInPlace_choose {f : σ → Step σ} (h : ∀ s, FailsInPlace (f s)) :
    FailsInPlace (choose f) := fun s => h s s

theorem andThen_eq_error_iff : first.andThen second s = (s', .error e) ↔
    first s = (s', .error e) ∨
    ∃ t early, first s = (t, .ok early) ∧ second t = (s', .error e) := by
  unfold andThen
  rcases hfirst : first s with ⟨t, _ | early⟩
  · simp
  · rcases hsecond : second t with ⟨t', _ | late⟩ <;> simp [hsecond]

theorem OnlyOverflows.andThen (hfirst : OnlyOverflows first) (hsecond : OnlyOverflows second) :
    OnlyOverflows (first.andThen second) := by
  intro s s' e hs
  rcases andThen_eq_error_iff.1 hs with hs | ⟨t, _, -, ht⟩
  · exact hfirst s s' e hs
  · exact hsecond t s' e ht

theorem FailsInPlace.andThen (hfirst : FailsInPlace first) (hsecond : Succeeds second) :
    FailsInPlace (first.andThen second) := by
  intro s s' e hs
  rcases andThen_eq_error_iff.1 hs with hs | ⟨t, _, -, ht⟩
  · exact hfirst s s' e hs
  · exact absurd ht (hsecond.ne_error t)

theorem andThen_assoc : (first.andThen second).andThen third
    = first.andThen (second.andThen third) := by
  funext s
  unfold andThen
  rcases first s with ⟨t, _ | early⟩
  · rfl
  · dsimp only
    rcases second t with ⟨t', _ | middle⟩
    · rfl
    · dsimp only
      rcases third t' with ⟨t'', _ | late⟩
      · rfl
      · simp only [List.append_assoc]

theorem andThen_skip : first.andThen skip = first := by
  funext s
  unfold andThen
  rcases first s with ⟨t, _ | early⟩
  · rfl
  · simp [skip, update]

/-- Behind a guard that lets it pass, a step that never fails succeeds. -/
theorem exists_eq_ok_of_guard {refused : σ → Bool} (hstep : Succeeds first)
    (h : refused s = false) :
    ∃ s' events, choose (fun s => if refused s then fail e else first) s = (s', .ok events) := by
  simp only [choose, h, Bool.false_eq_true, if_false]
  exact hstep s

/-- Of several steps that fail in place, the first one that fails leaves the state as the ones in
front of it have left it. -/
theorem exists_take_of_sequence_eq_error {f : α → Step σ} (hf : ∀ x, FailsInPlace (f x))
    {xs : List α} (h : sequence (xs.map f) s = (s', .error e)) :
    ∃ n lost, sequence ((xs.take n).map f) s = (s', .ok lost) ∧
      sequence ((xs.take (n + 1)).map f) s = (s', .error e) := by
  induction xs generalizing s with
  | nil => cases h
  | cons x rest ih =>
    rw [List.map_cons, sequence] at h
    rcases andThen_eq_error_iff.1 h with hx | ⟨t, early, hx, hrest⟩
    · -- `x` itself fails, with nothing taken in front of it
      obtain rfl := hf x s s' e hx
      exact ⟨0, [], rfl, andThen_eq_error_iff.2 (.inl hx)⟩
    · obtain ⟨n, lost, hlead, hfails⟩ := ih hrest
      exact ⟨n + 1, early ++ lost, andThen_eq_ok hx hlead,
        andThen_eq_error_iff.2 (.inr ⟨t, early, hx, hfails⟩)⟩

/-- The same behind a step that does not overflow and in front of one that never fails. -/
theorem exists_take_of_eq_error {f : α → Step σ} {xs : List α} (hfirst : OnlyOverflows first)
    (hf : ∀ x, FailsInPlace (f x)) (hlast : Succeeds second) (he : e ≠ .overflow)
    (h : first.andThen ((sequence (xs.map f)).andThen second) s = (s', .error e)) :
    ∃ n lost, first.andThen (sequence ((xs.take n).map f)) s = (s', .ok lost) ∧
      first.andThen (sequence ((xs.take (n + 1)).map f)) s = (s', .error e) := by
  obtain ⟨t, early, ht, hbehind⟩ := (andThen_eq_error_iff.1 h).resolve_left fun hs =>
    he (hfirst s s' e hs)
  have hentries : sequence (xs.map f) t = (s', .error e) := by
    rcases andThen_eq_error_iff.1 hbehind with hentries | ⟨t', _, -, hs⟩
    · exact hentries
    · exact absurd hs (hlast.ne_error t')
  obtain ⟨n, lost, hlead, hfails⟩ := exists_take_of_sequence_eq_error hf hentries
  exact ⟨n, early ++ lost, andThen_eq_ok ht hlead,
    andThen_eq_error_iff.2 (.inr ⟨t, early, ht, hfails⟩)⟩

end Step

/-! ## A chunk that is cut off -/

namespace Json

/-- An object without the members of these names. -/
def without (names : List String) : Json → Json
  | .object members => .object (members.filter fun m => !names.contains m.1)
  | v => v

theorem get?_without_of_mem (v : Json) {names : List String} {name : String} (h : name ∈ names) :
    (v.without names).get? name = none := by
  cases v with
  | object members =>
    rw [without, get?, Option.map_eq_none_iff, List.find?_filter, List.find?_eq_none]
    rintro m - hm
    obtain ⟨hnot, rfl⟩ : m.1 ∉ names ∧ m.1 = name := by simpa using hm
    exact hnot h
  | _ => rfl

theorem get?_without_of_notMem (v : Json) {names : List String} {name : String}
    (h : name ∉ names) : (v.without names).get? name = v.get? name := by
  cases v with
  | object members =>
    rw [without, get?, get?, List.find?_filter]
    congr 2
    funext m
    by_cases hm : m.1 = name <;> simp_all
  | _ => rfl

end Json

/-- Where a format has the entries of its chunks: in a list inside the first element of an array. -/
structure EntryPlace where
  /-- The array. -/
  outer : String
  /-- The member of its first element that holds the list. -/
  inner : String
  /-- The list. -/
  list : String
  /-- The members of the first element that say why the message ends. -/
  ends : List String

namespace EntryPlace

variable (place : EntryPlace) (n : Nat) {chunk choice : Json} {name : String}

/-- The first element of the array. -/
def choice? (chunk : Json) : Option Json := (chunk.get place.outer).first?

/-- The entries in an element of the array. -/
def entries (choice : Json) : List Json :=
  ((choice.get place.inner).get place.list).elements?.getD []

/-- An element of the array, cut off behind `n` entries. -/
def cut (choice : Json) : Json :=
  (choice.set place.inner ((choice.get place.inner).set place.list
    (.array ((place.entries choice).take n)))).without place.ends

/-- The part of a chunk in front of the entry with the number `n`: the chunk with the entries before
that one, and without a word for the end. -/
def lead (chunk : Json) : Json :=
  match place.choice? chunk with
  | some choice => chunk.set place.outer (.array [place.cut n choice])
  | none => chunk

theorem get?_lead_of_ne (h : name ≠ place.outer) :
    (place.lead n chunk).get? name = chunk.get? name := by
  unfold lead
  split
  · exact Json.get?_set_of_ne chunk h _
  · rfl

theorem choice?_lead (h : place.choice? chunk = some choice) :
    place.choice? (place.lead n chunk) = some (place.cut n choice) := by
  rw [lead, h]
  cases chunk with
  | object members =>
    dsimp only
    rw [choice?, Json.get_set_self]
    rfl
  | _ => cases h

theorem get?_cut_of_mem (h : name ∈ place.ends) : (place.cut n choice).get? name = none :=
  Json.get?_without_of_mem _ h

theorem get_inner_cut (hends : place.inner ∉ place.ends) (hentries : place.entries choice ≠ []) :
    (place.cut n choice).get place.inner = (choice.get place.inner).set place.list
      (.array ((place.entries choice).take n)) := by
  cases choice with
  | object members =>
    rw [cut, Json.get, Json.get?_without_of_notMem _ hends, Json.get?_set_self, Option.getD_some]
  | _ => exact absurd rfl hentries

theorem get?_get_inner_cut (hends : place.inner ∉ place.ends)
    (hentries : place.entries choice ≠ []) (h : name ≠ place.list) :
    ((place.cut n choice).get place.inner).get? name = (choice.get place.inner).get? name := by
  rw [get_inner_cut place n hends hentries, Json.get?_set_of_ne _ h]

theorem entries_cut (hends : place.inner ∉ place.ends) (hentries : place.entries choice ≠ []) :
    place.entries (place.cut n choice) = (place.entries choice).take n := by
  rw [entries, get_inner_cut place n hends hentries]
  cases hinner : choice.get place.inner with
  | object members =>
    rw [Json.get_set_self]
    rfl
  | _ =>
    rw [entries, hinner] at hentries
    exact absurd rfl hentries

end EntryPlace

theorem Chunk.failure?_congr {chunk other : Json} (h : chunk.get? "error" = other.get? "error") :
    Chunk.failure? chunk = Chunk.failure? other := by
  rw [Chunk.failure?, Chunk.failure?, Json.present?, Json.present?, h]

namespace EntryPlace

open Step

variable {σ : Type} {place : EntryPlace} {addChunk addEntry closing : Json → Step σ}
  {opening : Json → Json → Step σ} {chunk choice : Json} {s s' : σ} {e : Error}

/-- A chunk is taken in the order in which it is written: what it has before its entries, its
entries one by one, and the word for the end. But for an overflow of its counts, only an entry can
fail, before it has done anything. -/
structure IsOrderOf (place : EntryPlace) (addChunk addEntry closing : Json → Step σ)
    (opening : Json → Json → Step σ) : Prop where
  outer_ne : "error" ≠ place.outer
  inner_notMem : place.inner ∉ place.ends
  opening_onlyOverflows : ∀ chunk choice, OnlyOverflows (opening chunk choice)
  entry_failsInPlace : ∀ entry, FailsInPlace (addEntry entry)
  closing_succeeds : ∀ choice, Succeeds (closing choice)
  /-- A chunk with entries. -/
  chunk_eq : ∀ {chunk choice}, Chunk.failure? chunk = none → place.choice? chunk = some choice →
    addChunk chunk = (opening chunk choice).andThen
      ((sequence ((place.entries choice).map addEntry)).andThen (closing choice))
  /-- A chunk without entries. -/
  chunk_onlyOverflows : ∀ {chunk}, Chunk.failure? chunk ≠ none ∨ place.choice? chunk = none →
    OnlyOverflows (addChunk chunk)
  /-- What stands before the entries is left alone when they are cut off. -/
  opening_lead : ∀ n {chunk choice}, place.entries choice ≠ [] →
    opening (place.lead n chunk) (place.cut n choice) = opening chunk choice
  closing_cut : ∀ n choice, closing (place.cut n choice) = skip

namespace IsOrderOf

variable (h : place.IsOrderOf addChunk addEntry closing opening)

include h

/-- The part of a chunk in front of an entry does what the chunk does up to there. -/
theorem lead_eq (hfailure : Chunk.failure? chunk = none)
    (hchoice : place.choice? chunk = some choice) (hentries : place.entries choice ≠ []) (n : Nat) :
    addChunk (place.lead n chunk) = (opening chunk choice).andThen
      (sequence (((place.entries choice).take n).map addEntry)) := by
  have hfailure' : Chunk.failure? (place.lead n chunk) = none := by
    rw [Chunk.failure?_congr (place.get?_lead_of_ne n h.outer_ne), hfailure]
  rw [h.chunk_eq hfailure' (place.choice?_lead n hchoice), h.opening_lead n hentries,
    h.closing_cut n choice, andThen_skip, place.entries_cut n h.inner_notMem hentries]

/-- A chunk that fails leaves the state as the part of it in front of some entry leaves it. -/
theorem exists_lead (he : e ≠ .overflow) (hs : addChunk chunk s = (s', .error e)) :
    ∃ n lost, addChunk (place.lead n chunk) s = (s', .ok lost) ∧
      addChunk (place.lead (n + 1) chunk) s = (s', .error e) := by
  by_cases hplain : Chunk.failure? chunk ≠ none ∨ place.choice? chunk = none
  · exact absurd (h.chunk_onlyOverflows hplain s s' e hs) he
  obtain ⟨hfailure, hsome⟩ := not_or.1 hplain
  rw [not_not] at hfailure
  obtain ⟨choice, hchoice⟩ := Option.ne_none_iff_exists'.1 hsome
  rw [h.chunk_eq hfailure hchoice] at hs
  obtain ⟨n, lost, hlead, hfails⟩ := exists_take_of_eq_error
    (h.opening_onlyOverflows chunk choice) h.entry_failsInPlace (h.closing_succeeds choice) he hs
  have hentries : place.entries choice ≠ [] := by
    -- without entries nothing is left that could fail
    intro hnil
    rw [hnil, List.take_nil, List.map_nil, Step.sequence, andThen_skip] at hfails
    exact he (h.opening_onlyOverflows chunk choice s s' e hfails)
  refine ⟨n, lost, ?_, ?_⟩
  · rw [h.lead_eq hfailure hchoice hentries, hlead]
  · rw [h.lead_eq hfailure hchoice hentries, hfails]

end IsOrderOf

end EntryPlace

/-! ## Pieces of tool calls -/

namespace OpenAI

open Step

/-- The pieces of tool calls in a chunk. -/
def entryPlace : EntryPlace := ⟨"choices", "delta", "tool_calls", ["finish_reason"]⟩

namespace StreamState

variable {chunk choice piece : Json} {s s' : StreamState} {e : Error}

/-- What a chunk has before its pieces of tool calls. -/
def addOpening (chunk choice : Json) : Step StreamState :=
  .sequence [start, noteUsage chunk, addText ((choice.get "delta").textOrEmpty "content"),
    addRefusal ((choice.get "delta").textOrEmpty "refusal")]

theorem noteUsage_succeeds (chunk : Json) : Succeeds (noteUsage chunk) := by
  unfold noteUsage
  split <;> simp

/-- The first piece of a tool call fails if it bears no id, and then no block has been opened. -/
theorem addCall_failsInPlace (piece : Json) : FailsInPlace (addCall piece) := by
  have harguments (position : Nat) (text : String) : Succeeds (addArguments position text) := by
    unfold addArguments
    split <;> simp
  refine FailsInPlace.andThen (failsInPlace_choose fun s => ?_) (harguments _ _)
  split
  · exact succeeds_skip.failsInPlace
  · split
    · exact failsInPlace_fail
    · exact (succeeds_emit _).failsInPlace

theorem addChunk_succeeds (h : Chunk.failure? chunk ≠ none ∨ entryPlace.choice? chunk = none) :
    Succeeds (addChunk chunk) := by
  unfold addChunk
  split
  case h_1 => exact succeeds_emit _
  case h_2 hfailure =>
    have hchoice : (chunk.get "choices").first? = none := h.resolve_left (not_not.2 hfailure)
    rw [hchoice]
    exact (succeeds_emit _).andThen ((noteUsage_succeeds chunk).andThen
      (succeeds_skip.andThen succeeds_skip))

theorem addOpening_lead (n : Nat) (hentries : entryPlace.entries choice ≠ []) :
    addOpening (entryPlace.lead n chunk) (entryPlace.cut n choice) = addOpening chunk choice := by
  have htext (name : String) (h : name ≠ "tool_calls") :
      ((entryPlace.cut n choice).get "delta").textOrEmpty name
        = (choice.get "delta").textOrEmpty name :=
    congrArg (fun v => (v.getD .null).text?.getD "")
      (entryPlace.get?_get_inner_cut n (by decide) hentries h)
  have husage : noteUsage (entryPlace.lead n chunk) = noteUsage chunk := by
    rw [noteUsage, noteUsage, Json.present?, Json.present?,
      entryPlace.get?_lead_of_ne n (by decide)]
  rw [addOpening, addOpening, husage, htext "content" (by decide), htext "refusal" (by decide)]

theorem noteFinish_cut (n : Nat) (choice : Json) : noteFinish (entryPlace.cut n choice) = skip := by
  have hword : (entryPlace.cut n choice).get? "finish_reason" = none :=
    entryPlace.get?_cut_of_mem n (by decide)
  rw [noteFinish, Json.get, hword]
  rfl

theorem isOrderOf_addChunk : entryPlace.IsOrderOf addChunk addCall noteFinish addOpening where
  outer_ne := by decide
  inner_notMem := by decide
  opening_onlyOverflows chunk choice := by
    refine (succeeds_sequence ?_).onlyOverflows
    simp only [List.forall_mem_cons]
    refine ⟨succeeds_emit _, noteUsage_succeeds chunk, ?_, succeeds_update _, nofun⟩
    unfold addText
    split <;> simp
  entry_failsInPlace := addCall_failsInPlace
  closing_succeeds choice := by
    unfold noteFinish
    split <;> simp
  chunk_eq hfailure hchoice := by
    rw [EntryPlace.choice?, entryPlace] at hchoice
    simp only [addChunk, hfailure, hchoice, addChoice, addOpening, EntryPlace.entries, entryPlace,
      Step.sequence, andThen_assoc, andThen_skip]
  chunk_onlyOverflows h := (addChunk_succeeds h).onlyOverflows
  opening_lead n _ _ hentries := addOpening_lead n hentries
  closing_cut := noteFinish_cut

theorem exists_finish_eq_ok (hterminal : s.envelope.terminal = true) :
    ∃ s' events, finish s = (s', .ok events) :=
  exists_eq_ok_of_guard ((succeeds_emit _).andThen (succeeds_emit _))
    (by simp [Envelope.isTruncated, hterminal])

/-- The end mark never fails, and other data that is no JSON fails before anything is done. -/
theorem step_failsInPlace {frame : Frame} (hread : Json.read? frame.data = none) :
    FailsInPlace (step frame) := by
  unfold step
  split
  · -- the mark itself is what the end of the stream looks for
    refine Succeeds.failsInPlace fun s => ?_
    rw [update_andThen]
    exact exists_finish_eq_ok rfl
  · rw [Chunk.parse, hread]
    exact failsInPlace_fail

end StreamState

end OpenAI

/-! ## Parts -/

namespace Gemini

open Step

/-- The parts in a chunk. -/
def entryPlace : EntryPlace :=
  ⟨"candidates", "content", "parts", ["finish_reason", "finishReason"]⟩

namespace StreamState

variable {chunk choice : Json}

/-- What a chunk has before its parts. -/
def addOpening (chunk _ : Json) : Step StreamState := .sequence [start, noteUsage chunk]

/-- Nothing but the sum of the output counts can fail. -/
theorem noteUsage_onlyOverflows (chunk : Json) : OnlyOverflows (noteUsage chunk) := by
  unfold noteUsage
  split
  · split
    · exact (succeeds_update _).onlyOverflows
    case h_2 e husage =>
      rintro s s' e' hs
      obtain rfl : e = e' := Except.error.inj (Prod.mk.inj hs).2
      exact (decodeUsage_eq_error_iff.1 husage).2
  · exact succeeds_skip.onlyOverflows

/-- A part is decoded before anything is done with it. -/
theorem addPart_failsInPlace (part : Json) : FailsInPlace (addPart part) := by
  intro s s' e hs
  unfold addPart at hs
  split at hs
  · exact (congrArg Prod.fst hs).symm
  · dsimp only at hs
    split at hs <;> cases hs

theorem addChunk_onlyOverflows
    (h : Chunk.failure? chunk ≠ none ∨ entryPlace.choice? chunk = none) :
    OnlyOverflows (addChunk chunk) := by
  unfold addChunk
  split
  case h_1 => exact (succeeds_emit _).onlyOverflows
  case h_2 hfailure =>
    have hcandidate : (chunk.get "candidates").first? = none := h.resolve_left (not_not.2 hfailure)
    have hblocked : Succeeds (noteBlocked chunk) := by
      unfold noteBlocked
      split <;> simp
    rw [hcandidate]
    exact (succeeds_emit _).onlyOverflows.andThen ((noteUsage_onlyOverflows chunk).andThen
      (hblocked.andThen succeeds_skip).onlyOverflows)

theorem noteUsage_lead (n : Nat) (chunk : Json) :
    noteUsage (entryPlace.lead n chunk) = noteUsage chunk := by
  rw [noteUsage, noteUsage, field?, field?, entryPlace.get?_lead_of_ne n (by decide),
    entryPlace.get?_lead_of_ne n (by decide)]

theorem noteFinish_cut (n : Nat) (choice : Json) : noteFinish (entryPlace.cut n choice) = skip := by
  have hword (name : String) (h : name ∈ entryPlace.ends) :
      (entryPlace.cut n choice).get? name = none := entryPlace.get?_cut_of_mem n h
  rw [noteFinish, textField?, field?, hword "finish_reason" (by decide),
    hword "finishReason" (by decide)]
  rfl

theorem isOrderOf_addChunk : entryPlace.IsOrderOf addChunk addPart noteFinish addOpening where
  outer_ne := by decide
  inner_notMem := by decide
  opening_onlyOverflows chunk _ := by
    have hstart : Succeeds start := succeeds_emit _
    exact hstart.onlyOverflows.andThen
      ((noteUsage_onlyOverflows chunk).andThen succeeds_skip.onlyOverflows)
  entry_failsInPlace := addPart_failsInPlace
  closing_succeeds choice := by
    unfold noteFinish
    split <;> simp
  chunk_eq hfailure hcandidate := by
    rw [EntryPlace.choice?, entryPlace] at hcandidate
    simp only [addChunk, hfailure, hcandidate, addOpening, EntryPlace.entries, entryPlace,
      Step.sequence, andThen_assoc, andThen_skip]
  chunk_onlyOverflows := addChunk_onlyOverflows
  opening_lead n chunk _ _ := by rw [addOpening, addOpening, noteUsage_lead]
  closing_cut := noteFinish_cut

theorem step_failsInPlace {frame : Frame} (hread : Json.read? frame.data = none) :
    FailsInPlace (step frame) := by
  unfold step
  rw [Chunk.parse, hread]
  exact failsInPlace_fail

end StreamState

end Gemini

/-! ## Lines of a local chat -/

namespace Ollama.StreamState

open Step

theorem exists_finish_eq_ok {s : StreamState} (hterminal : s.envelope.terminal = true) :
    ∃ s' events, finish s = (s', .ok events) :=
  exists_eq_ok_of_guard ((succeeds_emit _).andThen (succeeds_emit _))
    (by simp [Envelope.isTruncated, hterminal])

/-- The last line says itself that it is the end, so that nothing is found to be cut short. -/
theorem addEnd_succeeds (chunk : Json) : Succeeds (addEnd chunk) := by
  unfold addEnd
  split
  · intro s
    rw [update_andThen]
    exact exists_finish_eq_ok rfl
  · exact succeeds_skip

/-- A line that fails is no JSON. -/
theorem step_failsInPlace (frame : Frame) : FailsInPlace (step frame) := by
  unfold step
  split
  · exact failsInPlace_fail
  · split
    · exact (succeeds_emit _).failsInPlace
    · refine (succeeds_sequence ?_).failsInPlace
      simp only [List.forall_mem_cons]
      refine ⟨succeeds_emit _, succeeds_update _, ?_, addEnd_succeeds _, nofun⟩
      unfold addText
      split <;> simp

end Ollama.StreamState

/-! ## Translations -/

/-- What is asked of a translation. -/
inductive Translation.Input where
  /-- To take a frame. -/
  | frame (frame : Frame)
  /-- To end the stream. -/
  | finish

namespace Translation

variable {t t' : Translation} {frame : Frame} {chunk : Json} {place : EntryPlace} {e : Error}

/-- Does what is asked. -/
def take (t : Translation) : Input → Translation × Except Error (List Event)
  | .frame frame => t.step frame
  | .finish => t.finish

/-- The state after all that has been asked, whether or not it failed. -/
def after (t : Translation) (inputs : List Input) : Translation :=
  inputs.foldl (fun t input => (t.take input).1) t

/-- What comes of all that is asked, one answer for each input. -/
def outputs (t : Translation) : List Input → List (Except Error (List Event))
  | [] => []
  | input :: rest => (t.take input).2 :: (t.take input).1.outputs rest

/-- Where the entries of the chunks are, for a format that has them. -/
def entryPlace? : Translation → Option EntryPlace
  | .openai _ => some OpenAI.entryPlace
  | .gemini _ => some Gemini.entryPlace
  | _ => none

/-- Takes a chunk, in a format whose chunks have entries. -/
def takeChunk (t : Translation) (chunk : Json) : Translation × Except Error (List Event) :=
  match t with
  | .openai s => let (s, events) := OpenAI.StreamState.addChunk chunk s; (.openai s, events)
  | .gemini s => let (s, events) := Gemini.StreamState.addChunk chunk s; (.gemini s, events)
  | t => (t, .ok [])

/-- To take a frame is to take the chunk in it. -/
theorem step_of_read? (hplace : t.entryPlace? = some place)
    (hread : Json.read? frame.data = some chunk) : t.step frame = t.takeChunk chunk := by
  cases t with
  | openai s =>
    rw [step, takeChunk, OpenAI.StreamState.step, OpenAI.StreamState.isDone_of_read? hread,
      Chunk.parse, hread]
    rfl
  | gemini s =>
    rw [step, takeChunk, Gemini.StreamState.step, Chunk.parse, hread]
  | _ => cases hplace

/-- A frame that fails changes nothing if its data is no JSON, or if chunks have no entries. -/
theorem eq_of_step_eq_error (hplain : t.entryPlace? = none ∨ Json.read? frame.data = none)
    (h : t.step frame = (t', .error e)) : t' = t := by
  cases t with
  | anthropic => exact (Prod.mk.inj h).1.symm
  | ollama s =>
    obtain ⟨s', hs, rfl⟩ := exists_of_wrapped .ollama h
    rw [Ollama.StreamState.step_failsInPlace frame s s' e hs]
  | openai s =>
    obtain ⟨s', hs, rfl⟩ := exists_of_wrapped .openai h
    rw [OpenAI.StreamState.step_failsInPlace (hplain.resolve_left nofun) s s' e hs]
  | gemini s =>
    obtain ⟨s', hs, rfl⟩ := exists_of_wrapped .gemini h
    rw [Gemini.StreamState.step_failsInPlace (hplain.resolve_left nofun) s s' e hs]

/-- A chunk with entries that fails does what the part of it in front of some entry does, and the
events of this part are lost. -/
theorem exists_lead_of_takeChunk (hplace : t.entryPlace? = some place) (he : e ≠ .overflow)
    (h : t.takeChunk chunk = (t', .error e)) :
    ∃ n lost, t.takeChunk (place.lead n chunk) = (t', .ok lost) ∧
      t.takeChunk (place.lead (n + 1) chunk) = (t', .error e) := by
  cases t with
  | openai s =>
    obtain rfl := Option.some.inj hplace
    obtain ⟨s', hs, rfl⟩ := exists_of_wrapped .openai h
    obtain ⟨n, lost, hlead, hfails⟩ := OpenAI.StreamState.isOrderOf_addChunk.exists_lead he hs
    exact ⟨n, lost, by rw [takeChunk, hlead], by rw [takeChunk, hfails]⟩
  | gemini s =>
    obtain rfl := Option.some.inj hplace
    obtain ⟨s', hs, rfl⟩ := exists_of_wrapped .gemini h
    obtain ⟨n, lost, hlead, hfails⟩ := Gemini.StreamState.isOrderOf_addChunk.exists_lead he hs
    exact ⟨n, lost, by rw [takeChunk, hlead], by rw [takeChunk, hfails]⟩
  | _ => cases hplace

/-- A frame that fails is as good as not there where its data is no JSON, and in a format whose
chunks have no entries. Any other frame that fails, if not by an overflow, holds a chunk with a
malformed entry, and from then on all answers are as if in its place the part of the chunk in front
of that entry had come, but for the events of this part, which are lost. -/
theorem failed_chunk_leaves_lead (h : (t.step frame).2 = .error e) :
    (t.entryPlace? = none ∨ Json.read? frame.data = none →
      ∀ later, (t.step frame).1.outputs later = t.outputs later) ∧
    ∀ place chunk, t.entryPlace? = some place → Json.read? frame.data = some chunk →
      e ≠ .overflow → ∃ n lost, (t.takeChunk (place.lead n chunk)).2 = .ok lost ∧
        (t.takeChunk (place.lead (n + 1) chunk)).2 = .error e ∧
        ∀ later, (t.step frame).1.outputs later
          = (t.takeChunk (place.lead n chunk)).1.outputs later := by
  have hstep : t.step frame = ((t.step frame).1, .error e) := Prod.ext rfl h
  refine ⟨fun hplain later => ?_, fun place chunk hplace hread he => ?_⟩
  · rw [eq_of_step_eq_error hplain hstep]
  · rw [step_of_read? hplace hread] at hstep ⊢
    obtain ⟨n, lost, hlead, hfails⟩ := exists_lead_of_takeChunk hplace he hstep
    refine ⟨n, lost, ?_, ?_, fun later => ?_⟩
    · rw [hlead]
    · rw [hfails]
    · rw [hlead]

/-! ### A chunk that is torn -/

/-- A chunk with a text in front of a malformed entry: a piece of a tool call without id, or a call
without name. -/
def tornChunk : Provider → Json
  | .gemini => .object [("candidates", .array [.object [("content", .object [("parts", .array [
      .object [("text", .string "Hi.")], .object [("functionCall", .object [])]])])]])]
  | _ => .object [("choices", .array [.object [("delta", .object [
      ("content", .string "Hi."), ("tool_calls", .array [.object [("index", .ofCount 0)]])])]])]

/-- A frame with this chunk. -/
def tornFrame (p : Provider) : Frame := ⟨none, (tornChunk p).toText⟩

theorem read?_tornFrame (p : Provider) : Json.read? (tornFrame p).data = some (tornChunk p) := by
  have hprinted : (tornChunk p).IsReprinted := by cases p <;> decide +kernel
  exact hprinted

theorem failed_chunk_leaves_lead_torn :
    ∃ e n lost, ((new .gemini .numbered).step (tornFrame .gemini)).2 = .error e ∧
      ((new .gemini .numbered).takeChunk
        (Gemini.entryPlace.lead n (tornChunk .gemini))).2 = .ok lost ∧
      ∀ later, ((new .gemini .numbered).step (tornFrame .gemini)).1.outputs later
        = ((new .gemini .numbered).takeChunk
            (Gemini.entryPlace.lead n (tornChunk .gemini))).1.outputs later := by
  have hread := read?_tornFrame .gemini
  obtain ⟨e, he, hreturned⟩ :
      ∃ e, ((new .gemini .numbered).step (tornFrame .gemini)).2 = .error e ∧ e ≠ .overflow := by
    rw [step_of_read? rfl hread]
    exact ⟨_, rfl, nofun⟩
  obtain ⟨n, lost, hlead, -, hlater⟩ := (failed_chunk_leaves_lead he).2 _ _ rfl hread hreturned
  exact ⟨e, n, lost, he, hlead, hlater⟩

end Translation

/-- Whatever is asked after a frame that failed is answered as if that frame had never come. -/
def Provider.ForgetsFailures (p : Provider) : Prop :=
  ∀ (ids : CallIds) (before later : List Translation.Input) (frame : Frame) (e : Error),
    (((Translation.new p ids).after before).step frame).2 = .error e →
    (((Translation.new p ids).after before).step frame).1.outputs later
      = ((Translation.new p ids).after before).outputs later

/-- A text in front of a malformed entry begins the message, although it fails with that entry. -/
theorem Translation.failures_not_forgotten :
    ¬ Provider.openai.ForgetsFailures ∧ ¬ Provider.gemini.ForgetsFailures := by
  have hnot {p : Provider} {place : EntryPlace}
      (hplace : (new p .numbered).entryPlace? = some place)
      (hfails : ∃ e, ((new p .numbered).takeChunk (tornChunk p)).2 = .error e)
      (hfinish : ((new p .numbered).takeChunk (tornChunk p)).1.outputs [.finish]
        ≠ (new p .numbered).outputs [.finish]) : ¬ p.ForgetsFailures := by
    intro hforgets
    obtain ⟨e, he⟩ := hfails
    rw [← step_of_read? hplace (read?_tornFrame p)] at he hfinish
    exact hfinish (hforgets .numbered [] [.finish] (tornFrame p) e he)
  exact ⟨hnot rfl ⟨_, rfl⟩ (by decide +kernel), hnot rfl ⟨_, rfl⟩ (by decide +kernel)⟩

end ChatWire
