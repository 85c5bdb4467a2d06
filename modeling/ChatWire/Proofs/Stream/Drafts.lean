import ChatWire.Proofs.Table
import ChatWire.Proofs.Stream.Slots

/-!
# Drafts

A draft holds what the transcript so far tells (`Draft.Tells`). Every event inside a message either
keeps it so (`Draft.Tells.take`), or fails, and then the history of one block fails in the same way
(`Draft.Tells.take_error`). A draft is concluded exactly if every block is whole, and the reply is
then the one that the transcript tells (`Draft.Tells.conclude_eq_ok`).
-/

namespace ChatWire

open Transcript (stepsAt stepsAt_append stepsAt_cons stepsAt_nil IsWhole)

variable {provider : Provider}

namespace Draft

/-- What an event inside a message makes of a draft. -/
def take (provider : Provider) (d : Draft) : Event → Except Error Draft
  | .blockStart i opening => d.openBlock i opening
  | .blockDelta i fragment => d.growBlock i fragment
  | .blockStop i => d.closeBlock provider i
  | .messageDelta stopReason stopSequence usage => .ok (d.noteDelta stopReason stopSequence usage)
  | .metadata key value => .ok { d with metadata := d.metadata.insert key value }
  | _ => .ok d

theorem advance_of_isInner (d : Draft) {e : Event} (h : e.isInner) :
    Assembly.advance provider d e = (d.take provider e).map fun d => (.drafting d, none) := by
  cases e <;> first | rfl | simp [Event.isInner] at h

/-- An event about a block changes the slot at its index and nothing else. -/
theorem take_of_step (d : Draft) {e : Event} {i : Nat} {step : BlockStep}
    (h : e.stepAt? i = some step) :
    d.take provider e = (Slot.next provider i (d.slots.find? i) step).map
      fun slot => { d with slots := d.slots.insert i slot } := by
  cases e with
  | blockStart j o =>
    obtain ⟨rfl, rfl⟩ : j = i ∧ .opens o = step := by simpa [Event.stepAt?] using h
    simp only [take, openBlock]
    cases d.slots.find? j <;> rfl
  | blockDelta j f =>
    obtain ⟨rfl, rfl⟩ : j = i ∧ .grows f = step := by simpa [Event.stepAt?] using h
    simp only [take, growBlock]
    cases d.slots.find? j with
    | none => rfl
    | some slot =>
      cases slot with
      | closed b => rfl
      | opened b =>
        simp only [Slot.next]
        cases b.grow? f <;> rfl
  | blockStop j =>
    obtain ⟨rfl, rfl⟩ : j = i ∧ .stops = step := by simpa [Event.stepAt?] using h
    simp only [take, closeBlock]
    cases d.slots.find? j with
    | none => rfl
    | some slot =>
      cases slot with
      | closed b => rfl
      | opened b =>
        simp only [Slot.next]
        cases b.close provider <;> rfl
  | _ => simp [Event.stepAt?] at h

/-- An event about the message as a whole adds to the draft what it adds to each reading of a
transcript. -/
theorem take_of_index?_eq_none (d : Draft) {e : Event} (he : e.isInner) (hi : e.index? = none) :
    d.take provider e = .ok { d with
      usage := (e.usage?.map d.usage.merge).getD d.usage
      stopReason := e.stopWord?.or d.stopReason
      stopSequence := e.stopSequence?.or d.stopSequence
      metadata := d.metadata.insertAll e.note?.toList } := by
  cases e <;> first | rfl | simp [Event.isInner, Event.index?] at he hi

/-- The draft holds what the transcript so far tells. -/
structure Tells (provider : Provider) (d : Draft) (events : List Event) : Prop where
  role : d.role = Transcript.sender events
  usage : d.usage = Transcript.usage events
  stopReason : d.stopReason = Transcript.stopWord? events
  stopSequence : d.stopSequence = Transcript.stopSequence? events
  metadata : d.metadata = Transcript.metadata events
  slots : ∀ i, Slot.after provider i (stepsAt i events) = .ok (d.slots.find? i)

/-- The first report of token counts counts as it stands. -/
theorem merge_default (u : TokenUsage) : TokenUsage.merge {} u = u := by
  have hlater : ∀ n : UInt64, TokenUsage.later 0 n = n := by
    intro n
    unfold TokenUsage.later
    split
    · rfl
    · next h => exact (UInt64.not_lt.1 h |> UInt64.le_zero_iff.1).symm
  cases u
  simp [TokenUsage.merge, hlater]

/-- A message that has just begun. -/
theorem tells_messageStart (provider : Provider) (role : Role) (usage : TokenUsage) :
    Tells provider { role, usage } [.messageStart role usage] where
  role := rfl
  usage := by
    rw [Transcript.usage_eq_foldl]
    exact (merge_default usage).symm
  stopReason := rfl
  stopSequence := rfl
  metadata := rfl
  slots _ := rfl

namespace Tells

variable {d d' : Draft} {events : List Event}

/-- The draft goes on telling the transcript when a slot takes its step. -/
theorem insert (h : d.Tells provider events) {e : Event} {i : Nat} {step : BlockStep} {slot : Slot}
    (hstep : e.stepAt? i = some step)
    (hslot : Slot.next provider i (d.slots.find? i) step = .ok slot) :
    Tells provider { d with slots := d.slots.insert i slot } (events ++ [e]) where
  role := by
    have hsender : e.sender? = none := by cases e <;> simp_all [Event.stepAt?, Event.sender?]
    rw [Transcript.sender_concat hsender]
    exact h.role
  usage := by
    have husage : e.usage? = none := by cases e <;> simp_all [Event.stepAt?, Event.usage?]
    rw [Transcript.usage_concat, husage]
    exact h.usage
  stopReason := by
    have hword : e.stopWord? = none := by cases e <;> simp_all [Event.stepAt?, Event.stopWord?]
    rw [Transcript.stopWord?_concat, hword]
    exact h.stopReason
  stopSequence := by
    have hsequence : e.stopSequence? = none := by
      cases e <;> simp_all [Event.stepAt?, Event.stopSequence?]
    rw [Transcript.stopSequence?_concat, hsequence]
    exact h.stopSequence
  metadata := by
    have hnote : e.note? = none := by cases e <;> simp_all [Event.stepAt?, Event.note?]
    rw [Transcript.metadata_concat, hnote]
    exact h.metadata
  slots j := by
    rw [stepsAt_append, stepsAt_cons, stepsAt_nil, List.append_nil]
    by_cases hj : j = i
    · subst hj
      rw [hstep, Option.toList_some, Slot.after_concat, h.slots]
      simp [Except.bind, Except.map, hslot, Table.find?_insert_self]
    · have hnone : e.stepAt? j = none := Event.stepAt?_eq_none (by
        rw [Event.index?_of_stepAt? hstep]
        exact fun hi => hj (Option.some.inj hi).symm)
      rw [hnone, Option.toList_none, List.append_nil, h.slots, Table.find?_insert_of_ne _ hj]

/-- The draft goes on telling the transcript. -/
theorem take (h : d.Tells provider events) {e : Event} (he : e.isInner)
    (ht : d.take provider e = .ok d') : d'.Tells provider (events ++ [e]) := by
  cases hi : e.index? with
  | some i =>
    obtain ⟨step, hstep⟩ := Event.exists_stepAt? hi
    rw [take_of_step d hstep] at ht
    cases hslot : Slot.next provider i (d.slots.find? i) step with
    | error err => simp [hslot, Except.map] at ht
    | ok slot =>
      obtain rfl : { d with slots := d.slots.insert i slot } = d' := by
        simpa [hslot, Except.map] using ht
      exact h.insert hstep hslot
  | none =>
    have hsender : e.sender? = none := by cases e <;> simp_all [Event.isInner, Event.sender?]
    rw [take_of_index?_eq_none d he hi] at ht
    obtain rfl := Except.ok.inj ht
    refine ⟨?_, ?_, ?_, ?_, ?_, ?_⟩
    · rw [Transcript.sender_concat hsender, ← h.role]
    · rw [Transcript.usage_concat, ← h.usage]
    · rw [Transcript.stopWord?_concat, ← h.stopReason]
    · rw [Transcript.stopSequence?_concat, ← h.stopSequence]
    · rw [Transcript.metadata_concat, ← h.metadata]
    · intro j
      have hnone : e.stepAt? j = none := Event.stepAt?_eq_none (by simp [hi])
      simpa [hnone] using h.slots j

/-- When an event inside the message fails, it is the history of one block that fails. -/
theorem take_error (h : d.Tells provider events) {e : Event} (he : e.isInner) {err : Error}
    (ht : d.take provider e = .error err) :
    ∃ i, Slot.after provider i (stepsAt i (events ++ [e])) = .error err := by
  cases hi : e.index? with
  | some i =>
    obtain ⟨step, hstep⟩ := Event.exists_stepAt? hi
    refine ⟨i, ?_⟩
    rw [take_of_step d hstep] at ht
    rw [stepsAt_append, stepsAt_cons, stepsAt_nil, List.append_nil, hstep, Option.toList_some,
      Slot.after_concat, h.slots]
    cases hslot : Slot.next provider i (d.slots.find? i) step with
    | error err' => simpa [hslot, Except.map, Except.bind] using ht
    | ok slot => simp [hslot, Except.map] at ht
  | none => simp [take_of_index?_eq_none d he hi] at ht

/-- The slots after several events: those of a draft that tells them, or an error that is the error
of one block. -/
theorem foldlM_take (h : d.Tells provider events) {more : List Event} (hm : ∀ e ∈ more, e.isInner) :
    match more.foldlM (Draft.take provider) d with
    | .ok d' => d'.Tells provider (events ++ more)
    | .error err => ∃ i, Slot.after provider i (stepsAt i (events ++ more)) = .error err := by
  induction more generalizing d events with
  | nil => simpa [pure, Except.pure] using h
  | cons e rest ih =>
    have he : e.isInner := hm e List.mem_cons_self
    have hrest : ∀ e ∈ rest, e.isInner := fun e he => hm e (List.mem_cons_of_mem _ he)
    rw [List.foldlM_cons, show events ++ e :: rest = events ++ [e] ++ rest by simp]
    cases ht : d.take provider e with
    | ok d' => exact ih (h.take he ht) hrest
    | error err =>
      obtain ⟨i, hi⟩ := h.take_error he ht
      refine ⟨i, ?_⟩
      rw [stepsAt_append]
      exact Slot.after_append_of_error hi _

/-! ## Concluding -/

/-- Every block has a history that the order of events allows. -/
theorem exists_trace (h : d.Tells provider events) (i : Nat) :
    ∃ t : BlockTrace, t.steps = stepsAt i events ∧ t.IsAccepted ∧
      t.slot provider = .ok (d.slots.find? i) :=
  Slot.exists_trace_of_after (h.slots i)

/-- The indices that occur are those that have a slot. -/
theorem find?_eq_none_iff (h : d.Tells provider events) (i : Nat) :
    d.slots.find? i = none ↔ stepsAt i events = [] := by
  obtain ⟨t, ht, -, hslot⟩ := h.exists_trace i
  rw [← ht]
  cases t with
  | unopened => simpa [BlockTrace.slot, BlockTrace.steps] using hslot.symm
  | opened o fs =>
    obtain hfind := Except.ok.inj hslot
    simp [BlockTrace.steps, ← hfind]
  | stopped o fs =>
    have hsome : d.slots.find? i ≠ none := by
      intro hnone
      rw [hnone, BlockTrace.slot] at hslot
      cases hclose : (o.grown fs).close provider <;> simp [hclose, Except.map] at hslot
    simp [BlockTrace.steps, hsome]

/-- A block is closed exactly if its history is whole, and then it is the block that its history
tells. -/
theorem find?_eq_closed_iff (h : d.Tells provider events) (i : Nat) (b : Option Block) :
    d.slots.find? i = some (.closed b) ↔
      IsWhole (stepsAt i events) ∧ Transcript.blockAt? events i = b := by
  constructor
  · intro hfind
    obtain ⟨t, ht, hacc, hslot⟩ := h.exists_trace i
    rw [hfind] at hslot
    cases t with
    | unopened => simp [BlockTrace.slot] at hslot
    | opened o fs => simp [BlockTrace.slot] at hslot
    | stopped o fs =>
      have hclose : (o.grown fs).close provider = .ok b := by
        simp only [BlockTrace.slot] at hslot
        cases hc : (o.grown fs).close provider with
        | error err => simp [hc, Except.map] at hslot
        | ok b' => simpa [hc, Except.map] using hslot
      obtain ⟨hread, hb⟩ := (o.close_grown_eq_ok provider).1 hclose
      exact ⟨⟨o, fs, ht.symm, hacc, hread⟩, (Transcript.blockAt?_of_stepsAt ht.symm).trans hb⟩
  · rintro ⟨⟨o, fs, hsteps, hacc, hread⟩, hb⟩
    rw [Transcript.blockAt?_of_stepsAt hsteps] at hb
    have hclose := (o.close_grown_eq_ok provider).2 ⟨hread, hb⟩
    have htrace : (BlockTrace.stopped o fs).IsAccepted := hacc
    have hafter := Slot.after_steps provider i htrace
    rw [BlockTrace.steps, ← hsteps, h.slots, BlockTrace.slot, hclose] at hafter
    exact Except.ok.inj hafter

/-- No slot is open exactly if every block that occurs is whole. -/
theorem firstOpen?_eq_none_iff (h : d.Tells provider events) :
    d.firstOpen? = none ↔ ∀ i, stepsAt i events ≠ [] → IsWhole (stepsAt i events) := by
  have hslots : d.firstOpen? = none ↔ ∀ i slot, d.slots.find? i = some slot → ¬ slot.isOpen := by
    simp only [firstOpen?, Option.map_eq_none_iff, List.find?_eq_none, Prod.forall,
      Table.mem_entries_iff]
  rw [hslots]
  refine forall_congr' fun i => ?_
  rw [ne_eq, ← h.find?_eq_none_iff]
  cases hfind : d.slots.find? i with
  | none => simp
  | some slot =>
    cases slot with
    | opened block =>
      have hnot : ¬ IsWhole (stepsAt i events) := by
        intro hwhole
        have := (h.find?_eq_closed_iff i _).2 ⟨hwhole, rfl⟩
        simp [hfind] at this
      simp [Slot.isOpen, hnot]
    | closed b =>
      have hwhole := ((h.find?_eq_closed_iff i b).1 hfind).1
      simp [Slot.isOpen, hwhole]

/-- The blocks of a draft without open slot are those that the transcript tells. -/
theorem content_eq (h : d.Tells provider events)
    (hwhole : ∀ i, stepsAt i events ≠ [] → IsWhole (stepsAt i events)) :
    d.content = Transcript.content events := by
  have hkeys : d.slots.entries.map Prod.fst = Transcript.indices events := by
    refine Table.keys_eq_sort _ _ fun i => ?_
    rw [List.mem_toFinset, Transcript.mem_index_iff, ne_eq, ne_eq, h.find?_eq_none_iff]
  have hblocks : ∀ i ∈ Transcript.indices events,
      (d.slots.find? i).bind Slot.block? = Transcript.blockAt? events i := by
    intro i hi
    rw [Transcript.indices, Finset.mem_sort, List.mem_toFinset, Transcript.mem_index_iff] at hi
    rw [(h.find?_eq_closed_iff i _).2 ⟨hwhole i hi, rfl⟩]
    rfl
  unfold content Transcript.content
  rw [Table.filterMap_entries, hkeys, List.filterMap_congr hblocks, h.usage]
  rfl

/-- A draft is concluded exactly if every block is whole, with the reply that the transcript tells.
-/
theorem conclude_eq_ok (h : d.Tells provider events) (r : Reply) :
    d.conclude provider = .ok r ↔ (∀ i, stepsAt i events ≠ [] → IsWhole (stepsAt i events)) ∧
      r = Transcript.reply provider events := by
  rw [← h.firstOpen?_eq_none_iff]
  unfold conclude
  cases hopen : d.firstOpen? with
  | some i => simp [violation]
  | none =>
    have hcontent := h.content_eq (h.firstOpen?_eq_none_iff.1 hopen)
    have hreply : d.reply provider = Transcript.reply provider events := by
      unfold reply Transcript.reply
      rw [hcontent, h.role, h.usage, h.stopReason, h.stopSequence, h.metadata]
      cases Transcript.stopSequence? events <;> rfl
    simp [hreply, eq_comm]

end Tells

end Draft

end ChatWire
