import ChatWire.Proofs.Agreement.Basic
import ChatWire.Proofs.Stream.Ledger

/-!
# The blocks of an envelope

A ledger keeps the whole history of every block. `Envelope.Holds` says only how far the blocks have
come, whether they have ended or not, and has a lemma for every operation on an envelope. When the
message ends, each block is whole, and the reply that is read is made of them
(`Envelope.Holds.readReply_eq`).
-/

namespace ChatWire

open Transcript (Bears stepsAt stepsAt_append stepsAt_stops)

variable {provider : Provider} {events : List Event}

/-- The block of a history as far as it has come. -/
def BlockTrace.block? : BlockTrace → Option OpenBlock
  | .unopened => none
  | .opened o fs | .stopped o fs => some (o.grown fs)

namespace Envelope

/-- The blocks, open or not, have come as far as the given ones. -/
structure Holds (provider : Provider) (e : Envelope) (events : List Event)
    (blocks : List OpenBlock) : Prop where
  ledger : ∃ history, e.Ledger provider events history ∧ ∀ i, (history i).block? = blocks[i]?
  next : e.next = blocks.length

theorem holds_new (provider : Provider) : Holds provider {} [] [] :=
  ⟨⟨_, ledger_new provider, fun _ => rfl⟩, rfl⟩

namespace Holds

variable {e : Envelope} {blocks : List OpenBlock}

theorem congr (h : e.Holds provider events blocks) {e' : Envelope} (hsame : e'.SameBlocks e) :
    e'.Holds provider events blocks := by
  obtain ⟨⟨history, hledger, hblocks⟩, hnext⟩ := h
  exact ⟨⟨history, hledger.congr hsame, hblocks⟩, hsame.next.trans hnext⟩

theorem unfinished (h : e.Holds provider events blocks) : e.finished = false := by
  obtain ⟨⟨history, hledger, -⟩, -⟩ := h
  exact hledger.unfinished

theorem start (h : e.Holds provider events blocks) :
    e.start.1.Holds provider (events ++ e.start.2) blocks ∧ e.start.1.started = true := by
  obtain ⟨⟨history, hledger, hblocks⟩, hnext⟩ := h
  obtain ⟨hbegun, hstarted⟩ := hledger.start
  refine ⟨⟨⟨history, hbegun, hblocks⟩, ?_⟩, hstarted⟩
  unfold Envelope.start
  split <;> exact hnext

/-- An event about no block. -/
theorem note (h : e.Holds provider events blocks) (hstarted : e.started = true) {x : Event}
    (hx : x.isInner) (hindex : x.index? = none) : e.Holds provider (events ++ [x]) blocks := by
  obtain ⟨⟨history, hledger, hblocks⟩, hnext⟩ := h
  exact ⟨⟨history, hledger.note hstarted hx hindex, hblocks⟩, hnext⟩

theorem openBlock (h : e.Holds provider events blocks) (hstarted : e.started = true)
    (o : Opening) :
    (e.openBlock o).1.Holds provider (events ++ (e.openBlock o).2)
      (blocks ++ [.ofOpening o]) := by
  obtain ⟨⟨history, hledger, hblocks⟩, hnext⟩ := h
  refine ⟨⟨_, hledger.openBlock hstarted o, fun i => ?_⟩, ?_⟩
  · by_cases hi : i = e.next
    · subst hi
      rw [Function.update_self, hnext, List.getElem?_concat_length, BlockTrace.block?, o.grown_nil]
    · rw [Function.update_of_ne hi, hblocks]
      by_cases hlt : i < blocks.length
      · rw [List.getElem?_append_left hlt]
      · rw [List.getElem?_eq_none (by omega), List.getElem?_eq_none]
        rw [List.length_append, List.length_singleton]
        omega
  · rw [List.length_append, ← hnext]
    rfl

theorem exists_of_mem_opened (h : e.Holds provider events blocks) {i : Nat} (hopen : i ∈ e.opened) :
    ∃ block, blocks[i]? = some block := by
  obtain ⟨⟨history, hledger, hblocks⟩, -⟩ := h
  have htrace := (hledger.opened i).2 hopen
  rw [← hblocks i]
  cases hhistory : history i with
  | opened o fs => exact ⟨o.grown fs, rfl⟩
  | unopened =>
    rw [hhistory] at htrace
    cases htrace
  | stopped o fs =>
    rw [hhistory] at htrace
    cases htrace

/-- What is known of an open block. -/
theorem exists_opened (h : e.Holds provider events blocks) {i : Nat} (hopen : i ∈ e.opened)
    {block : OpenBlock} (hi : blocks[i]? = some block) :
    ∃ history o fs, e.Ledger provider events history ∧ (∀ j, (history j).block? = blocks[j]?) ∧
      history i = .opened o fs ∧ o.grown fs = block := by
  obtain ⟨⟨history, hledger, hblocks⟩, -⟩ := h
  obtain ⟨o, hsome⟩ := Option.isSome_iff_exists.1
    ((history i).isOpen_iff.1 ((hledger.opened i).2 hopen))
  obtain ⟨fs, hopened⟩ := BlockTrace.exists_of_openAs? hsome
  refine ⟨history, o, fs, hledger, hblocks, hopened, ?_⟩
  have hblock := hblocks i
  rw [hopened, hi] at hblock
  exact Option.some.inj hblock

/-- An open block grows by a fragment that it takes. -/
theorem grow (h : e.Holds provider events blocks) {i : Nat} (hopen : i ∈ e.opened)
    {block block' : OpenBlock} (hi : blocks[i]? = some block) {f : Fragment}
    (hf : block.grow? f = some block') :
    e.Holds provider (events ++ [.blockDelta i f]) (blocks.set i block') := by
  obtain ⟨history, o, fs, hledger, hblocks, hopened, rfl⟩ := h.exists_opened hopen hi
  rw [o.grow?_grown] at hf
  have haccepts : o.accepts f := by
    by_contra hnot
    rw [if_neg hnot] at hf
    cases hf
  rw [if_pos haccepts] at hf
  refine ⟨⟨_, hledger.grow hopened haccepts, fun j => ?_⟩, ?_⟩
  · by_cases hji : j = i
    · subst hji
      rw [Function.update_self, List.getElem?_set_self (List.getElem?_eq_some_iff.1 hi).1]
      exact hf
    · rw [Function.update_of_ne hji, List.getElem?_set_ne (Ne.symm hji), hblocks]
  · rw [List.length_set]
    exact h.next

/-- The last block grows by fragments that its opening accepts. -/
theorem growAll {o : Opening} {early fs : List Fragment}
    (h : e.Holds provider events (blocks ++ [o.grown early])) (hopen : blocks.length ∈ e.opened)
    (hfs : ∀ f ∈ fs, o.accepts f) :
    e.Holds provider (events ++ fs.map (.blockDelta blocks.length))
      (blocks ++ [o.grown (early ++ fs)]) := by
  induction fs generalizing events early with
  | nil =>
    rw [List.map_nil, List.append_nil, List.append_nil]
    exact h
  | cons f rest ih =>
    obtain ⟨hf, hrest⟩ := List.forall_mem_cons.1 hfs
    have hgrow : (o.grown early).grow? f = some (o.grown (early ++ [f])) := by
      rw [o.grow?_grown, if_pos hf]
    have hgrown := h.grow hopen List.getElem?_concat_length hgrow
    rw [List.set_append_right _ _ le_rfl, Nat.sub_self, List.set_cons_zero] at hgrown
    have hall := ih hgrown hrest
    rwa [List.append_assoc, List.append_assoc] at hall

/-- An open block ends, if it can be made. -/
theorem closeBlock (h : e.Holds provider events blocks) {i : Nat} (hopen : i ∈ e.opened)
    {block : OpenBlock} (hi : blocks[i]? = some block) {b : Option Block}
    (hclose : block.close provider = .ok b) :
    (e.closeBlock i).1.Holds provider (events ++ (e.closeBlock i).2) blocks := by
  obtain ⟨history, o, fs, hledger, hblocks, hopened, rfl⟩ := h.exists_opened hopen hi
  have hreadable : o.IsReadable fs := ((o.close_grown_eq_ok provider).1 hclose).1
  refine ⟨⟨_, hledger.closeBlock hopened fun _ => hreadable, fun j => ?_⟩, h.next⟩
  by_cases hji : j = i
  · subst hji
    rw [Function.update_self, hi]
    rfl
  · rw [Function.update_of_ne hji, hblocks]

/-- When the open blocks have ended, all blocks are whole. -/
theorem bears (h : e.Holds provider events blocks) {more : List Event}
    (hmore : ∀ i, stepsAt i more = if i ∈ e.opened then [.stops] else []) {finals : List Block}
    (hfinals : blocks.map (OpenBlock.close provider) = finals.map fun b => .ok (some b)) :
    Bears provider (events ++ more) (finals.zipIdx.map fun b => (b.2, some b.1)) := by
  obtain ⟨⟨history, hledger, hblocks⟩, hnext⟩ := h
  have hlength : blocks.length = finals.length := by simpa using congrArg List.length hfinals
  have hindices : (finals.zipIdx.map fun b => (b.2, some b.1)).map Prod.fst
      = List.range' 0 finals.length := by
    rw [List.map_map]
    exact List.zipIdx_map_snd 0 finals
  refine ⟨?_, fun b hb => ?_, fun i hi => ?_⟩
  · rw [hindices]
    exact List.pairwise_lt_range'
  · obtain ⟨⟨final, i⟩, hmem, rfl⟩ := List.mem_map.1 hb
    have hfinal : finals[i]? = some final := List.mem_zipIdx_iff_getElem?.1 hmem
    have hclose : (blocks[i]?).map (OpenBlock.close provider) = some (.ok (some final)) := by
      rw [← List.getElem?_map, hfinals, List.getElem?_map, hfinal]
      rfl
    obtain ⟨block, hblock, hclosed⟩ := Option.map_eq_some_iff.1 hclose
    have htrace := hblocks i
    have haccepted := hledger.ongoing.accepted i
    have hopen := hledger.opened i
    have hsteps := hledger.ongoing.steps i
    rw [hblock] at htrace
    cases hhistory : history i with
    | unopened =>
      rw [hhistory] at htrace
      cases htrace
    | opened o fs =>
      rw [hhistory] at htrace haccepted hopen hsteps
      obtain rfl := Option.some.inj htrace
      refine ⟨o, fs, ?_, haccepted, hclosed⟩
      rw [stepsAt_append, ← hsteps, hmore, if_pos (hopen.1 trivial)]
      rfl
    | stopped o fs =>
      rw [hhistory] at htrace haccepted hopen hsteps
      obtain rfl := Option.some.inj htrace
      refine ⟨o, fs, ?_, haccepted, hclosed⟩
      rw [stepsAt_append, ← hsteps, hmore, if_neg fun hi => hopen.2 hi, List.append_nil]
      rfl
  · rw [hindices, List.mem_range'_1] at hi
    have hfresh : history i = .unopened := hledger.fresh i (by omega)
    have hclosed : i ∉ e.opened := by
      rw [← hledger.opened, hfresh]
      exact id
    rw [stepsAt_append, ← hledger.ongoing.steps, hfresh, hmore, if_neg hclosed]
    rfl

end Holds

/-! ## The end of the message -/

/-- The events that end a message, but for the very last. -/
def endEvents (e : Envelope) : List Event :=
  e.opened.map .blockStop ++ [.messageDelta e.stopReason none e.usage]

theorem conclude_eq {e : Envelope} (hstarted : e.started = true) (hfinished : e.finished = false) :
    e.conclude = ({ e with finished := true, opened := [], stopReason := none },
      e.endEvents ++ [.messageStop]) := by
  simp [conclude, endEvents, hstarted, hfinished]

theorem isInner_endEvents (e : Envelope) : ∀ x ∈ e.endEvents, x.isInner := by
  intro x hx
  rcases List.mem_append.1 hx with hx | hx
  · obtain ⟨i, -, rfl⟩ := List.mem_map.1 hx
    rfl
  · rw [List.mem_singleton.1 hx]
    rfl

namespace Holds

variable {e : Envelope} {blocks : List OpenBlock}

/-- The blocks of a message that is whole when it ends can be made. -/
theorem exists_close (h : e.Holds provider events blocks)
    (hwhole : ∀ i, stepsAt i (events ++ e.endEvents) ≠ [] →
      Transcript.IsWhole (stepsAt i (events ++ e.endEvents))) :
    ∀ block ∈ blocks, ∃ b, block.close provider = .ok b := by
  intro block hmem
  obtain ⟨i, hi⟩ := List.mem_iff_getElem?.1 hmem
  obtain ⟨⟨history, hledger, hblocks⟩, -⟩ := h
  have htrace := hblocks i
  have hopen := hledger.opened i
  have hsteps : stepsAt i (events ++ e.endEvents)
      = (history i).steps ++ if i ∈ e.opened then [.stops] else [] := by
    rw [stepsAt_append, ← hledger.ongoing.steps, Envelope.endEvents, stepsAt_append,
      stepsAt_stops hledger.nodup]
    exact congrArg _ (List.append_nil _)
  -- Open or not, the block ends once.
  have hstopped : ∃ o fs, o.grown fs = block ∧
      stepsAt i (events ++ e.endEvents) = (BlockTrace.stopped o fs).steps := by
    rw [hi] at htrace
    cases hhistory : history i with
    | unopened =>
      rw [hhistory] at htrace
      cases htrace
    | opened o fs =>
      rw [hhistory] at htrace hopen hsteps
      rw [if_pos (hopen.1 trivial)] at hsteps
      exact ⟨o, fs, Option.some.inj htrace, hsteps⟩
    | stopped o fs =>
      rw [hhistory] at htrace hopen hsteps
      rw [if_neg fun hi => hopen.2 hi, List.append_nil] at hsteps
      exact ⟨o, fs, Option.some.inj htrace, hsteps⟩
  obtain ⟨o, fs, rfl, hstopped⟩ := hstopped
  obtain ⟨o', fs', hwhole', -, hreadable⟩ := hwhole i (by rw [hstopped]; nofun)
  have hsame : BlockTrace.stopped o fs = .stopped o' fs' :=
    BlockTrace.steps_injective (hstopped.symm.trans hwhole')
  obtain ⟨rfl, rfl⟩ := BlockTrace.stopped.inj hsame
  exact ⟨_, (o.close_grown_eq_ok provider).2 ⟨hreadable, rfl⟩⟩

theorem bears_endEvents (h : e.Holds provider events blocks) {finals : List Block}
    (hfinals : blocks.map (OpenBlock.close provider) = finals.map fun b => .ok (some b)) :
    Bears provider (events ++ e.endEvents) (finals.zipIdx.map fun b => (b.2, some b.1)) := by
  refine h.bears (fun i => ?_) hfinals
  obtain ⟨⟨history, hledger, -⟩, -⟩ := h
  rw [endEvents, stepsAt_append, stepsAt_stops hledger.nodup]
  exact List.append_nil _

/-- A stream that gives the events and then ends the message gives the reply that they tell. -/
theorem readReply_eq (h : e.Holds provider events blocks) (hstarted : e.started = true)
    {finals : List Block}
    (hfinals : blocks.map (OpenBlock.close provider) = finals.map fun b => .ok (some b))
    {ids : CallIds} {frames : List (Except Error Frame)}
    (hstream : streamEvents provider ids frames
      = (events ++ e.endEvents ++ [Event.messageStop]).map .ok) :
    readReply provider ids frames = .ok (Transcript.reply provider (events ++ e.endEvents)) := by
  have hbears := h.bears_endEvents hfinals
  obtain ⟨⟨history, hledger, -⟩, -⟩ := h
  obtain ⟨role, usage, inner, hframed, hinner⟩ :=
    hledger.ongoing.framed_append (hledger.started.1 hstarted) e.isInner_endEvents
  have hquiet : Transcript.quiet (events ++ e.endEvents)
      = .messageStart role usage :: inner.filter (· ≠ .ping) := by
    rw [hframed]
    rfl
  have hends : streamEvents provider ids frames
      = (events ++ e.endEvents).map .ok ++ [.ok .messageStop] := by
    rw [hstream, List.map_append]
    rfl
  exact readReply_of_bears hends
    ⟨role, usage, _, hquiet, fun x hx => hinner x (List.mem_filter.1 hx).1⟩ hbears

end Holds

end Envelope

/-! ## What is said of the message as a whole -/

/-- An event about a block tells nothing else. -/
theorem Event.reads_of_index? {x : Event} (h : x.index?.isSome) :
    x.usage? = none ∧ x.note? = none ∧ x.stopWord? = none ∧ x.stopSequence? = none := by
  cases x <;> first | exact ⟨rfl, rfl, rfl, rfl⟩ | simp [Event.index?] at h

namespace Transcript

/-- The message has begun, and all that followed is about blocks. -/
def IsAboutBlocks (events : List Event) : Prop :=
  ∃ inner, events = .messageStart .assistant {} :: inner ∧ ∀ e ∈ inner, e.index?.isSome

theorem IsAboutBlocks.append (h : IsAboutBlocks events) {more : List Event}
    (hmore : ∀ e ∈ more, e.index?.isSome) : IsAboutBlocks (events ++ more) := by
  obtain ⟨inner, rfl, hinner⟩ := h
  exact ⟨inner ++ more, rfl, fun e he => (List.mem_append.1 he).elim (hinner e) (hmore e)⟩

/-- The events that note what no block holds. -/
def notes (fields : List (String × Json)) : List Event := fields.map fun f => .metadata f.1 f.2

theorem filterMap_note?_notes (fields : List (String × Json)) :
    (notes fields).filterMap Event.note? = fields := by
  rw [notes, List.filterMap_map]
  exact List.filterMap_some

theorem filterMap_notes_eq_nil {α : Type} {f : Event → Option α}
    (hf : ∀ key value, f (.metadata key value) = none) (fields : List (String × Json)) :
    (notes fields).filterMap f = [] := by
  rw [notes, List.filterMap_map]
  exact List.filterMap_eq_nil_iff.2 fun field _ => hf field.1 field.2

/-- What is read of a message when nothing is read of its blocks. -/
theorem filterMap_message {α : Type} {f : Event → Option α}
    (hf : ∀ e : Event, e.index?.isSome → f e = none) (h : IsAboutBlocks events)
    (more : List Event) (e : Envelope) :
    (events ++ more ++ e.endEvents).filterMap f
      = (f (.messageStart .assistant {})).toList ++ more.filterMap f
        ++ (f (.messageDelta e.stopReason none e.usage)).toList := by
  obtain ⟨inner, rfl, hinner⟩ := h
  have hblocks : inner.filterMap f = [] :=
    List.filterMap_eq_nil_iff.2 fun x hx => hf x (hinner x hx)
  have hstops : (e.opened.map Event.blockStop).filterMap f = [] := by
    refine List.filterMap_eq_nil_iff.2 fun x hx => ?_
    obtain ⟨i, -, rfl⟩ := List.mem_map.1 hx
    exact hf _ rfl
  have hcons : ∀ (x : Event) (rest : List Event),
      (x :: rest).filterMap f = (f x).toList ++ rest.filterMap f := by
    intro x rest
    cases hx : f x <;> simp [hx]
  rw [List.filterMap_append, List.filterMap_append, hcons, hblocks, Envelope.endEvents,
    List.filterMap_append, hstops, hcons, List.filterMap_nil]
  simp only [List.nil_append, List.append_nil]

/-- The reply of a message whose events are about its blocks, save for notes at the end: of the
message as a whole it says what the envelope and the notes say. -/
theorem reply_eq (h : IsAboutBlocks events) (fields : List (String × Json)) (e : Envelope)
    {finals : List Block} (hbears : Bears provider (events ++ notes fields ++ e.endEvents)
      (finals.zipIdx.map fun b => (b.2, some b.1))) :
    reply provider (events ++ notes fields ++ e.endEvents) =
      let message : Message := {
        role := .assistant
        content := finals ++ if 0 < e.usage.cache.created || 0 < e.usage.cache.read
          then [.usage e.usage.cache] else []
        metadata := .ofList fields }
      ⟨{ message with
          stopReason := e.stopReason.map fun word => .classifyFor provider word message },
        e.usage⟩ := by
  have hcontent := hbears.content_eq
  have hsender : sender (events ++ notes fields ++ e.endEvents) = .assistant := by
    obtain ⟨inner, rfl, -⟩ := h
    rfl
  have husage : usage (events ++ notes fields ++ e.endEvents) = e.usage := by
    rw [usage_eq_foldl, filterMap_message (fun x hx => (Event.reads_of_index? hx).1) h,
      filterMap_notes_eq_nil fun _ _ => rfl]
    exact Draft.merge_default e.usage
  have hmetadata : metadata (events ++ notes fields ++ e.endEvents) = .ofList fields := by
    rw [metadata, filterMap_message (fun x hx => (Event.reads_of_index? hx).2.1) h,
      filterMap_note?_notes]
    exact congrArg Table.ofList (List.append_nil _)
  have hword : stopWord? (events ++ notes fields ++ e.endEvents) = e.stopReason := by
    rw [stopWord?, filterMap_message (fun x hx => (Event.reads_of_index? hx).2.2.1) h,
      filterMap_notes_eq_nil fun _ _ => rfl]
    cases hreason : e.stopReason <;> rfl
  have hsequence : stopSequence? (events ++ notes fields ++ e.endEvents) = none := by
    rw [stopSequence?, filterMap_message (fun x hx => (Event.reads_of_index? hx).2.2.2) h,
      filterMap_notes_eq_nil fun _ _ => rfl]
    rfl
  rw [husage, filterMap_zipIdx] at hcontent
  rw [reply, hsender, husage, hmetadata, hword, hsequence, hcontent]
  rfl

end Transcript

end ChatWire
