import ChatWire.Proofs.Json.Reprint
import ChatWire.Proofs.Stream.Order
import ChatWire.Proofs.Stream.Success
import Mathlib.Data.List.TakeWhile

/-!
# Replies that agree

A reply may come in a stream or as a whole body. This module says what it means that two replies
agree (`Reply.Agrees`), and which reply is read from a stream whose blocks are known one by one
(`readReply_of_bears`).
-/

namespace ChatWire

open Transcript (stepsAt)

variable {provider : Provider}

/-- Two replies say the same, cache counts among the blocks aside. -/
structure Reply.Agrees (r r' : Reply) : Prop where
  role : r.message.role = r'.message.role
  content : r.message.withoutUsage.content = r'.message.withoutUsage.content
  metadata : r.message.metadata = r'.message.metadata
  usage : r.usage = r'.usage

/-! ## The blocks of a transcript -/

namespace Transcript

/-- At ascending indices the transcript has whole blocks, those of unknown kind given as none, and
at other indices nothing happens. -/
structure Bears (provider : Provider) (events : List Event) (blocks : List (Nat × Option Block)) :
    Prop where
  ascending : (blocks.map Prod.fst).Pairwise (· < ·)
  whole : ∀ b ∈ blocks, ∃ o fs, stepsAt b.1 events = .opens o :: (fs.map .grows ++ [.stops]) ∧
    (∀ f ∈ fs, o.accepts f) ∧ (o.grown fs).close provider = .ok b.2
  nothing : ∀ i, i ∉ blocks.map Prod.fst → stepsAt i events = []

namespace Bears

variable {events : List Event} {blocks : List (Nat × Option Block)}

theorem isWhole (h : Bears provider events blocks) (i : Nat) (hi : stepsAt i events ≠ []) :
    IsWhole (stepsAt i events) := by
  have hmem : i ∈ blocks.map Prod.fst := by
    by_contra hnot
    exact hi (h.nothing i hnot)
  obtain ⟨b, hb, rfl⟩ := List.mem_map.1 hmem
  obtain ⟨o, fs, hsteps, haccepts, hclose⟩ := h.whole b hb
  exact ⟨o, fs, hsteps, haccepts, ((o.close_grown_eq_ok provider).1 hclose).1⟩

theorem indices_eq (h : Bears provider events blocks) :
    indices events = blocks.map Prod.fst := by
  have hmem : (events.filterMap Event.index?).toFinset = (blocks.map Prod.fst).toFinset := by
    ext i
    rw [List.mem_toFinset, List.mem_toFinset, mem_index_iff]
    constructor
    · intro hi
      by_contra hnot
      exact hi (h.nothing i hnot)
    · intro hi
      obtain ⟨b, hb, rfl⟩ := List.mem_map.1 hi
      obtain ⟨o, fs, hsteps, -⟩ := h.whole b hb
      simp [hsteps]
  have hnodup : (blocks.map Prod.fst).Nodup := h.ascending.imp Nat.ne_of_lt
  rw [indices, hmem]
  exact (List.toFinset_sort (· ≤ ·) hnodup).2 (h.ascending.imp Nat.le_of_lt)

theorem blockAt?_eq (h : Bears provider events blocks) {b : Nat × Option Block} (hb : b ∈ blocks) :
    blockAt? events b.1 = b.2 := by
  obtain ⟨o, fs, hsteps, -, hclose⟩ := h.whole b hb
  rw [blockAt?_of_stepsAt hsteps]
  exact ((o.close_grown_eq_ok provider).1 hclose).2

theorem content_eq (h : Bears provider events blocks) :
    content events = blocks.filterMap Prod.snd ++
      if 0 < (usage events).cache.created || 0 < (usage events).cache.read
      then [.usage (usage events).cache] else [] := by
  have hblocks : (blocks.map Prod.fst).filterMap (blockAt? events) = blocks.filterMap Prod.snd := by
    rw [List.filterMap_map]
    exact List.filterMap_congr fun b hb => h.blockAt?_eq hb
  rw [content, h.indices_eq, hblocks]
  rfl

end Bears

end Transcript

/-- Cache counts are never streamed as a block. -/
theorem OpenBlock.isUsage_of_close {block : OpenBlock} {b : Block}
    (h : block.close provider = .ok (some b)) : b.isUsage = false := by
  unfold OpenBlock.close at h
  split at h
  case h_2 =>
    split at h
    · obtain rfl := Option.some.inj (Except.ok.inj h)
      rfl
    · cases h
  case h_6 => cases h
  all_goals
    obtain rfl := Option.some.inj (Except.ok.inj h)
    rfl

/-- Apart from cache counts, the content of a transcript is its blocks. -/
theorem Transcript.Bears.filter_content {events : List Event} {blocks : List (Nat × Option Block)}
    (h : Bears provider events blocks) :
    (content events).filter (fun b => !b.isUsage) = blocks.filterMap Prod.snd := by
  have hblocks : ∀ b ∈ blocks.filterMap Prod.snd, (!b.isUsage) = true := by
    intro block hblock
    obtain ⟨b, hb, hsome⟩ := List.mem_filterMap.1 hblock
    obtain ⟨o, fs, -, -, hclose⟩ := h.whole b hb
    rw [hsome] at hclose
    rw [OpenBlock.isUsage_of_close hclose]
    rfl
  rw [h.content_eq, List.filter_append, List.filter_eq_self.2 hblocks]
  split <;> exact List.append_nil _

/-- Blocks at their indices, given as blocks of known kind. -/
theorem Transcript.filterMap_zipIdx (finals : List Block) :
    (finals.zipIdx.map fun b => (b.2, some b.1)).filterMap Prod.snd = finals := by
  have hpick : (Prod.snd ∘ fun b : Block × Nat => (b.2, some b.1)) = some ∘ Prod.fst := rfl
  rw [List.filterMap_map, hpick, List.filterMap_eq_map, List.zipIdx_map_fst]

/-- Apart from cache counts, the content of a transcript whose blocks are all of known kind is these
blocks. -/
theorem Transcript.Bears.filter_content_zipIdx {events : List Event} {finals : List Block}
    (h : Bears provider events (finals.zipIdx.map fun b => (b.2, some b.1))) :
    (content events).filter (fun b => !b.isUsage) = finals := by
  rw [h.filter_content, filterMap_zipIdx]

/-- All indices of the stream are below the bound. So a word holds them where it holds the bound.
-/
def IndicesBelow (bound : Nat) (stream : List (Except Error Event)) : Prop :=
  ∀ event, .ok event ∈ stream → ∀ i, event.index? = some i → i < bound

/-- Where all blocks are of known kind, no index is greater than their number. -/
theorem Transcript.Bears.indicesBelow {events : List Event} {finals : List Block}
    (h : Bears provider events (finals.zipIdx.map fun b => (b.2, some b.1))) :
    IndicesBelow finals.length ((events ++ [Event.messageStop]).map .ok) := by
  intro event hevent i hi
  obtain ⟨e, he, hsame⟩ := List.mem_map.1 hevent
  obtain rfl : e = event := Except.ok.inj hsame
  have hmem : e ∈ events := by
    rcases List.mem_append.1 he with he | he
    · exact he
    · rw [List.mem_singleton.1 he] at hi
      cases hi
  have hsteps : stepsAt i events ≠ [] :=
    (mem_index_iff i events).1 (List.mem_filterMap.2 ⟨e, hmem, hi⟩)
  by_contra hle
  refine hsteps (h.nothing i fun hblock => ?_)
  rw [List.map_map] at hblock
  have hindices : finals.zipIdx.map Prod.snd = List.range' 0 finals.length :=
    List.zipIdx_map_snd 0 finals
  obtain ⟨b, hb, rfl⟩ := List.mem_map.1 hblock
  have hrange : b.2 ∈ List.range' 0 finals.length := hindices ▸ List.mem_map_of_mem hb
  rw [List.mem_range'_1] at hrange
  exact hle (by simpa using hrange.2)

/-! ## Texts that can be read -/

namespace Json

/-- No value begins with a blank, also not with one that JSON does not know. -/
theorem value_blank {c : Char} (h : isBlank c) (fuel depth : Nat) (rest : List Char) :
    value fuel depth (c :: rest) = none := by
  have hdigit : c.isDigit = false := by
    by_contra hnot
    have hbounds : 48 ≤ c.toNat ∧ c.toNat ≤ 57 := by
      simpa [Char.isDigit, UInt32.le_iff_toNat_le] using hnot
    simp only [isBlank, Bool.or_eq_true, Bool.and_eq_true, decide_eq_true_eq, beq_iff_eq] at h
    omega
  have hwhole : wholePart (c :: rest) = none := by simp [wholePart, digits, hdigit]
  cases fuel with
  | zero => rw [value]
  | succ fuel =>
    unfold value
    split
    all_goals try exact absurd h (by decide)
    rw [numeral, hwhole]
    rfl

/-- A text that can be read is not blank. -/
theorem not_all_isBlank_of_read? {s : String} {v : Json} (h : read? s = some v) :
    ¬ s.toList.all isBlank := by
  intro hblank
  have hvalue : ∀ fuel, value fuel maxDepth (skipSpace s.toList) = none := by
    intro fuel
    cases hcs : skipSpace s.toList with
    | nil => cases fuel <;> rw [value]
    | cons c rest =>
      have hmem : c ∈ s.toList := by
        refine (List.dropWhile_suffix isSpace).subset ?_
        rw [← skipSpace, hcs]
        exact List.mem_cons_self
      exact value_blank (List.all_eq_true.1 hblank c hmem) _ _ _
  simp [read?, tree?, treeWithin?, hvalue] at h

theorem value_letter (fuel depth : Nat) (rest : List Char) :
    value fuel depth ('D' :: rest) = none := by
  cases fuel with
  | zero => rw [value]
  | succ fuel =>
    have hwhole : wholePart ('D' :: rest) = none := by simp [wholePart, digits]
    unfold value
    simp [numeral, hwhole]

theorem value_bracketed (fuel depth : Nat) (rest : List Char) :
    value fuel depth ('[' :: 'D' :: rest) = none := by
  have hskip : skipSpace ('D' :: rest) = 'D' :: rest := by simp [skipSpace, isSpace]
  have helements (fuel depth : Nat) : elements fuel depth ('D' :: rest) = none := by
    cases fuel with
    | zero => rw [elements]
    | succ fuel => rw [elements, hskip, value_letter]; rfl
  cases fuel with
  | zero => rw [value]
  | succ fuel =>
    cases depth with
    | zero => rw [value]
    | succ depth =>
      rw [value]
      simp [hskip, helements]

/-- The end mark of a stream is no JSON text, whatever white space is around it. -/
theorem read?_of_trim {s : String} (h : trim s.toList = "[DONE]".toList) : read? s = none := by
  obtain ⟨after, hafter⟩ : trim s.toList <+: s.toList.dropWhile isBlank := by
    rw [trim, trimEnd, ← List.reverse_suffix, List.reverse_reverse]
    exact List.dropWhile_suffix _
  have hvalue : ∀ fuel, value fuel maxDepth (skipSpace s.toList) = none := by
    intro fuel
    rw [← List.takeWhile_append_dropWhile (p := isBlank) (l := s.toList), ← hafter, h]
    have hblank : ∀ c ∈ s.toList.takeWhile isBlank, isBlank c := fun c hc =>
      List.mem_takeWhile_imp hc
    generalize s.toList.takeWhile isBlank = before at hblank
    -- the first character that JSON does not take for blank is white space all the same
    induction before with
    | nil => exact value_bracketed fuel _ _
    | cons c before ih =>
      obtain ⟨hc, hbefore⟩ := List.forall_mem_cons.1 hblank
      by_cases hspace : isSpace c
      · have hskip : skipSpace (c :: before ++ ("[DONE]".toList ++ after))
            = skipSpace (before ++ ("[DONE]".toList ++ after)) := by
          simp [skipSpace, hspace]
        rw [hskip]
        exact ih hbefore
      · have hskip : skipSpace (c :: before ++ ("[DONE]".toList ++ after))
            = c :: before ++ ("[DONE]".toList ++ after) := by
          simp [skipSpace, hspace]
        rw [hskip]
        exact value_blank hc _ _ _
  simp [read?, tree?, treeWithin?, hvalue]

end Json

/-- A frame that bears JSON is no end mark. -/
theorem OpenAI.StreamState.isDone_of_read? {frame : Frame} {chunk : Json}
    (hread : Json.read? frame.data = some chunk) : isDone frame = false := by
  rw [isDone, beq_eq_false_iff_ne]
  intro hmark
  rw [Json.read?_of_trim hmark] at hread
  cases hread

/-- Arguments that are JSON are read as such. -/
theorem OpenBlock.readArguments?_of_read? {s : String} {v : Json} (h : Json.read? s = some v) :
    readArguments? s = some v := by
  rw [readArguments?, if_neg (Json.not_all_isBlank_of_read? h), h]

/-! ## Frames of values -/

/-- The frames that bear values as they are written. -/
def framesOf (values : List Json) : List (Except Error Frame) :=
  (values.map fun v => (⟨none, v.toText⟩ : Frame)).map .ok

/-- Values that are printed as they are read are borne by the frames. -/
theorem forall₂_framesOf {values : List Json} (h : ∀ v ∈ values, v.IsReprinted) :
    List.Forall₂ (fun frame v => Json.read? frame.data = some v)
      (values.map fun v => (⟨none, v.toText⟩ : Frame)) values := by
  rw [List.forall₂_map_left_iff]
  exact List.forall₂_same.2 h

/-! ## Reading a complete transcript -/

namespace Assembly

/-- The events before the end of a complete transcript lead to a draft, which is then concluded. -/
theorem exists_of_isComplete (provider : Provider) {events : List Event}
    (h : Transcript.IsComplete (events ++ [.messageStop])) :
    ∃ d, run provider .waiting events = .ok (.drafting d) ∧
      d.conclude provider = .ok (Transcript.reply provider events) := by
  obtain ⟨⟨role, usage, inner, hframed, hinner⟩, hwhole⟩ :=
    (Transcript.isComplete_concat_iff events).1 h
  have hrun := run_messageStart provider role usage hinner
  rw [← hframed, run_quiet] at hrun
  cases ha : run provider .waiting events with
  | error err =>
    rw [ha] at hrun
    obtain ⟨i, hi⟩ := hrun
    rw [Transcript.stepsAt_quiet] at hi
    exact absurd hi (Transcript.after_ne_error hwhole i err)
  | ok a =>
    rw [ha] at hrun
    obtain ⟨d, rfl, htells⟩ := hrun
    refine ⟨d, rfl, (htells.conclude_eq_ok _).2 ⟨fun i => ?_, (Transcript.reply_quiet _).symm⟩⟩
    rw [Transcript.stepsAt_quiet]
    exact hwhole i

/-- Neither the end of the message nor an error is on the way to a draft. -/
theorem isEnd_eq_false_of_run {events : List Event} {d : Draft}
    (h : run provider .waiting events = .ok (.drafting d)) : ∀ e ∈ events, e.isEnd = false := by
  obtain ⟨⟨role, usage, inner, hquiet, hinner⟩, -⟩ := exists_of_run_eq_drafting h
  intro e he
  by_cases hping : e = .ping
  · rw [hping]
    rfl
  · have hkept : e ∈ Transcript.quiet events := List.mem_filter.2 ⟨he, by simpa using hping⟩
    rw [hquiet] at hkept
    rcases List.mem_cons.1 hkept with rfl | hkept
    · rfl
    · exact Event.isEnd_eq_false (hinner e hkept)

/-- Nothing follows the reply. -/
theorem isTerminal_of_apply_eq_reply {a a' : Assembly} {e : Event} {r : Reply}
    (h : a.apply provider e = (a', .ok (some r))) : a'.isTerminal := by
  obtain ⟨rfl, d, rfl, hd⟩ := (apply_eq_reply_iff a e r).1 (congrArg Prod.snd h)
  have hcomplete : apply provider (.drafting d) .messageStop = (.complete, .ok (some r)) := by
    simp [apply, advance, hd, bind, Except.bind, pure, Except.pure]
  rw [hcomplete] at h
  rw [← (Prod.mk.inj h).1]
  rfl

end Assembly

/-- Who is never asked to stop need not know when the deliveries come. -/
theorem readDeliveries_result_congr {ds ds' : List Delivery}
    (h : ds.map Delivery.item = ds'.map Delivery.item) (ending : Ending)
    (total total' handed handed' : Nat) (a : Assembly) :
    (readDeliveries provider none ending total a handed ds).result
      = (readDeliveries provider none ending total' a handed' ds').result := by
  induction ds generalizing ds' handed handed' a with
  | nil =>
    obtain rfl : ds' = [] := List.map_eq_nil_iff.1 h.symm
    cases ending <;> rfl
  | cons d rest ih =>
    obtain ⟨d', rest', rfl, hitem, hrest⟩ := List.map_eq_cons_iff.1 h.symm
    simp only [readDeliveries, StopRequest.isMade, Option.any_none, Bool.false_eq_true, if_false,
      hitem]
    split
    · rfl
    · split
      · rfl
      · rfl
      · exact ih hrest.symm _ _ _

/-- A reply is read from a stream by assembling its events. -/
theorem readReply_eq_assemble (provider : Provider) (ids : CallIds)
    (frames : List (Except Error Frame)) :
    readReply provider ids frames = assemble provider (streamEvents provider ids frames) := by
  refine readDeliveries_result_congr ?_ _ _ _ _ _ _
  rw [List.map_map, streamEvents]
  exact (List.map_id _).symm

/-- A reading that is told of the events of a message and then of its end gives the reply, whatever
comes behind. -/
theorem readDeliveries_eq_ok {a : Assembly} {events : List Event} {d : Draft} {r : Reply}
    (hrun : a.run provider events = .ok (.drafting d)) (hd : d.conclude provider = .ok r)
    {deliveries : List Delivery} {behind : List (Except Error Event)}
    (hitems : deliveries.map Delivery.item = events.map .ok ++ .ok .messageStop :: behind)
    (ending : Ending) (total handed : Nat) :
    (readDeliveries provider none ending total a handed deliveries).result = .ok r := by
  induction events generalizing a deliveries handed with
  | nil =>
    obtain rfl : a = .drafting d := Except.ok.inj hrun
    obtain ⟨first, rest, rfl, hfirst, -⟩ := List.map_eq_cons_iff.1 hitems
    have happly : (Assembly.apply provider (.drafting d) .messageStop).2 = .ok (some r) :=
      (Assembly.apply_eq_reply_iff _ _ r).2 ⟨rfl, d, rfl, hd⟩
    cases hanswer : Assembly.apply provider (.drafting d) .messageStop with
    | mk a' answer =>
      obtain rfl : answer = .ok (some r) := by rw [hanswer] at happly; exact happly
      simp [readDeliveries, StopRequest.isMade, hfirst, hanswer]
  | cons event more ih =>
    obtain ⟨first, rest, rfl, hfirst, hrest⟩ := List.map_eq_cons_iff.1 hitems
    rw [Assembly.run_cons] at hrun
    cases happly : a.apply provider event with
    | mk b answer =>
      cases answer with
      | error err => simp [Assembly.accept, happly, Except.bind] at hrun
      | ok reply =>
        have hrun' : b.run provider more = .ok (.drafting d) := by
          simpa [Assembly.accept, happly, Except.bind] using hrun
        cases reply with
        | none =>
          simpa [readDeliveries, StopRequest.isMade, hfirst, happly]
            using ih hrun' hrest first.handed
        | some r' =>
          -- A reply before the end would leave no way to a draft.
          have hend := Assembly.isTerminal_of_apply_eq_reply happly
          exact absurd hrun' (Assembly.run_of_isTerminal provider hend more d)

/-- A reading that gives a reply was told of the events of a message and then of its end. -/
theorem exists_of_readDeliveries_eq_ok {stop : StopRequest} {ending : Ending} {total handed : Nat}
    {a : Assembly} {deliveries : List Delivery} {r : Reply}
    (h : (readDeliveries provider stop ending total a handed deliveries).result = .ok r) :
    ∃ events behind d, deliveries.map Delivery.item = events.map .ok ++ .ok .messageStop :: behind ∧
      a.run provider events = .ok (.drafting d) ∧ d.conclude provider = .ok r := by
  induction deliveries generalizing a handed with
  | nil =>
    unfold readDeliveries at h
    split at h
    · cases h
    · cases ending <;> cases h
  | cons first rest ih =>
    unfold readDeliveries at h
    split at h
    · cases h
    · split at h
      case h_1 => cases h
      case h_2 event hitem =>
        split at h
        case h_1 => cases h
        case h_2 a' reply happly =>
          obtain rfl := Except.ok.inj h
          obtain ⟨rfl, d, rfl, hd⟩ :=
            (Assembly.apply_eq_reply_iff a event reply).1 (congrArg Prod.snd happly)
          exact ⟨[], rest.map Delivery.item, d, by rw [List.map_cons, hitem]; rfl, rfl, hd⟩
        case h_3 a' happly =>
          obtain ⟨events, behind, d, hitems, hrun, hd⟩ := ih h
          refine ⟨event :: events, behind, d, ?_, ?_, hd⟩
          · rw [List.map_cons, hitem, hitems]
            rfl
          · rw [Assembly.run_cons, Assembly.accept, happly]
            exact hrun

/-- A stream that gives a reply has been taken up to the step that ends the message, and the reply
is what the events tell that come before. -/
theorem exists_last_of_readStream {σ : Type} (wrap : σ → Translation) {step : Frame → Step σ}
    {finish : Step σ} {s : σ} {ids : CallIds} (hnew : Translation.new provider ids = wrap s)
    (hstep : ∀ frame s, (wrap s).step frame = (wrap (step frame s).1, (step frame s).2))
    (hfinish : ∀ s, (wrap s).finish = (wrap (finish s).1, (finish s).2))
    {stop : StopRequest} {ending : Ending} {frames : List (Except Error Frame)} {reply : Reply}
    (h : (readStream provider ids stop ending frames).result = .ok reply) :
    ∃ (fs : List Frame) (rest : List (Except Error Frame)) (last : Step σ) (s' s'' : σ)
      (events first later : List Event), frames = fs.map .ok ++ rest ∧
      (rest = [] ∧ last = finish ∨ ∃ frame more, rest = .ok frame :: more ∧ last = step frame) ∧
      Step.sequence (fs.map step) s = (s', .ok events) ∧
      last s' = (s'', .ok (first ++ .messageStop :: later)) ∧
      (∀ e ∈ events ++ first, e.isEnd = false) ∧
      (∀ i, stepsAt i (events ++ first) ≠ [] →
        Transcript.IsWhole (stepsAt i (events ++ first))) ∧
      reply = Transcript.reply provider (events ++ first) := by
  obtain ⟨early, behind, d, hitems, hrun, hd⟩ := exists_of_readDeliveries_eq_ok h
  rw [deliveries, hnew] at hitems
  obtain ⟨fs, rest, last, s', s'', events, first, later, hframes, hlast, hevents, hgiven, rfl⟩ :=
    exists_of_deliveriesFrom wrap hstep hfinish hitems
  obtain ⟨-, htells⟩ := Assembly.exists_of_run_eq_drafting hrun
  obtain ⟨hwhole, hreply⟩ := (htells.conclude_eq_ok reply).1 hd
  rw [Transcript.reply_quiet] at hreply
  refine ⟨fs, rest, last, s', s'', events, first, later, hframes, hlast, hevents, hgiven,
    Assembly.isEnd_eq_false_of_run hrun, fun i => ?_, hreply⟩
  have hi := hwhole i
  rwa [Transcript.stepsAt_quiet] at hi

/-- A stream that gives the events of a message, all blocks of which are whole, and then its end
gives the reply that the events tell. -/
theorem readReply_of_bears {ids : CallIds} {frames : List (Except Error Frame)}
    {events : List Event} {behind : List (Except Error Event)}
    (hstream : streamEvents provider ids frames = events.map .ok ++ .ok .messageStop :: behind)
    (hframed : ∃ role usage inner, Transcript.quiet events = .messageStart role usage :: inner ∧
      ∀ e ∈ inner, e.isInner)
    {blocks : List (Nat × Option Block)} (hblocks : Transcript.Bears provider events blocks) :
    readReply provider ids frames = .ok (Transcript.reply provider events) := by
  have hcomplete := (Transcript.isComplete_concat_iff events).2 ⟨hframed, hblocks.isWhole⟩
  obtain ⟨d, hrun, hd⟩ := Assembly.exists_of_isComplete provider hcomplete
  exact readDeliveries_eq_ok hrun hd hstream _ _ _

end ChatWire
