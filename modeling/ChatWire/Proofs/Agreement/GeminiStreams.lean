import ChatWire.Proofs.Agreement.GeminiLandings
import ChatWire.Proofs.Dialect.GeminiFiling

/-!
# Signatures of Gemini streams

A translation files the signature of a part that is not reasoning under the index at which the part
lands, and notes the first call and the first block that is not reasoning when they land
(`Gemini.StreamState.Files`). A stream that gives a reply has been taken to its end, so the reply
has the blocks and the signatures that were kept of all its parts (`Gemini.exists_of_readStream`).
-/

namespace ChatWire.Gemini

/-! ## Parts of frames -/

/-- The parts of a frame. -/
def frameParts (frame : Frame) : List Json := ((Json.read? frame.data).map parts).getD []

/-- The parts of all frames. -/
def streamParts (frames : List (Except Error Frame)) : List Json :=
  (frames.filterMap Except.toOption).flatMap frameParts

theorem streamParts_map_ok (frames : List Frame) :
    streamParts (frames.map .ok) = frames.flatMap frameParts := by
  rw [streamParts, List.filterMap_map]
  exact congrArg (List.flatMap frameParts) (List.filterMap_some)

/-- A block can be streamed if its part nests no deeper than JSON may. -/
theorem canClose_of_decodePart {freshId : String} {part : Json} {b : Block}
    (h : decodePart freshId part = .ok (some b)) (hdepth : part.depth ≤ Json.maxDepth)
    (hresult : b.isToolResult = false) : CanClose b := by
  cases Gives.of_decodePart h with
  | toolCall call c =>
    have hone : 1 ≤ Json.maxDepth := by decide
    have harguments := StreamState.depth_arguments_le h
    obtain ⟨arguments, hread⟩ := Option.isSome_iff_exists.1
      (StreamState.readArguments?_toText (v := c.arguments) (by omega))
    exact ⟨.toolCall ⟨c.id, c.name, arguments⟩, by rw [openForm, OpenBlock.close, hread]⟩
  | toolResult r => cases hresult
  | _ => exact ⟨_, rfl⟩

/-- The block that a stream makes of a part with a signature of its own is not reasoning. -/
theorem not_isThinking_of_looseSignature? {part : Json} {b : Block} {signature : String}
    (hb : streamed? part = some b) (h : looseSignature? part = some signature) :
    b.isThinking = false := by
  rw [Bool.eq_false_iff, ne_eq, (Gives.of_block? (Option.filter_eq_some_iff.1 hb).1).isThinking_iff]
  rintro ⟨hthought, -⟩
  rw [looseSignature?, if_pos hthought] at h
  cases h

namespace StreamState

open Step

variable {s s' : StreamState} {events more : List Event}

/-! ## What blocks leave behind -/

/-- The events are about blocks, the landing was noted, and nothing was filed. -/
structure Notes (s s' : StreamState) (landed : Option Nat) (isCall : Bool) (events : List Event) :
    Prop where
  events : ∀ e ∈ events, e.index?.isSome
  firstOther : s'.firstOther = s.firstOther.or landed
  firstCall : s'.firstCall = s.firstCall.or (if isCall then landed else none)
  signatures : s'.signatures = s.signatures

theorem endRun_notes (s : StreamState) : Notes s s.endRun.1 none false s.endRun.2 := by
  unfold endRun
  split
  · exact ⟨by simp [Envelope.closeBlock, Event.index?], by simp, by simp, rfl⟩
  · exact ⟨by simp, by simp, by simp, rfl⟩

theorem beginRun_notes (s : StreamState) (kind : RunKind) :
    Notes s (s.beginRun kind).1 none false (s.beginRun kind).2.2 := by
  obtain ⟨hevents, hother, hcall, hsignatures⟩ := endRun_notes s
  refine ⟨?_, hother, hcall, hsignatures⟩
  simpa [beginRun, Envelope.openBlock, Event.index?, or_imp, forall_and] using hevents

theorem extendRun_notes (s : StreamState) (kind : RunKind) :
    Notes s (s.extendRun kind).1 none false (s.extendRun kind).2.2 := by
  have hsame : Notes s s none false [] := ⟨by simp, by simp, by simp, rfl⟩
  unfold extendRun
  split
  · split
    · exact hsame
    · exact beginRun_notes s kind
  · exact beginRun_notes s kind

theorem addWhole_notes (s : StreamState) (o : Opening) (fs : List Fragment) (isCall : Bool) :
    Notes s (s.addWhole o fs isCall).1 (some (s.addWhole o fs isCall).2.1) isCall
      (s.addWhole o fs isCall).2.2 := by
  obtain ⟨hevents, hother, hcall, hsignatures⟩ := endRun_notes s
  rw [Option.or_none] at hother
  rw [if_neg Bool.false_ne_true, Option.or_none] at hcall
  refine ⟨?_, ?_, ?_, hsignatures⟩
  · simpa [addWhole, Envelope.openBlock, Envelope.closeBlock, Event.index?, or_imp, forall_and]
      using hevents
  · rw [← hother]
    rfl
  · rw [← hcall]
    cases isCall with
    | true => rfl
    | false => exact (Option.or_none).symm

theorem addThought_notes (s : StreamState) (t : Thinking) :
    Notes s (s.addThought t).1 none false (s.addThought t).2 := by
  obtain ⟨hevents, hother, hcall, hsignatures⟩ := extendRun_notes s .thought
  unfold addThought
  simp only
  split
  · refine ⟨?_, hother, hcall, hsignatures⟩
    simpa [Event.index?, or_imp, forall_and] using hevents
  · obtain ⟨hevents', hother', hcall', hsignatures'⟩ := endRun_notes (s.extendRun .thought).1
    refine ⟨?_, ?_, ?_, hsignatures'.trans hsignatures⟩
    · simpa [Event.index?, or_imp, forall_and] using ⟨hevents, hevents'⟩
    · rw [hother', hother, Option.or_none]
    · rw [hcall', hcall]
      simp

/-- The block of a part is noted where it landed. -/
theorem addBlock_notes (s : StreamState) (block : Option Block) :
    Notes s (s.addBlock block).1 (s.addBlock block).2.1 (block.any Block.isToolCall)
      (s.addBlock block).2.2 := by
  unfold addBlock
  split
  case h_1 text =>
    obtain ⟨hevents, hother, hcall, hsignatures⟩ := extendRun_notes s .text
    rw [Option.or_none] at hother
    refine ⟨?_, ?_, hcall, hsignatures⟩
    · simpa [Event.index?, or_imp, forall_and] using hevents
    · rw [← hother]
      rfl
  case h_2 t => exact addThought_notes s t
  case h_3 c => exact addWhole_notes s _ _ true
  case h_4 a => exact addWhole_notes s _ _ false
  case h_5 => exact ⟨by simp, by simp, by simp, rfl⟩

/-! ## Parts -/

/-- A block that is not reasoning lands where merging puts it. -/
theorem Follows.landed_addBlock {ended : Prop} {blocks : List Block}
    (h : Follows ended blocks (runOf blocks) events s) {b : Block} (hb : CanClose b) :
    (s.addBlock (some b)).2.1
      = if b.isThinking then none else some ((addMerged blocks b).length - 1) := by
  have hnext : s.endRun.1.envelope.next = blocks.length := by
    rw [h.endRun.holds.next, List.length_map]
  cases b with
  | text more =>
    obtain ⟨before, text, hseat, hmerged⟩ := exists_textSeat blocks more
    rw [hmerged, List.length_append, List.length_singleton, Nat.add_sub_cancel]
    exact congrArg some (h.extendRun hseat).1
  | thinking t => rfl
  | toolCall c =>
    rw [addMerged_of_join?_eq_none (fun last => by cases last <;> rfl), List.length_append,
      List.length_singleton, Nat.add_sub_cancel]
    exact congrArg some hnext
  | attachment a =>
    rw [addMerged_of_join?_eq_none (fun last => by cases last <;> rfl), List.length_append,
      List.length_singleton, Nat.add_sub_cancel]
    exact congrArg some hnext
  | _ =>
    obtain ⟨b', hclose⟩ := hb
    cases hclose

/-- A part that can be read adds its block, and its signature where the block landed. -/
theorem exists_of_addPart {part : Json} (h : addPart part s = (s', .ok more)) :
    ∃ block, decodePart (s.ids.ofPlace s.envelope.next) part = .ok block ∧
      more = (s.addBlock block).2.2 ∧
      s' = { (s.addBlock block).1 with signatures := s'.signatures } ∧
      s'.signatures = (s.addBlock block).1.signatures ++ (looseSignature? part).toList.map
        ((s.addBlock block).2.1.getD (s.addBlock block).1.envelope.next, ·) := by
  unfold addPart at h
  split at h
  case h_1 => cases (Prod.mk.inj h).2
  case h_2 block hblock =>
    refine ⟨block, hblock, ?_⟩
    cases hloose : looseSignature? part with
    | some signature =>
      rw [looseSignature?] at hloose
      rw [hloose] at h
      obtain ⟨rfl, hmore⟩ := Prod.mk.inj h
      exact ⟨(Except.ok.inj hmore).symm, rfl, rfl⟩
    | none =>
      rw [looseSignature?] at hloose
      rw [hloose] at h
      obtain ⟨rfl, hmore⟩ := Prod.mk.inj h
      exact ⟨(Except.ok.inj hmore).symm, rfl, (List.append_nil _).symm⟩

/-- The state has taken the parts: its blocks have the outlines of the parts' own, merged, the
signatures are filed where the parts landed, and the first call and the first block that is not
reasoning are known. -/
structure Files (ps : List Json) (blocks : List Block) (events : List Event) (s : StreamState) :
    Prop where
  outlines : blocks.map outline = (ps.filterMap streamed?).map outline
  tracks : Tracks False blocks events s
  signatures : s.signatures = filed (landing ps) ps
  firstCall : s.firstCall = (merged blocks).findIdx? Block.isToolCall
  firstOther : s.firstOther = (merged blocks).findIdx? fun b => !b.isThinking

theorem Files.outlines_merged {ps : List Json} {blocks : List Block}
    (h : Files ps blocks events s) :
    (merged blocks).map outline = (streamedBlocks ps).map outline :=
  map_outline_merged_congr h.outlines

theorem Files.next_eq {ps : List Json} {blocks : List Block} (h : Files ps blocks events s) :
    s.envelope.next = (streamedBlocks ps).length := by
  rw [h.tracks.holds.next, List.length_map]
  exact length_merged_congr h.outlines

/-- A part without a block of its own leaves the blocks as they are. -/
theorem addBlock_eq_self {block : Option Block}
    (h : block.filter (fun b => !b.isToolResult) = none) (s : StreamState) :
    s.addBlock block = (s, none, []) := by
  cases block with
  | none => rfl
  | some b =>
    cases b with
    | toolResult r => rfl
    | _ => cases h

/-- What a stream makes of a part has the outline of what was read. -/
theorem map_outline_streamed? {freshId : String} {part : Json} {block : Option Block}
    (h : decodePart freshId part = .ok block) :
    (streamed? part).map outline = (block.filter fun b => !b.isToolResult).map outline := by
  have hfilter (block : Option Block) : (block.filter fun b => !b.isToolResult).map outline
      = (block.map outline).filter fun b => !b.isToolResult := by
    cases block with
    | none => rfl
    | some b => cases b <;> rfl
  rw [streamed?, hfilter, hfilter, map_outline_block? h]

/-- The signature of one more part is filed where the part lands. -/
theorem filed_landing_concat (ps : List Json) (part : Json) :
    filed (landing ps) ps
        ++ (looseSignature? part).toList.map (landing (ps ++ [part]) ps.length, ·)
      = filed (landing (ps ++ [part])) (ps ++ [part]) := by
  have hbefore : filed (landing (ps ++ [part])) ps = filed (landing ps) ps :=
    filed_congr fun k hk => landing_append hk [part]
  rw [filed_concat, hbefore]

/-- A part without a block changes nothing but the signatures. -/
theorem Files.passOver {ps : List Json} {blocks : List Block} {part : Json}
    (h : Files ps blocks events s) (hnone : streamed? part = none) :
    Files (ps ++ [part]) blocks events { s with
      signatures := s.signatures ++ (looseSignature? part).toList.map (s.envelope.next, ·) } := by
  refine ⟨?_, Follows.same h.tracks rfl rfl, ?_, h.firstCall, h.firstOther⟩
  · rw [List.filterMap_append, List.filterMap_cons_none hnone, List.filterMap_nil, List.append_nil,
      h.outlines]
  · have hnext : s.envelope.next = landing (ps ++ [part]) ps.length := by
      rw [landing_concat_length, streamedBlocks_concat_none hnone, hnone]
      exact h.next_eq
    rw [h.signatures, hnext]
    exact filed_landing_concat ps part

/-- A part with a block: the block is merged, and noted and signed where it lands. -/
theorem Files.addBlock {ps : List Json} {blocks : List Block} {part : Json} {own b : Block}
    (h : Files ps blocks events s) (hown : streamed? part = some own)
    (hsame : outline own = outline b) (hclose : CanClose b) :
    Files (ps ++ [part]) (blocks ++ [b]) (events ++ (s.addBlock (some b)).2.2)
      { (s.addBlock (some b)).1 with
        signatures := s.signatures ++ (looseSignature? part).toList.map
          ((s.addBlock (some b)).2.1.getD (s.addBlock (some b)).1.envelope.next, ·) } := by
  have hnotes := addBlock_notes s (some b)
  have hlanded := Follows.landed_addBlock h.tracks hclose
  have hadds := adds_addMerged (merged blocks) b
  have houtlines : (blocks ++ [b]).map outline
      = ((ps ++ [part]).filterMap streamed?).map outline := by
    rw [List.map_append, List.filterMap_append, List.filterMap_cons_some hown, List.map_append,
      h.outlines]
    simp [hsame]
  have hlength : (addMerged (merged blocks) b).length = (streamedBlocks (ps ++ [part])).length := by
    rw [← merged_concat]
    exact length_merged_congr houtlines
  refine ⟨houtlines, ?_, ?_, ?_, ?_⟩
  · rw [Tracks, merged_concat]
    exact (Follows.addBlock h.tracks hclose).same rfl rfl
  · rw [h.signatures, ← filed_landing_concat]
    cases hloose : looseSignature? part with
    | none => rfl
    | some signature =>
      have hother : b.isThinking = false := by
        rw [← isThinking_outline, ← hsame, isThinking_outline]
        exact not_isThinking_of_looseSignature? hown hloose
      rw [hlanded, hother, landing_concat_length, hown, hlength]
      rfl
  · rw [merged_concat, hadds.findIdx? keptByJoin_isToolCall, ← h.firstCall]
    refine hnotes.firstCall.trans ?_
    cases hcall : b.isToolCall with
    | true =>
      rw [hlanded, isThinking_of_isToolCall hcall]
      simp [hcall]
    | false => simp [hcall]
  · rw [merged_concat, hadds.findIdx? keptByJoin_not_isThinking, ← h.firstOther]
    refine hnotes.firstOther.trans ?_
    rw [hlanded]
    cases b.isThinking <;> rfl

/-- One more part is taken. -/
theorem Files.addPart {ps : List Json} {blocks : List Block} {part : Json}
    (h : Files ps blocks events s) (hdepth : part.depth ≤ Json.maxDepth)
    (hs : addPart part s = (s', .ok more)) :
    ∃ blocks', Files (ps ++ [part]) blocks' (events ++ more) s' := by
  obtain ⟨block, hblock, rfl, hstate, hsignatures⟩ := exists_of_addPart hs
  have houtline := map_outline_streamed? hblock
  rw [(addBlock_notes s block).signatures] at hsignatures
  rw [hstate, hsignatures]
  cases hkept : block.filter (fun b => !b.isToolResult) with
  | none =>
    rw [hkept] at houtline
    rw [addBlock_eq_self hkept, List.append_nil]
    exact ⟨blocks, h.passOver (Option.map_eq_none_iff.1 houtline)⟩
  | some b =>
    obtain ⟨rfl, hresult⟩ : block = some b ∧ b.isToolResult = false := by
      simpa using Option.filter_eq_some_iff.1 hkept
    -- The part's own block is the one that was read, but for the id of a call.
    rw [hkept] at houtline
    obtain ⟨own, hown, hsame⟩ := Option.map_eq_some_iff.1 houtline
    exact ⟨blocks ++ [b],
      h.addBlock hown hsame (canClose_of_decodePart hblock hdepth (by simpa using hresult))⟩

/-! ## Chunks -/

/-- The parts have landed. -/
def Landed (ps : List Json) (events : List Event) (s : StreamState) : Prop :=
  ∃ blocks, Files ps blocks events s

/-- The parts so far have landed; before the first chunk nothing has happened. -/
def Taken (ids : CallIds) (ps : List Json) (events : List Event) (s : StreamState) : Prop :=
  (ps = [] ∧ events = [] ∧ s = { ids }) ∨ Landed ps events s

variable {ps : List Json}

/-- What is known about the message as a whole may change. -/
theorem Landed.envelope (h : Landed ps events s) {e : Envelope} (he : e.SameBlocks s.envelope) :
    Landed ps events { s with envelope := e } := by
  obtain ⟨blocks, houtlines, htracks, hsignatures, hcall, hother⟩ := h
  exact ⟨blocks, houtlines, ⟨he.started.trans htracks.started, False.elim,
    htracks.holds.congr he, htracks.whole, he.opened.trans htracks.opened, htracks.run⟩,
    hsignatures, hcall, hother⟩

theorem start_lands (ids : CallIds) (ps : List Json) :
    Leads (Taken ids ps) (Landed ps) start := by
  refine leads_emit fun events s h => ?_
  rcases h with ⟨rfl, rfl, rfl⟩ | h
  · obtain ⟨hholds, hstarted⟩ := (Envelope.holds_new .gemini).start
    exact ⟨[], rfl, ⟨hstarted, False.elim, hholds, by simp [merged], rfl, rfl⟩, rfl, rfl, rfl⟩
  · obtain ⟨blocks, hfiles⟩ := h
    have hstart : s.envelope.start = (s.envelope, []) := if_pos hfiles.tracks.started
    simp only [hstart, List.append_nil]
    exact ⟨blocks, hfiles⟩

theorem noteUsage_lands (chunk : Json) : Keeps (Landed ps) (noteUsage chunk) := by
  unfold noteUsage
  split
  · split
    · exact leads_update fun events s h => h.envelope (.of_eq rfl rfl rfl rfl)
    · exact leads_fail
  · exact leads_skip fun _ _ h => h

theorem noteFinish_lands (candidate : Json) : Keeps (Landed ps) (noteFinish candidate) := by
  unfold noteFinish
  split
  · exact leads_update fun events s h => h.envelope (.of_eq rfl rfl rfl rfl)
  · exact leads_skip fun _ _ h => h

theorem noteBlocked_lands (chunk : Json) : Keeps (Landed ps) (noteBlocked chunk) := by
  unfold noteBlocked
  split
  case h_1 reason _ =>
    refine leads_emit fun events s h => Landed.envelope ?_ (.of_eq rfl rfl rfl rfl)
    obtain ⟨blocks, houtlines, htracks, hsignatures, hcall, hother⟩ := h
    have hnoted := htracks.holds.note htracks.started
      (x := .metadata "block_reason" (.string reason)) rfl rfl
    exact ⟨blocks, houtlines, ⟨htracks.started, False.elim, hnoted, htracks.whole, htracks.opened,
      htracks.run⟩, hsignatures, hcall, hother⟩
  case h_2 => exact leads_skip fun _ _ h => h

theorem addParts_land {more : List Json} (h : ∀ part ∈ more, part.depth ≤ Json.maxDepth) :
    Leads (Landed ps) (Landed (ps ++ more)) (sequence (more.map addPart)) := by
  have hparts := leads_sequence_map (f := addPart) (P := fun before => Landed (ps ++ before))
    fun before part after (hsplit : more = before ++ part :: after) => by
      rw [← List.append_assoc]
      rintro events s s' later ⟨blocks, hfiles⟩ hs
      exact hfiles.addPart (h part (by simp [hsplit])) hs
  rwa [List.append_nil] at hparts

/-- The provider has reported an error, or what is said holds. -/
def ReportedOr (I : List Event → StreamState → Prop) (events : List Event) (s : StreamState) :
    Prop :=
  (∃ kind message, .failure kind message ∈ events) ∨ I events s

theorem leads_reportedOr {I J : List Event → StreamState → Prop} {step : Step StreamState}
    (h : Leads I (ReportedOr J) step) : Leads (ReportedOr I) (ReportedOr J) step := by
  intro events s s' more hI hs
  rcases hI with ⟨kind, message, hmem⟩ | hI
  · exact .inl ⟨kind, message, List.mem_append_left _ hmem⟩
  · exact h events s s' more hI hs

/-- The parts of a chunk land, unless it reports an error. -/
theorem addChunk_takes (ids : CallIds) (ps : List Json) {chunk : Json}
    (hdepth : chunk.depth ≤ Json.maxDepth) :
    Leads (Taken ids ps) (ReportedOr (Taken ids (ps ++ parts chunk))) (addChunk chunk) := by
  unfold addChunk
  split
  case h_1 failure hfailure =>
    obtain ⟨kind, message, rfl⟩ := exists_of_failure? hfailure
    exact leads_event fun events s _ => .inl ⟨kind, message, by simp⟩
  case h_2 =>
    refine leads_sequence_cons (start_lands ids ps) (leads_sequence_cons (noteUsage_lands chunk)
      (leads_sequence_cons (J := Landed (ps ++ parts chunk)) ?_
        (leads_skip fun _ _ h => .inr (.inr h))))
    split
    case h_1 hnone =>
      have hempty : parts chunk = [] := by
        rw [parts, firstCandidate, hnone]
        rfl
      rw [hempty, List.append_nil]
      exact noteBlocked_lands chunk
    case h_2 candidate hcandidate =>
      have hgiven : ((candidate.get "content").get "parts").elements?.getD [] = parts chunk := by
        rw [parts, firstCandidate, hcandidate]
        rfl
      rw [← hgiven]
      exact (addParts_land fun part hpart =>
        (depth_le_of_mem_candidate hcandidate hpart).trans hdepth).andThen
        (noteFinish_lands candidate)

theorem step_takes (ids : CallIds) (ps : List Json) (frame : Frame) :
    Leads (ReportedOr (Taken ids ps)) (ReportedOr (Taken ids (ps ++ frameParts frame)))
      (step frame) := by
  refine leads_reportedOr ?_
  unfold step Chunk.parse frameParts
  cases hread : Json.read? frame.data with
  | none => exact leads_fail
  | some chunk => exact addChunk_takes ids ps (Json.depth_le_of_read? hread)

/-- The parts of all frames land, unless an error is reported. -/
theorem steps_take (ids : CallIds) (frames : List Frame) :
    Leads (ReportedOr (Taken ids [])) (ReportedOr (Taken ids (frames.flatMap frameParts)))
      (sequence (frames.map step)) := by
  refine leads_sequence_map (P := fun before => ReportedOr (Taken ids (before.flatMap frameParts)))
    fun before frame after _ => ?_
  rw [List.flatMap_append, List.flatMap_singleton]
  exact step_takes ids _ frame

/-! ## Events -/

/-- Events of chunks neither end the message nor tell its signatures, and it is the model's. -/
def IsInterim : Event → Prop
  | .messageStart role _ => role = .assistant
  | .metadata key _ => key ≠ signatureKey
  | .messageStop => False
  | _ => True

theorem isInterim_of_index? {e : Event} (h : e.index?.isSome) : IsInterim e := by
  cases e <;> trivial

/-- Nothing but events of chunks has come. -/
def Interim (events : List Event) (_ : StreamState) : Prop := ∀ e ∈ events, IsInterim e

theorem leads_emit_interim {f : StreamState → StreamState × List Event}
    (h : ∀ s, ∀ e ∈ (f s).2, IsInterim e) : Keeps Interim (emit f) := by
  refine leads_emit fun events s hI e he => ?_
  rcases List.mem_append.1 he with he | he
  · exact hI e he
  · exact h s e he

theorem start_interim : Keeps Interim start := by
  refine leads_emit_interim fun s e he => ?_
  have hstart : e ∈ s.envelope.start.2 := he
  rw [Envelope.start] at hstart
  split at hstart
  · cases hstart
  · rw [List.mem_singleton.1 hstart]
    rfl

theorem addPart_interim (part : Json) : Keeps Interim (addPart part) := by
  intro events s s' more hI hs e he
  obtain ⟨block, -, rfl, -⟩ := exists_of_addPart hs
  rcases List.mem_append.1 he with he | he
  · exact hI e he
  · exact isInterim_of_index? ((addBlock_notes s block).events e he)

theorem addChunk_interim (chunk : Json) : Keeps Interim (addChunk chunk) := by
  unfold addChunk
  split
  case h_1 failure hfailure =>
    obtain ⟨kind, message, rfl⟩ := exists_of_failure? hfailure
    exact leads_emit_interim fun s e he => by
      rw [List.mem_singleton.1 he]
      trivial
  case h_2 =>
    have husage : Keeps Interim (noteUsage chunk) := by
      unfold noteUsage
      split
      · split
        · exact leads_update fun _ _ h => h
        · exact leads_fail
      · exact leads_skip fun _ _ h => h
    refine leads_sequence_cons start_interim (leads_sequence_cons husage
      (leads_sequence_cons (J := Interim) ?_ (leads_skip fun _ _ h => h)))
    split
    case h_1 =>
      unfold noteBlocked
      split
      · exact leads_emit_interim fun s e he => by
          rw [List.mem_singleton.1 he]
          exact (by decide : "block_reason" ≠ signatureKey)
      · exact leads_skip fun _ _ h => h
    case h_2 candidate _ =>
      refine (leads_sequence fun step hstep => ?_).andThen ?_
      · obtain ⟨part, -, rfl⟩ := List.mem_map.1 hstep
        exact addPart_interim part
      · unfold noteFinish
        split
        · exact leads_update fun _ _ h => h
        · exact leads_skip fun _ _ h => h

theorem step_interim (frame : Frame) : Keeps Interim (step frame) := by
  unfold step
  split
  · exact leads_fail
  · exact addChunk_interim _

theorem steps_interim (frames : List Frame) : Keeps Interim (sequence (frames.map step)) := by
  refine leads_sequence fun step hstep => ?_
  obtain ⟨frame, -, rfl⟩ := List.mem_map.1 hstep
  exact step_interim frame

/-! ## Replies -/

/-- What comes of the blocks when they close. -/
theorem exists_finals {blocks : List Block} (h : ∀ b ∈ blocks, CanClose b) :
    ∃ finals : List Block, (blocks.map openForm).map (OpenBlock.close .gemini)
      = finals.map fun b => .ok (some b) := by
  induction blocks with
  | nil => exact ⟨[], rfl⟩
  | cons b rest ih =>
    obtain ⟨⟨b', hb'⟩, hrest⟩ := List.forall_mem_cons.1 h
    obtain ⟨finals, hfinals⟩ := ih hrest
    exact ⟨b' :: finals, by rw [List.map_cons, List.map_cons, hb', hfinals, List.map_cons]⟩

/-- The events of a whole stream: those of the chunks, the signatures, and the end of the message
but for its very last event. -/
def wholeEvents (s : StreamState) (events : List Event) : List Event :=
  events ++ s.signatureEvents ++ s.envelope.endEvents

theorem Files.content_eq {blocks : List Block} (h : Files ps blocks events s) {finals : List Block}
    (hfinals : ((merged blocks).map openForm).map (OpenBlock.close .gemini)
      = finals.map fun b => .ok (some b)) :
    (Transcript.reply .gemini (s.wholeEvents events)).message.withoutUsage.content = finals :=
  ((Follows.holds_signatureEvents h.tracks).bears_endEvents hfinals).filter_content_zipIdx

/-- Behind the events of the chunks come only inner ones. -/
theorem mem_wholeEvents {e : Event} (h : e ∈ s.wholeEvents events) : e ∈ events ∨ e.isInner := by
  rcases List.mem_append.1 h with h | h
  · rcases List.mem_append.1 h with h | h
    · exact .inl h
    · rw [signatureEvents, Option.toList_map] at h
      obtain ⟨value, -, rfl⟩ := List.mem_map.1 h
      exact .inr rfl
  · exact .inr (s.envelope.isInner_endEvents e h)

theorem messageStop_notMem_wholeEvents (h : Interim events s) :
    .messageStop ∉ s.wholeEvents events := by
  intro hmem
  rcases mem_wholeEvents hmem with hmem | hinner
  · exact h _ hmem
  · cases hinner

theorem Interim.role_eq (h : Interim events s) :
    (Transcript.reply .gemini (s.wholeEvents events)).message.role = .assistant := by
  show ((s.wholeEvents events).findSome? Event.sender?).getD .assistant = .assistant
  cases hfound : (s.wholeEvents events).findSome? Event.sender? with
  | none => rfl
  | some role =>
    obtain ⟨e, he, hsender⟩ := List.exists_of_findSome?_eq_some hfound
    cases e with
    | messageStart role' usage =>
      rcases mem_wholeEvents he with he | hinner
      · rw [← Option.some.inj hsender]
        exact h _ he
      · cases hinner
    | _ => cases hsender

/-- The metadata are the notes of the chunks, and the signatures behind them. -/
theorem metadata_wholeEvents (s : StreamState) (events : List Event) :
    Transcript.metadata (s.wholeEvents events) = .ofList (events.filterMap Event.note?
      ++ ((signatureValue? s.signatures (s.firstCall.or s.firstOther)).map
        (signatureKey, ·)).toList) := by
  have hend : s.envelope.endEvents.filterMap Event.note? = [] := by
    simp [Envelope.endEvents, List.filterMap_map, Event.note?, Function.comp_def]
  rw [Transcript.metadata, wholeEvents, List.filterMap_append, List.filterMap_append, hend,
    List.append_nil, signatureEvents]
  cases signatureValue? s.signatures (s.firstCall.or s.firstOther) <;> rfl

theorem Interim.key_ne (h : Interim events s) :
    ∀ note ∈ events.filterMap Event.note?, note.1 ≠ signatureKey := by
  intro note hnote
  obtain ⟨e, he, hsome⟩ := List.mem_filterMap.1 hnote
  have hinterim := h e he
  cases e with
  | metadata key value =>
    rw [← Option.some.inj hsome]
    exact hinterim
  | _ => cases hsome

/-- The signatures are in the metadata as they are told at the end. -/
theorem Interim.find?_metadata (h : Interim events s) :
    (Transcript.reply .gemini (s.wholeEvents events)).message.metadata.find? signatureKey
      = signatureValue? s.signatures (s.firstCall.or s.firstOther) := by
  have hsequence (sequence : Option String) (t : Fields) :
      (t.insertAll (sequence.map fun s => ("stop_sequence", Json.string s)).toList).find?
        signatureKey = t.find? signatureKey := by
    cases sequence with
    | none => rfl
    | some s =>
      have hkey : signatureKey ≠ "stop_sequence" := by decide
      exact Table.find?_insert_of_ne t hkey _
  refine (hsequence _ _).trans ?_
  rw [metadata_wholeEvents]
  cases signatureValue? s.signatures (s.firstCall.or s.firstOther) with
  | none =>
    rw [Option.map_none, Option.toList_none, List.append_nil]
    exact Table.find?_ofList_eq_none h.key_ne
  | some value =>
    rw [Option.map_some, Option.toList_some, Table.find?_ofList_concat]
    exact if_pos rfl

/-- The state after all frames, and the reply that comes of it. -/
structure Completes (ids : CallIds) (frames : List (Except Error Frame)) (reply : Reply)
    (s : StreamState) (blocks : List Block) : Prop where
  steps : ∃ (fs : List Frame) (events : List Event), frames = fs.map .ok ∧
    sequence (fs.map step) { ids } = (s, .ok events)
  files : ∃ events, Files (streamParts frames) blocks events s
  content : ((merged blocks).map openForm).map (OpenBlock.close .gemini)
    = reply.message.withoutUsage.content.map fun b => .ok (some b)
  role : reply.message.role = .assistant
  metadata : reply.message.metadata.find? signatureKey
    = signatureValue? s.signatures (s.firstCall.or s.firstOther)

/-- At the end a state that has taken the parts gives the rest of the whole stream. -/
theorem Files.eq_of_finish {blocks : List Block} (h : Files ps blocks events s)
    (hs : finish s = (s', .ok more)) :
    events ++ more = s.wholeEvents events ++ [.messageStop] := by
  have htruncated : s.envelope.isTruncated = false := by
    by_contra htrue
    rw [Bool.not_eq_false] at htrue
    simp [finish, choose, htrue, fail] at hs
  rw [finish_eq h.tracks.started h.tracks.holds.unfinished htruncated] at hs
  obtain rfl := Except.ok.inj (Prod.mk.inj hs).2
  simp only [wholeEvents, List.append_assoc]

end StreamState

open StreamState Step

/-- A stream that gives a reply has been taken to its end, and the reply is what the events tell
that come before the end of the message. -/
theorem exists_of_readStream_eq_ok {ids : CallIds} {stop : StopRequest} {ending : Ending}
    {frames : List (Except Error Frame)} {reply : Reply}
    (h : (readStream .gemini ids stop ending frames).result = .ok reply) :
    ∃ (fs : List Frame) (s s' : StreamState) (events more early rest : List Event),
      frames = fs.map .ok ∧ sequence (fs.map step) { ids } = (s, .ok events) ∧
      finish s = (s', .ok more) ∧ events ++ more = early ++ .messageStop :: rest ∧
      (∀ kind message, .failure kind message ∉ early) ∧
      reply = Transcript.reply .gemini early := by
  obtain ⟨fs, behind, last, s, s', events, first, later, hframes, hlast, hsteps, hgiven, hgoing, -,
      hreply⟩ := exists_last_of_readStream Translation.gemini rfl (fun _ _ => rfl) (fun _ => rfl) h
  have hstop {frame : Frame} : step frame s ≠ (s', .ok (first ++ .messageStop :: later)) :=
    fun hs => step_interim frame [] s s' _ (by simp [Interim]) hs .messageStop (by simp)
  rcases hlast with ⟨rfl, rfl⟩ | ⟨frame, more, -, rfl⟩
  · refine ⟨fs, s, s', events, _, events ++ first, later, by simpa using hframes, hsteps, hgiven,
      (List.append_assoc ..).symm, fun kind message hmem => ?_, hreply⟩
    cases hgoing _ hmem
  · exact absurd hgiven hstop

/-- A stream that gives a reply has taken its parts. -/
theorem exists_of_readStream {ids : CallIds} {stop : StopRequest} {ending : Ending}
    {frames : List (Except Error Frame)} {reply : Reply}
    (h : (readStream .gemini ids stop ending frames).result = .ok reply) :
    ∃ s blocks, Completes ids frames reply s blocks := by
  obtain ⟨fs, s, s', events, more, early, rest, rfl, hsteps, hfinish, hwhole, hnofailure, rfl⟩ :=
    exists_of_readStream_eq_ok h
  have hevents : Interim events s := steps_interim fs [] { ids } s events (by simp [Interim]) hsteps
  have hstop : .messageStop ∉ events := fun hmem => hevents _ hmem
  rcases steps_take ids fs [] { ids } s events (.inr (.inl ⟨rfl, rfl, rfl⟩)) hsteps with
    ⟨kind, message, hfailure⟩ | ⟨-, rfl, rfl⟩ | ⟨blocks, hfiles⟩
  · -- An error that was reported would have been told before the end.
    refine absurd ?_ (hnofailure kind message)
    rcases List.append_eq_append_iff.1 hwhole with ⟨c, rfl, -⟩ | ⟨c, rfl, hrest⟩
    · exact List.mem_append_left _ hfailure
    · cases c with
      | nil => simpa using hfailure
      | cons e c =>
        obtain rfl := (List.cons.inj hrest).1
        exact absurd (by simp) hstop
  · -- Before the first chunk there is nothing to end.
    have hnothing : finish { ids } = ({ ids }, .ok []) := rfl
    obtain rfl := Except.ok.inj (Prod.mk.inj (hnothing.symm.trans hfinish)).2
    cases early <;> cases hwhole
  · rw [List.nil_append] at hfiles
    rw [hfiles.eq_of_finish hfinish] at hwhole
    obtain ⟨rfl, -⟩ := (List.append_cons_inj_of_notMem
      (messageStop_notMem_wholeEvents hevents) List.not_mem_nil).1 hwhole
    obtain ⟨finals, hfinals⟩ := exists_finals hfiles.tracks.whole
    refine ⟨s, blocks, ⟨fs, events, rfl, hsteps⟩, ⟨events, ?_⟩, ?_, hevents.role_eq,
      hevents.find?_metadata⟩
    · rw [streamParts_map_ok]
      exact hfiles
    · rw [hfiles.content_eq hfinals]
      exact hfinals

end ChatWire.Gemini
