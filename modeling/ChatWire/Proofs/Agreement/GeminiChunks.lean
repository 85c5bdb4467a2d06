import ChatWire.Proofs.Agreement.Blocks
import ChatWire.Proofs.Message.Counts
import ChatWire.Proofs.Stream.GeminiLedger
import ChatWire.Proofs.Stream.Success
import ChatWire.Proofs.Stream.Truncation

/-!
# What chunks of parts say together

Parts that follow each other may go into one block: texts do, and reasoning goes with the reasoning
before it up to a signature. Which blocks come of a list of parts is told without a state
(`Gemini.merged`), and where the chunks begin and end does not enter into it. A translation that
takes the chunks one by one has just these blocks (`Gemini.StreamState.Tracks`), and the reply is
made of them (`Gemini.readReply_of_chunks`). Only a report of more output than a count can be stops
it (`Gemini.readReply_of_report`).
-/

namespace ChatWire.Gemini

/-! ## Merging -/

/-- Two blocks as one: a text goes on with the text behind it, and reasoning that is not sealed with
the reasoning behind it, whose signature it takes. -/
def join? : Block → Block → Option Block
  | .text s, .text more => some (.text (s ++ more))
  | .thinking t, .thinking more =>
    if t.signature = "" then some (.thinking ⟨t.text ++ more.text, more.signature⟩) else none
  | _, _ => none

/-- How two blocks are one. -/
inductive Joins : Block → Block → Block → Prop
  | text (s more : String) : Joins (.text s) (.text more) (.text (s ++ more))
  | thinking (s : String) (more : Thinking) :
      Joins (.thinking ⟨s, ""⟩) (.thinking more) (.thinking ⟨s ++ more.text, more.signature⟩)

theorem Joins.of_join? {a b joined : Block} (h : join? a b = some joined) : Joins a b joined := by
  unfold join? at h
  split at h
  case h_1 s more =>
    obtain rfl := Option.some.inj h
    exact .text s more
  case h_2 t more =>
    split at h
    case isTrue hopen =>
      obtain rfl := Option.some.inj h
      obtain ⟨s, signature⟩ := t
      obtain rfl : signature = "" := hopen
      exact .thinking s more
    case isFalse => cases h
  case h_3 => cases h

/-- Adds a block behind others, or to the last of them. -/
def addMerged (blocks : List Block) (b : Block) : List Block :=
  match blocks.getLast?.bind (join? · b) with
  | some joined => blocks.dropLast ++ [joined]
  | none => blocks ++ [b]

/-- The blocks, those that follow each other merged where they can be. -/
def merged (blocks : List Block) : List Block := blocks.foldl addMerged []

theorem addMerged_concat (before : List Block) (last b : Block) :
    addMerged (before ++ [last]) b = match join? last b with
      | some joined => before ++ [joined]
      | none => before ++ [last] ++ [b] := by
  rw [addMerged, List.getLast?_concat, List.dropLast_concat]
  rfl

theorem merged_concat (blocks : List Block) (b : Block) :
    merged (blocks ++ [b]) = addMerged (merged blocks) b := by
  rw [merged, List.foldl_append]
  rfl

example : merged [.thinking ⟨"Let", ""⟩, .thinking ⟨" me", "seal"⟩, .thinking ⟨"see", ""⟩,
    .text "Look", .text "ing."]
      = [.thinking ⟨"Let me", "seal"⟩, .thinking ⟨"see", ""⟩, .text "Looking."] := by
  decide

/-! ## What a chunk says -/

/-- The first candidate of a chunk, null where there is none. -/
def firstCandidate (chunk : Json) : Json := (chunk.get "candidates").first?.getD .null

/-- The parts of the first candidate. -/
def parts (chunk : Json) : List Json :=
  (((firstCandidate chunk).get "content").get "parts").elements?.getD []

/-- Whether a chunk has a word for why the message ends. -/
def hasFinish (chunk : Json) : Bool :=
  (textField? (firstCandidate chunk) "finish_reason" "finishReason").isSome

/-- The output that a chunk reports, its two parts added up; zero where it reports none. -/
def reported (chunk : Json) : Nat :=
  ((field? chunk "usage_metadata" "usageMetadata").map outputSum).getD 0

/-- A part that may be streamed: it can be read and is no tool result, and if it is a call, then its
id stands there and the text of its arguments is read as these arguments. -/
structure IsStreamable (part : Json) : Prop where
  accepted : ∃ freshId block, decodePart freshId part = .ok block
  notResult : ∀ freshId r, decodePart freshId part ≠ .ok (some (.toolResult r))
  ownId : ∀ freshId c, decodePart freshId part = .ok (some (.toolCall c)) →
    ∃ call, field? part "function_call" "functionCall" = some call ∧ call.get "id" = .string c.id
  readBack : ∀ freshId c, decodePart freshId part = .ok (some (.toolCall c)) →
    Json.read? c.arguments.toText = some c.arguments

/-- The chunks of a stream: no errors, parts that may be streamed, and somewhere a word for why the
message ends. -/
structure IsStreamed (chunks : List Json) : Prop where
  errors : ∀ chunk ∈ chunks, chunk.present? "error" = none
  parts : ∀ part ∈ chunks.flatMap parts, IsStreamable part
  ended : ∃ chunk ∈ chunks, hasFinish chunk

theorem IsStreamable.decodePart_eq {part : Json} (h : IsStreamable part) (freshId : String) :
    decodePart freshId part = .ok (block? part) := by
  obtain ⟨givenId, block, hblock⟩ := h.accepted
  have hany : ∀ otherId, decodePart otherId part = .ok block := by
    intro otherId
    refine decodePart_congr hblock fun call c hcall hc => ?_
    subst hc
    obtain ⟨call', hcall', hid⟩ := h.ownId givenId c hblock
    obtain rfl : call = call' := Option.some.inj (hcall.symm.trans hcall')
    cases Gives.of_decodePart hblock with
    | toolCall call' _ _ hcall' hread =>
      obtain rfl : call = call' := Option.some.inj (hcall.symm.trans hcall')
      unfold decodeCall at hread ⊢
      rwa [hid] at hread ⊢
  rw [hany, block?, hany]
  rfl

/-! ## The blocks of the stream -/

/-- The block before it closes. -/
def openForm : Block → OpenBlock
  | .text s => .text s
  | .thinking t => .thinking t.text t.signature
  | .toolCall c => .toolCall c.id c.name c.arguments.toText
  | .attachment a => .attachment a
  | block => .unknown block.kindName

/-- Something comes of the block's open form. -/
def CanClose (b : Block) : Prop := ∃ b', (openForm b).close .gemini = .ok (some b')

/-- The block is what comes of its open form. -/
def CanStream (b : Block) : Prop := (openForm b).close .gemini = .ok (some b)

theorem CanStream.canClose {b : Block} (h : CanStream b) : CanClose b := ⟨b, h⟩

theorem CanStream.merged {blocks : List Block} (h : ∀ b ∈ blocks, CanStream b) :
    ∀ b ∈ merged blocks, CanStream b := by
  induction blocks using List.reverseRecOn with
  | nil => simp [Gemini.merged]
  | append_singleton blocks b ih =>
    have hbefore := ih fun c hc => h c (List.mem_append_left _ hc)
    have hlast := h b (by simp)
    rw [merged_concat]
    rcases List.eq_nil_or_concat' (Gemini.merged blocks) with hnil | ⟨before, last, hconcat⟩
    · rw [hnil]
      simpa [addMerged] using hlast
    · rw [hconcat] at hbefore ⊢
      rw [addMerged_concat]
      have hfront : ∀ c ∈ before, CanStream c := fun c hc => hbefore c (List.mem_append_left _ hc)
      split
      case h_1 joined hjoined =>
        have hcan : CanStream joined := by cases Joins.of_join? hjoined <;> rfl
        simpa [or_imp, forall_and] using ⟨hfront, hcan⟩
      case h_2 => simpa [or_imp, forall_and] using ⟨hfront, hbefore last (by simp), hlast⟩

theorem IsStreamable.canStream {part : Json} (h : IsStreamable part) {b : Block}
    (hb : block? part = some b) : CanStream b := by
  have hread := h.decodePart_eq ""
  rw [hb] at hread
  cases Gives.of_decodePart hread with
  | toolCall call c =>
    have harguments := OpenBlock.readArguments?_of_read? (h.readBack "" c hread)
    rw [CanStream, openForm, OpenBlock.close, harguments]
  | toolResult r => exact absurd hread (h.notResult "" r)
  | _ => rfl

/-- The kind of a block that a run may go on with. -/
def kindOf? : Block → Option RunKind
  | .text _ => some .text
  | .thinking t => if t.signature = "" then some .thought else none
  | _ => none

/-- The run that the next part may go on with. -/
def runOf (blocks : List Block) : Option (RunKind × Nat) :=
  (blocks.getLast?.bind kindOf?).map fun kind => (kind, blocks.length - 1)

theorem runOf_concat (before : List Block) (b : Block) :
    runOf (before ++ [b]) = (kindOf? b).map fun kind => (kind, before.length) := by
  rw [runOf, List.getLast?_concat, List.length_append, List.length_singleton, Nat.add_sub_cancel]
  rfl

/-- The block that a run begins with. -/
def RunKind.empty : RunKind → Block
  | .text => .text ""
  | .thought => .thinking ⟨"", ""⟩

/-- The block `b` behind `before` is the one that a part of the kind goes to: the last of the
blocks, if that is of the kind, and else an empty one behind them. -/
inductive IsSeat (kind : RunKind) : List Block → List Block → Block → Prop
  | goesOn {before : List Block} {b : Block} (h : kindOf? b = some kind) :
      IsSeat kind (before ++ [b]) before b
  | begins {blocks : List Block} (h : ∀ i, runOf blocks ≠ some (kind, i)) :
      IsSeat kind blocks blocks kind.empty

theorem IsSeat.of_nil (kind : RunKind) : IsSeat kind [] [] kind.empty :=
  .begins fun _ h => by cases h

theorem IsSeat.of_concat {kind : RunKind} {last : Block} (h : kindOf? last ≠ some kind)
    (before : List Block) : IsSeat kind (before ++ [last]) (before ++ [last]) kind.empty := by
  refine .begins fun i hi => ?_
  rw [runOf_concat] at hi
  obtain ⟨_, hkind, hpair⟩ := Option.map_eq_some_iff.1 hi
  obtain ⟨rfl, -⟩ := Prod.mk.inj hpair
  exact h hkind

theorem exists_textSeat (blocks : List Block) (more : String) :
    ∃ before s, IsSeat .text blocks before (.text s) ∧
      addMerged blocks (.text more) = before ++ [.text (s ++ more)] := by
  rcases List.eq_nil_or_concat' blocks with rfl | ⟨before, last, rfl⟩
  · exact ⟨[], "", .of_nil .text, by simp [addMerged]⟩
  · rw [addMerged_concat]
    cases last with
    | text s => exact ⟨before, s, .goesOn rfl, rfl⟩
    | thinking t =>
      have hkind : kindOf? (.thinking t) ≠ some .text := by
        rw [kindOf?]
        split <;> simp
      exact ⟨_, "", .of_concat hkind before, by simp [join?]⟩
    | _ => exact ⟨_, "", .of_concat (by simp [kindOf?]) before, by simp [join?]⟩

theorem exists_thoughtSeat (blocks : List Block) (t : Thinking) :
    ∃ before s, IsSeat .thought blocks before (.thinking ⟨s, ""⟩) ∧
      addMerged blocks (.thinking t) = before ++ [.thinking ⟨s ++ t.text, t.signature⟩] := by
  rcases List.eq_nil_or_concat' blocks with rfl | ⟨before, last, rfl⟩
  · exact ⟨[], "", .of_nil .thought, by simp [addMerged]⟩
  · rw [addMerged_concat]
    cases last with
    | thinking open' =>
      obtain ⟨s, signature⟩ := open'
      -- reasoning that is sealed does not go on, whatever follows it
      by_cases hopen : signature = ""
      · subst hopen
        exact ⟨before, s, .goesOn rfl, rfl⟩
      · exact ⟨_, "", .of_concat (by simp [kindOf?, hopen]) before, by simp [join?, hopen]⟩
    | _ => exact ⟨_, "", .of_concat (by simp [kindOf?]) before, by simp [join?]⟩

theorem addMerged_of_join?_eq_none {b : Block} (h : ∀ last, join? last b = none)
    (blocks : List Block) : addMerged blocks b = blocks ++ [b] := by
  rcases List.eq_nil_or_concat' blocks with rfl | ⟨before, last, rfl⟩
  · rfl
  · rw [addMerged_concat, h]

/-! ## The state of the translation -/

namespace StreamState

open Step

/-- The state has the blocks and the run, of which only the block is open; the end mark may have
come. -/
structure Follows (ended : Prop) (blocks : List Block) (run : Option (RunKind × Nat))
    (events : List Event) (s : StreamState) : Prop where
  started : s.envelope.started = true
  terminal : ended → s.envelope.terminal = true
  holds : s.envelope.Holds .gemini events (blocks.map openForm)
  whole : ∀ b ∈ blocks, CanClose b
  opened : s.envelope.opened = (run.map Prod.snd).toList
  run : s.run = run

/-- The state has taken the parts with the blocks and nothing more. -/
def Tracks (ended : Prop) (blocks : List Block) : List Event → StreamState → Prop :=
  Follows ended (merged blocks) (runOf (merged blocks))

variable {ended : Prop} {blocks : List Block} {run : Option (RunKind × Nat)}
  {events : List Event} {s : StreamState}

theorem Follows.same {s' : StreamState} (h : Follows ended blocks run events s)
    (henvelope : s'.envelope = s.envelope) (hrun : s'.run = s.run) :
    Follows ended blocks run events s' :=
  ⟨henvelope ▸ h.started, fun hended => henvelope ▸ h.terminal hended, henvelope ▸ h.holds,
    h.whole, henvelope ▸ h.opened, hrun.trans h.run⟩

/-! ### Runs -/

theorem Follows.endRun (h : Follows ended blocks run events s) :
    Follows ended blocks none (events ++ s.endRun.2) s.endRun.1 := by
  rcases run with _ | ⟨kind, i⟩
  · have hsame : s.endRun = (s, []) := by rw [StreamState.endRun, h.run]
    rw [hsame, List.append_nil]
    exact h
  · have hopened : s.envelope.opened = [i] := h.opened
    have hopen : i ∈ s.envelope.opened := by rw [hopened]; exact List.mem_singleton_self i
    obtain ⟨block, hblock⟩ := h.holds.exists_of_mem_opened hopen
    obtain ⟨b, hb, rfl⟩ := List.getElem?_map .. ▸ hblock |> Option.map_eq_some_iff.1
    obtain ⟨b', hclose⟩ := h.whole b (List.mem_of_getElem? hb)
    have hclosed := h.holds.closeBlock hopen hblock hclose
    have hends : s.endRun = ({ s with envelope := (s.envelope.closeBlock i).1, run := none },
        (s.envelope.closeBlock i).2) := by rw [StreamState.endRun, h.run]
    rw [hends]
    refine ⟨h.started, h.terminal, hclosed, h.whole, ?_, rfl⟩
    have hnone : (s.envelope.closeBlock i).1.opened = [] := by
      simp [Envelope.closeBlock, hopened]
    exact hnone

theorem canClose_empty (kind : RunKind) : CanClose kind.empty := by
  cases kind <;> exact ⟨_, rfl⟩

theorem openForm_empty (kind : RunKind) : openForm kind.empty = .ofOpening kind.opening := by
  cases kind <;> rfl

theorem Follows.openBlock (h : Follows ended blocks none events s) (o : Opening) :
    ∃ e, s.envelope.openBlock o = (e, [.blockStart blocks.length o]) ∧ e.started = true ∧
      (ended → e.terminal = true) ∧ e.opened = [blocks.length] ∧
      e.Holds .gemini (events ++ [.blockStart blocks.length o])
        (blocks.map openForm ++ [.ofOpening o]) := by
  have hnext : s.envelope.next = blocks.length := by rw [h.holds.next, List.length_map]
  have hopens := h.holds.openBlock h.started o
  have hevents : (s.envelope.openBlock o).2 = [.blockStart blocks.length o] := by
    rw [Envelope.openBlock, hnext]
  have hopened : (s.envelope.openBlock o).1.opened = [blocks.length] := by
    rw [Envelope.openBlock, hnext, h.opened]
    rfl
  rw [hevents] at hopens
  exact ⟨_, Prod.ext rfl hevents, h.started, h.terminal, hopened, hopens⟩

theorem Follows.beginRun (h : Follows ended blocks run events s) (kind : RunKind) :
    (s.beginRun kind).2.1 = blocks.length ∧
      Follows ended (blocks ++ [kind.empty]) (some (kind, blocks.length))
        (events ++ (s.beginRun kind).2.2) (s.beginRun kind).1 := by
  have hidle := h.endRun
  obtain ⟨e, hopens, hstarted, hterminal, hopened, hholds⟩ := hidle.openBlock kind.opening
  have hnext : s.endRun.1.envelope.next = blocks.length := by
    rw [hidle.holds.next, List.length_map]
  have hbegins : s.beginRun kind = ({ s.endRun.1 with
      envelope := e, run := some (kind, blocks.length) }, blocks.length,
      s.endRun.2 ++ [.blockStart blocks.length kind.opening]) := by
    simp only [StreamState.beginRun, hopens, hnext]
  rw [hbegins]
  refine ⟨rfl, hstarted, hterminal, ?_, ?_, hopened, rfl⟩
  · rw [List.map_append, List.map_singleton, openForm_empty, ← List.append_assoc]
    exact hholds
  · intro b hb
    rcases List.mem_append.1 hb with hb | hb
    · exact h.whole b hb
    · rw [List.mem_singleton.1 hb]
      exact canClose_empty kind

/-- A part of the kind goes to its seat. -/
theorem Follows.extendRun (h : Follows ended blocks (runOf blocks) events s) {kind : RunKind}
    {before : List Block} {b : Block} (hseat : IsSeat kind blocks before b) :
    (s.extendRun kind).2.1 = before.length ∧
      Follows ended (before ++ [b]) (some (kind, before.length))
        (events ++ (s.extendRun kind).2.2) (s.extendRun kind).1 := by
  cases hseat with
  | goesOn hkind =>
    have hrunOf : runOf (before ++ [b]) = some (kind, before.length) := by
      rw [runOf_concat, hkind]
      rfl
    rw [hrunOf] at h
    have hsame : s.extendRun kind = (s, before.length, []) := by
      simp only [StreamState.extendRun, h.run, if_true]
    rw [hsame, List.append_nil]
    exact ⟨rfl, h⟩
  | begins hother =>
    have hbegins : s.extendRun kind = s.beginRun kind := by
      unfold StreamState.extendRun
      split
      case h_1 current i hs =>
        refine if_neg fun hcurrent => hother i ?_
        rw [← h.run, hs, hcurrent]
      case h_2 => rfl
    rw [hbegins]
    exact h.beginRun kind

/-- The block of the run grows. -/
theorem Follows.grow {before : List Block} {b : Block} {kind : RunKind}
    (h : Follows ended (before ++ [b]) (some (kind, before.length)) events s) {f : Fragment}
    (b' : Block) (hgrow : (openForm b).grow? f = some (openForm b')) (hwhole : CanClose b') :
    Follows ended (before ++ [b']) (some (kind, before.length))
      (events ++ [.blockDelta before.length f]) s := by
  have hopen : before.length ∈ s.envelope.opened := by
    rw [h.opened]
    exact List.mem_singleton_self _
  have hlast : ((before ++ [b]).map openForm)[before.length]? = some (openForm b) := by
    rw [List.getElem?_map, List.getElem?_concat_length]
    rfl
  have hgrown := h.holds.grow hopen hlast hgrow
  have hset : ((before ++ [b]).map openForm).set before.length (openForm b')
      = (before ++ [b']).map openForm := by
    rw [← List.map_set, List.set_append_right _ _ le_rfl, Nat.sub_self, List.set_cons_zero]
  rw [hset] at hgrown
  refine ⟨h.started, h.terminal, hgrown, ?_, h.opened, h.run⟩
  intro c hc
  rcases List.mem_append.1 hc with hc | hc
  · exact h.whole c (List.mem_append_left _ hc)
  · rwa [List.mem_singleton.1 hc]

/-- A block that comes whole ends the run. -/
theorem Follows.addWhole (h : Follows ended blocks run events s) {o : Opening}
    {fs : List Fragment} {b : Block} (hfs : ∀ f ∈ fs, o.accepts f)
    (hgrown : o.grown fs = openForm b) (hwhole : CanClose b) (isCall : Bool) :
    Follows ended (blocks ++ [b]) none (events ++ (s.addWhole o fs isCall).2.2)
      (s.addWhole o fs isCall).1 := by
  have hidle := h.endRun
  obtain ⟨e, hopens, hstarted, hterminal, hopened, hholds⟩ := hidle.openBlock o
  have hnext : s.endRun.1.envelope.next = blocks.length := by
    rw [hidle.holds.next, List.length_map]
  have hlength : (blocks.map openForm).length = blocks.length := List.length_map openForm
  have hopen : (blocks.map openForm).length ∈ e.opened := by
    rw [hlength, hopened]
    exact List.mem_singleton_self _
  rw [← o.grown_nil] at hholds
  have hall := hholds.growAll hopen hfs
  rw [List.nil_append, hgrown] at hall
  obtain ⟨b', hclose⟩ := hwhole
  have hends := hall.closeBlock hopen List.getElem?_concat_length hclose
  rw [hlength] at hends
  have hadds : s.addWhole o fs isCall = (note { s.endRun.1 with
      envelope := (e.closeBlock blocks.length).1 } blocks.length isCall, blocks.length,
      s.endRun.2 ++ [.blockStart blocks.length o] ++ fs.map (.blockDelta blocks.length)
        ++ (e.closeBlock blocks.length).2) := by
    simp only [StreamState.addWhole, hopens, hnext]
  rw [hadds]
  refine ⟨hstarted, hterminal, ?_, ?_, ?_, hidle.run⟩
  · rw [List.map_append, List.map_singleton, ← List.append_assoc, ← List.append_assoc,
      ← List.append_assoc]
    exact hends
  · intro c hc
    rcases List.mem_append.1 hc with hc | hc
    · exact h.whole c hc
    · rw [List.mem_singleton.1 hc]
      exact ⟨b', hclose⟩
  · have hnone : (e.closeBlock blocks.length).1.opened = [] := by
      simp [Envelope.closeBlock, hopened]
    exact hnone

/-! ### Blocks -/

theorem Follows.addText (h : Follows ended blocks (runOf blocks) events s) (more : String) :
    Follows ended (addMerged blocks (.text more)) (runOf (addMerged blocks (.text more)))
      (events ++ (s.addBlock (some (.text more))).2.2) (s.addBlock (some (.text more))).1 := by
  obtain ⟨before, text, hseat, hmerged⟩ := exists_textSeat blocks more
  obtain ⟨hindex, hrun⟩ := h.extendRun hseat
  have hgrown := hrun.grow (f := .text more) (.text (text ++ more)) rfl ⟨_, rfl⟩
  rw [List.append_assoc, ← hindex] at hgrown
  rw [hmerged, runOf_concat, kindOf?, Option.map_some, ← hindex]
  exact hgrown.same rfl rfl

theorem Follows.addThought (h : Follows ended blocks (runOf blocks) events s) (t : Thinking) :
    Follows ended (addMerged blocks (.thinking t)) (runOf (addMerged blocks (.thinking t)))
      (events ++ (s.addThought t).2) (s.addThought t).1 := by
  obtain ⟨before, text, hseat, hmerged⟩ := exists_thoughtSeat blocks t
  obtain ⟨hindex, hrun⟩ := h.extendRun hseat
  have hgrown := hrun.grow (f := .thinking t.text) (.thinking ⟨text ++ t.text, ""⟩) rfl ⟨_, rfl⟩
  rw [hmerged, runOf_concat, kindOf?]
  unfold StreamState.addThought
  by_cases hopen : t.signature = ""
  · rw [List.append_assoc, ← hindex] at hgrown
    have hempty : ("" : String).isEmpty = true := rfl
    simp only [hopen, hempty, if_true, Option.map_some, ← hindex]
    exact hgrown
  · have hempty : t.signature.isEmpty = false := by
      rw [Bool.eq_false_iff]
      exact mt String.isEmpty_iff.1 hopen
    -- the signature is a fragment of its own, and behind it the run has ended
    have hsealed := (hgrown.grow (f := .signature t.signature)
      (.thinking ⟨text ++ t.text, t.signature⟩) (by simp [openForm, OpenBlock.grow?])
      ⟨_, rfl⟩).endRun
    simp only [hempty, hopen, Bool.false_eq_true, if_false, Option.map_none, hindex,
      ← List.append_assoc]
    exact hsealed

/-- A block goes where merging puts it. -/
theorem Follows.addBlock (h : Follows ended blocks (runOf blocks) events s) {b : Block}
    (hb : CanClose b) :
    Follows ended (addMerged blocks b) (runOf (addMerged blocks b))
      (events ++ (s.addBlock (some b)).2.2) (s.addBlock (some b)).1 := by
  cases b with
  | text more => exact h.addText more
  | thinking t => exact h.addThought t
  | toolCall c =>
    have hgrown : (Opening.toolCall c.id c.name).grown [.arguments c.arguments.toText]
        = openForm (.toolCall c) := by
      simp [Opening.grown, openForm, Fragment.spell, Fragment.arguments?]
    have hadded := h.addWhole (by simp [Opening.accepts]) hgrown hb true
    have hkind : kindOf? (.toolCall c) = none := rfl
    rw [addMerged_of_join?_eq_none (fun last => by cases last <;> rfl), runOf_concat, hkind]
    exact hadded
  | attachment a =>
    have hnothing : ∀ f ∈ ([] : List Fragment), (Opening.attachment a).accepts f := by simp
    have hadded := h.addWhole hnothing rfl hb false
    have hkind : kindOf? (.attachment a) = none := rfl
    rw [addMerged_of_join?_eq_none (fun last => by cases last <;> rfl), runOf_concat, hkind]
    exact hadded
  | _ =>
    obtain ⟨b', hclose⟩ := hb
    cases hclose

/-! ### Parts and chunks -/

/-- The chunks that came so far have been taken; before the first one nothing has happened. -/
def At (ids : CallIds) (chunks : List Json) (events : List Event) (s : StreamState) : Prop :=
  (chunks = [] ∧ events = [] ∧ s = { ids }) ∨
    Tracks (∃ chunk ∈ chunks, hasFinish chunk) ((chunks.flatMap parts).filterMap block?) events s

theorem start_brings (ids : CallIds) (chunks : List Json) :
    Brings (At ids chunks) (Tracks (∃ chunk ∈ chunks, hasFinish chunk)
      ((chunks.flatMap parts).filterMap block?)) start := by
  refine brings_emit fun events s h => ?_
  rcases h with ⟨rfl, rfl, rfl⟩ | h
  · obtain ⟨hholds, hstarted⟩ := (Envelope.holds_new .gemini).start
    exact ⟨hstarted, by simp, hholds, by simp [merged], rfl, rfl⟩
  · have hstart : s.envelope.start = (s.envelope, []) := if_pos h.started
    simp only [hstart, List.append_nil]
    exact h

theorem reported_eq {chunk usage : Json}
    (h : field? chunk "usage_metadata" "usageMetadata" = some usage) :
    reported chunk = outputSum usage := by
  rw [reported, h]
  rfl

theorem noteUsage_brings {chunk : Json} (hsmall : reported chunk < UInt64.size) :
    Brings (Tracks ended blocks) (Tracks ended blocks) (noteUsage chunk) := by
  unfold noteUsage
  split
  case h_1 usage husage =>
    rw [reported_eq husage] at hsmall
    split
    case h_1 => exact brings_update fun events s h =>
      ⟨h.started, h.terminal, h.holds.congr (.of_eq rfl rfl rfl rfl), h.whole, h.opened, h.run⟩
    case h_2 e hfails => exact absurd hsmall (Nat.not_lt.2 (decodeUsage_eq_error_iff.1 hfails).1)
  case h_2 => exact brings_skip fun events s h => h

theorem noteUsage_of_le {chunk : Json} (hlarge : UInt64.size ≤ reported chunk) :
    noteUsage chunk = fail .overflow := by
  unfold noteUsage
  split
  case h_1 usage husage =>
    rw [reported_eq husage] at hlarge
    rw [decodeUsage_eq_error_iff.2 ⟨hlarge, rfl⟩]
  case h_2 hnone =>
    rw [reported, hnone] at hlarge
    exact absurd hlarge (by decide)

theorem addPart_brings {part : Json} (hpart : IsStreamable part) :
    Brings (Tracks ended blocks) (Tracks ended (blocks ++ (block? part).toList))
      (addPart part) := by
  intro events s h
  have hadded : Tracks ended (blocks ++ (block? part).toList)
      (events ++ (s.addBlock (block? part)).2.2) (s.addBlock (block? part)).1 := by
    cases hblock : block? part with
    | none =>
      have hnone : s.addBlock none = (s, none, []) := rfl
      rw [Option.toList_none, hnone, List.append_nil, List.append_nil]
      exact h
    | some b =>
      rw [Option.toList_some, Tracks, merged_concat]
      exact Follows.addBlock h (hpart.canStream hblock).canClose
  unfold addPart
  rw [hpart.decodePart_eq]
  simp only
  split
  case h_1 => exact ⟨_, _, rfl, hadded.same rfl rfl⟩
  case h_2 => exact ⟨_, _, rfl, hadded⟩

theorem addParts_brings {ps : List Json} (h : ∀ part ∈ ps, IsStreamable part) :
    Brings (Tracks ended blocks) (Tracks ended (blocks ++ ps.filterMap block?))
      (sequence (ps.map addPart)) := by
  have hparts := brings_sequence_map (f := addPart)
    (P := fun before => Tracks ended (blocks ++ before.filterMap block?))
    fun before part after (hsplit : ps = before ++ part :: after) => by
      have hmore : (before ++ [part]).filterMap block?
          = before.filterMap block? ++ (block? part).toList := by
        rw [List.filterMap_append]
        cases hblock : block? part <;> simp [hblock]
      rw [hmore, ← List.append_assoc]
      exact addPart_brings (h part (by simp [hsplit]))
  rw [List.filterMap_nil, List.append_nil] at hparts
  exact hparts

theorem noteFinish_brings (candidate : Json) :
    Brings (Tracks ended blocks)
      (Tracks (ended ∨ (textField? candidate "finish_reason" "finishReason").isSome) blocks)
      (noteFinish candidate) := by
  unfold noteFinish
  split
  case h_1 reason hreason =>
    refine brings_update fun events s h => ?_
    exact ⟨h.started, fun _ => rfl, h.holds.congr (.of_eq rfl rfl rfl rfl), h.whole, h.opened,
      h.run⟩
  case h_2 hnone =>
    refine brings_skip fun events s h => ⟨h.started, ?_, h.holds, h.whole, h.opened, h.run⟩
    rintro (hended | hfinish)
    · exact h.terminal hended
    · rw [hnone] at hfinish
      cases hfinish

theorem noteBlocked_brings (chunk : Json) :
    Brings (Tracks ended blocks) (Tracks ended blocks) (noteBlocked chunk) := by
  unfold noteBlocked
  split
  case h_1 reason _ =>
    refine brings_emit fun events s h => ?_
    have hnoted := h.holds.note h.started (x := .metadata "block_reason" (.string reason)) rfl rfl
    exact ⟨h.started, fun _ => rfl, hnoted.congr (.of_eq rfl rfl rfl rfl), h.whole, h.opened,
      h.run⟩
  case h_2 => exact brings_skip fun events s h => h

theorem addChunk_brings (ids : CallIds) (chunks : List Json) {chunk : Json}
    (herror : chunk.present? "error" = none) (hparts : ∀ part ∈ parts chunk, IsStreamable part)
    (hsmall : reported chunk < UInt64.size) :
    Brings (At ids chunks) (At ids (chunks ++ [chunk])) (addChunk chunk) := by
  have hfailure : Chunk.failure? chunk = none := by rw [Chunk.failure?, herror]
  have hmore : ((chunks ++ [chunk]).flatMap parts).filterMap block?
      = (chunks.flatMap parts).filterMap block? ++ (parts chunk).filterMap block? := by
    simp
  have hended : (∃ c ∈ chunks ++ [chunk], hasFinish c)
      = ((∃ c ∈ chunks, hasFinish c) ∨ hasFinish chunk) := by
    simp [or_and_right, exists_or]
  unfold addChunk
  rw [hfailure]
  refine brings_sequence_cons (start_brings ids chunks) ?_
  refine brings_sequence_cons (noteUsage_brings hsmall) ?_
  refine brings_sequence_cons (J := Tracks (∃ c ∈ chunks ++ [chunk], hasFinish c)
    (((chunks ++ [chunk]).flatMap parts).filterMap block?)) ?_
    (brings_skip fun events s h => .inr h)
  rw [hmore, hended]
  split
  case h_1 hnone =>
    have hfinish : hasFinish chunk = false := by
      rw [hasFinish, firstCandidate, hnone]
      rfl
    have hempty : parts chunk = [] := by
      rw [parts, firstCandidate, hnone]
      rfl
    rw [hempty, hfinish, List.filterMap_nil, List.append_nil]
    simp only [Bool.false_eq_true, or_false]
    exact noteBlocked_brings chunk
  case h_2 candidate hcandidate =>
    have hfirst : firstCandidate chunk = candidate := by
      rw [firstCandidate, hcandidate]
      rfl
    have hgiven : ((candidate.get "content").get "parts").elements?.getD [] = parts chunk := by
      rw [parts, hfirst]
    rw [hgiven, hasFinish, hfirst]
    exact (addParts_brings hparts).andThen (noteFinish_brings candidate)

/-- So far the assembly takes all of the events, and none of them ends the message. -/
theorem At.exists_run {ids : CallIds} {chunks : List Json} (h : At ids chunks events s) :
    .messageStop ∉ events ∧ ∃ a, Assembly.run .gemini .waiting events = .ok a := by
  rcases h with ⟨-, rfl, -⟩ | h
  · exact ⟨List.not_mem_nil, _, rfl⟩
  · obtain ⟨history, hledger, -⟩ := h.holds.ledger
    refine ⟨fun hmem => Bool.noConfusion (hledger.ongoing.isEnd_eq_false _ hmem), ?_⟩
    have hrun := hledger.ongoing.run
    cases ha : Assembly.run .gemini .waiting events with
    | ok a => exact ⟨a, rfl⟩
    | error e =>
      rw [ha] at hrun
      cases hrun.1

/-- The report comes before the parts, so that none of them is taken if it is too large. -/
theorem addChunk_of_le {chunk : Json} (herror : chunk.present? "error" = none)
    (hlarge : UInt64.size ≤ reported chunk) (s : StreamState) :
    ∃ s', addChunk chunk s = (s', .error .overflow) := by
  have hfailure : Chunk.failure? chunk = none := by rw [Chunk.failure?, herror]
  refine ⟨{ s with envelope := s.envelope.start.1 }, ?_⟩
  simp only [addChunk, hfailure, Step.sequence, noteUsage_of_le hlarge, Step.andThen, start, emit,
    fail]

/-! ### The end -/

/-- The message has ended, and its events say what the parts say. -/
def Over (blocks : List Block) (events : List Event) (_ : StreamState) : Prop :=
  ∃ (e : Envelope) (early : List Event),
    e.Holds .gemini early ((merged blocks).map openForm) ∧ e.started = true ∧
    events = early ++ e.endEvents ++ [.messageStop]

/-- The signatures as they are told at the end. -/
def signatureEvents (s : StreamState) : List Event :=
  ((signatureValue? s.signatures (s.firstCall.or s.firstOther)).map
    (Event.metadata signatureKey)).toList

/-- At the end the signatures are told, and then the message ends. -/
theorem finish_eq (hstarted : s.envelope.started = true) (hunfinished : s.envelope.finished = false)
    (htruncated : s.envelope.isTruncated = false) :
    finish s = ({ s with signatures := [], envelope := s.envelope.conclude.1 },
      .ok (s.signatureEvents ++ (s.envelope.endEvents ++ [.messageStop]))) := by
  have hgiven : giveSignatures s = ({ s with signatures := [] }, .ok s.signatureEvents) := by
    simp only [giveSignatures, emit, hunfinished, Bool.false_eq_true, if_false]
    rfl
  have hfinish : finish s = ({ s with signatures := [], envelope := s.envelope.conclude.1 },
      .ok (s.signatureEvents ++ s.envelope.conclude.2)) := by
    simp only [finish, choose, htruncated, Bool.false_eq_true, if_false]
    exact andThen_eq_ok hgiven rfl
  rw [hfinish, Envelope.conclude_eq hstarted hunfinished]

theorem Follows.holds_signatureEvents (h : Follows ended blocks run events s) :
    s.envelope.Holds .gemini (events ++ s.signatureEvents) (blocks.map openForm) := by
  unfold signatureEvents
  cases signatureValue? s.signatures (s.firstCall.or s.firstOther) with
  | none => simpa using h.holds
  | some value => exact h.holds.note h.started rfl rfl

theorem finish_brings (hended : ended) : Brings (Tracks ended blocks) (Over blocks) finish := by
  intro events s h
  have htruncated : s.envelope.isTruncated = false := by
    simp [Envelope.isTruncated, h.terminal hended]
  refine ⟨_, _, finish_eq h.started h.holds.unfinished htruncated, s.envelope,
    events ++ s.signatureEvents, Follows.holds_signatureEvents h, h.started, ?_⟩
  simp only [List.append_assoc]

theorem addChunks_bring (ids : CallIds) {chunks : List Json}
    (herrors : ∀ chunk ∈ chunks, chunk.present? "error" = none)
    (hparts : ∀ part ∈ chunks.flatMap parts, IsStreamable part)
    (hsmall : ∀ chunk ∈ chunks, reported chunk < UInt64.size) :
    Brings (At ids []) (At ids chunks) (sequence (chunks.map addChunk)) := by
  refine brings_sequence_map fun before chunk after hsplit => ?_
  have hmem : chunk ∈ chunks := by simp [hsplit]
  exact addChunk_brings ids before (herrors chunk hmem)
    (fun part hpart => hparts part (List.mem_flatMap.2 ⟨chunk, hmem, hpart⟩)) (hsmall chunk hmem)

/-- The chunks of a stream lead to the end of the message. -/
theorem chunks_bring (ids : CallIds) {chunks : List Json} (h : IsStreamed chunks)
    (hsmall : ∀ chunk ∈ chunks, reported chunk < UInt64.size) :
    Brings (At ids []) (Over ((chunks.flatMap parts).filterMap block?))
      ((sequence (chunks.map addChunk)).andThen finish) := by
  refine (addChunks_bring ids h.errors h.parts hsmall).andThen
    ((finish_brings h.ended).strengthen fun events s hs => ?_)
  rcases hs with ⟨rfl, -, -⟩ | hs
  · obtain ⟨chunk, hmem, -⟩ := h.ended
    cases hmem
  · exact hs

theorem map_step_eq {frames : List Frame} {chunks : List Json}
    (hframes : List.Forall₂ (fun frame chunk => Json.read? frame.data = some chunk) frames
      chunks) :
    frames.map step = chunks.map addChunk := by
  induction hframes with
  | nil => rfl
  | cons hread _ ih =>
    rw [List.map_cons, List.map_cons, ih, step, Chunk.parse, hread]

end StreamState

section Reading

variable (ids : CallIds) {frames : List Frame} {chunks : List Json}

/-- The content of the reply that is read from such chunks. -/
theorem readReply_of_chunks
    (hframes : List.Forall₂ (fun frame chunk => Json.read? frame.data = some chunk) frames chunks)
    (h : IsStreamed chunks) (hsmall : ∀ chunk ∈ chunks, reported chunk < UInt64.size) :
    ∃ reply, readReply .gemini ids (frames.map .ok) = .ok reply ∧
      reply.message.withoutUsage.content = merged ((chunks.flatMap parts).filterMap block?) ∧
      IndicesBelow (merged ((chunks.flatMap parts).filterMap block?)).length
        (streamEvents .gemini ids (frames.map .ok)) := by
  obtain ⟨s, events, hsteps, e, early, hholds, hstarted, hevents⟩ :=
    StreamState.chunks_bring ids h hsmall [] { ids } (.inl ⟨rfl, rfl, rfl⟩)
  have hwhole : ∀ b ∈ merged ((chunks.flatMap parts).filterMap block?), CanStream b := by
    refine CanStream.merged fun b hb => ?_
    obtain ⟨part, hpart, hblock⟩ := List.mem_filterMap.1 hb
    exact (h.parts part hpart).canStream hblock
  rw [← StreamState.map_step_eq hframes] at hsteps
  have hstream : streamEvents .gemini ids (frames.map .ok)
      = (early ++ e.endEvents ++ [Event.messageStop]).map .ok := by
    rw [← hevents, List.nil_append]
    exact streamEvents_of_steps Translation.gemini rfl (fun _ _ => rfl) (fun _ => rfl) hsteps
  have hclose : ((merged ((chunks.flatMap parts).filterMap block?)).map openForm).map
      (OpenBlock.close .gemini)
      = (merged ((chunks.flatMap parts).filterMap block?)).map fun b => .ok (some b) := by
    rw [List.map_map]
    exact List.map_congr_left fun b hb => hwhole b hb
  have hbears := hholds.bears_endEvents hclose
  refine ⟨_, hholds.readReply_eq hstarted hclose hstream, hbears.filter_content_zipIdx, ?_⟩
  rw [hstream]
  exact hbears.indicesBelow

theorem exists_first_report (h : ∃ chunk ∈ chunks, UInt64.size ≤ reported chunk) :
    ∃ before chunk after, chunks = before ++ chunk :: after ∧
      (∀ c ∈ before, reported c < UInt64.size) ∧ UInt64.size ≤ reported chunk := by
  have hsome : (chunks.find? fun chunk => UInt64.size ≤ reported chunk).isSome := by
    simpa using h
  obtain ⟨chunk, hfind⟩ := Option.isSome_iff_exists.1 hsome
  obtain ⟨hchunk, before, after, hsplit, hbefore⟩ := List.find?_eq_some_iff_append.1 hfind
  exact ⟨before, chunk, after, hsplit, by simpa using hbefore, of_decide_eq_true hchunk⟩

/-- A report of more output than a count can be stops the reading, whatever else is streamed. -/
theorem readReply_of_report
    (hframes : List.Forall₂ (fun frame chunk => Json.read? frame.data = some chunk) frames chunks)
    (h : IsStreamed chunks) (hlarge : ∃ chunk ∈ chunks, UInt64.size ≤ reported chunk) :
    readReply .gemini ids (frames.map .ok) = .error .overflow := by
  -- the chunks before the first such report are taken as in any other stream
  obtain ⟨before, chunk, after, rfl, hsmall, hchunk⟩ := exists_first_report hlarge
  have hmem : chunk ∈ before ++ chunk :: after := by simp
  obtain ⟨s, events, hsteps, hat⟩ := StreamState.addChunks_bring ids
    (fun c hc => h.errors c (List.mem_append_left _ hc))
    (fun part hpart => h.parts part (by
      rw [List.flatMap_append]
      exact List.mem_append_left _ hpart)) hsmall [] { ids } (.inl ⟨rfl, rfl, rfl⟩)
  rw [List.nil_append] at hat
  obtain ⟨s', hfails⟩ := StreamState.addChunk_of_le (h.errors chunk hmem) hchunk s
  have hmap := StreamState.map_step_eq hframes
  rw [List.map_append, List.map_cons] at hmap
  obtain ⟨early, late, rfl, hearly, hlate⟩ := List.map_eq_append_iff.1 hmap
  obtain ⟨frame, behind, rfl, hframe, -⟩ := List.map_eq_cons_iff.1 hlate
  rw [← hearly] at hsteps
  obtain ⟨handed, hitems⟩ := deliveriesFrom_sequence
    (Step.sequence_wrapped Translation.gemini (fun _ _ => rfl) early hsteps) .closes 0
    ((frame :: behind).map .ok)
  have hlast : deliveriesFrom (.gemini s) .closes handed ((frame :: behind).map .ok)
      = [⟨handed + 1, .error .overflow⟩] := by
    simp [deliveriesFrom, Translation.step, hframe, hfails]
  rw [hlast, ← List.map_append] at hitems
  obtain ⟨hstop, a, hrun⟩ := hat.exists_run
  exact readDeliveries_of_run hstop hrun hitems _ _ _

end Reading

end ChatWire.Gemini
