import ChatWire.Proofs.Stream.Ledger

/-!
# The ledger of a chat-completions stream

The state knows the block of the text and the blocks of the tool calls by position. They stay open
until the message ends, so whatever a chunk adds to goes to an open block of the right kind
(`OpenAI.StreamState.step_keeps`).
-/

namespace ChatWire.OpenAI.StreamState

open ChatWire.Step

/-- The state agrees with the histories of the blocks. -/
structure Agrees (s : StreamState) (events : List Event) (history : Nat → BlockTrace) : Prop where
  /-- So does its envelope. -/
  envelope : s.envelope.Ledger .openai events history
  /-- The block of the text is open. -/
  text : ∀ i, s.textBlock = some i → (history i).openAs? = some (.text "")
  /-- The blocks of the tool calls are open. -/
  calls : ∀ position i, s.callBlocks.find? position = some i →
    ∃ id name, (history i).openAs? = some (.toolCall id name)
  /-- There is no refusal before the message begins. -/
  refusal : s.envelope.started = false → s.refusal = ""

/-- Some histories agree with the state. -/
def Kept (events : List Event) (s : StreamState) : Prop := ∃ history, s.Agrees events history

/-- The message has begun, and some histories agree with the state. -/
def Begun (events : List Event) (s : StreamState) : Prop :=
  s.envelope.started = true ∧ Kept events s

theorem kept_new : Kept [] {} :=
  ⟨fun _ => .unopened, Envelope.ledger_new _, by simp, by simp [Table.find?, Table.empty],
    fun _ => rfl⟩

theorem start_leads : Leads Kept Begun start := by
  refine leads_emit fun events s hkept => ?_
  obtain ⟨history, henvelope, htext, hcalls, hrefusal⟩ := hkept
  obtain ⟨hledger, hstarted⟩ := henvelope.start
  exact ⟨hstarted, history, hledger, htext, hcalls, fun h => by simp [hstarted] at h⟩

/-- Words and counts about the message as a whole may change. -/
theorem leads_restate {f : StreamState → StreamState}
    (henvelope : ∀ s, (f s).envelope.SameBlocks s.envelope)
    (htext : ∀ s, (f s).textBlock = s.textBlock) (hcalls : ∀ s, (f s).callBlocks = s.callBlocks) :
    Keeps Begun (update f) := by
  refine leads_update fun events s hbegun => ?_
  obtain ⟨hstarted, history, hledger, ht, hc, -⟩ := hbegun
  have hstarted' : (f s).envelope.started = true := by rw [(henvelope s).started, hstarted]
  refine ⟨hstarted', history, hledger.congr (henvelope s), ?_, ?_, fun h => ?_⟩
  · rwa [htext]
  · rwa [hcalls]
  · simp [hstarted'] at h

theorem noteUsage_keeps (chunk : Json) : Keeps Begun (noteUsage chunk) := by
  unfold noteUsage
  split
  · exact leads_restate (fun _ => .of_eq rfl rfl rfl rfl) (fun _ => rfl) fun _ => rfl
  · exact leads_skip fun _ _ h => h

theorem noteFinish_keeps (choice : Json) : Keeps Begun (noteFinish choice) := by
  unfold noteFinish
  split
  · exact leads_restate (fun _ => .of_eq rfl rfl rfl rfl) (fun _ => rfl) fun _ => rfl
  · exact leads_skip fun _ _ h => h

theorem addRefusal_keeps (text : String) : Keeps Begun (addRefusal text) :=
  leads_restate (fun _ => .of_eq rfl rfl rfl rfl) (fun _ => rfl) fun _ => rfl

namespace Agrees

variable {s : StreamState} {events : List Event} {history : Nat → BlockTrace}

/-- An open block grows. -/
theorem grow (h : s.Agrees events history) {i : Nat} {o : Opening}
    (hi : (history i).openAs? = some o) {f : Fragment} (hf : o.accepts f) :
    Kept (events ++ [.blockDelta i f]) s := by
  obtain ⟨fs, hi⟩ := BlockTrace.exists_of_openAs? hi
  refine ⟨_, h.envelope.grow hi hf, fun j hj => ?_, fun position j hj => ?_, h.refusal⟩
  · rw [BlockTrace.openAs?_update_grown hi]
    exact h.text j hj
  · rw [BlockTrace.openAs?_update_grown hi]
    exact h.calls position j hj

/-- The block of the text opens. -/
theorem openText (h : s.Agrees events history) (hstarted : s.envelope.started = true) :
    Agrees { s with
        envelope := (s.envelope.openBlock (.text "")).1
        textBlock := some s.envelope.next }
      (events ++ (s.envelope.openBlock (.text "")).2)
      (Function.update history s.envelope.next (.opened (.text "") [])) where
  envelope := h.envelope.openBlock hstarted _
  text i hi := by
    obtain rfl : s.envelope.next = i := Option.some.inj hi
    rw [Function.update_self]
    rfl
  calls position i hi := by
    obtain ⟨id, name, hopen⟩ := h.calls position i hi
    have hfresh := h.envelope.fresh _ (Nat.le_refl _)
    exact ⟨id, name, BlockTrace.openAs?_update_unopened hfresh _ hopen⟩
  refusal := h.refusal

/-- The block of a tool call opens. -/
theorem openCall (h : s.Agrees events history) (hstarted : s.envelope.started = true)
    (position : Nat) (id name : String) :
    Agrees { s with
        envelope := (s.envelope.openBlock (.toolCall id name)).1
        callBlocks := s.callBlocks.insert position s.envelope.next }
      (events ++ (s.envelope.openBlock (.toolCall id name)).2)
      (Function.update history s.envelope.next (.opened (.toolCall id name) [])) where
  envelope := h.envelope.openBlock hstarted _
  text i hi :=
    BlockTrace.openAs?_update_unopened (h.envelope.fresh _ (Nat.le_refl _)) _ (h.text i hi)
  calls position' i hi := by
    by_cases hp : position' = position
    · subst hp
      obtain rfl : s.envelope.next = i := by simpa [Table.find?_insert_self] using hi
      rw [Function.update_self]
      exact ⟨id, name, rfl⟩
    · have hold : s.callBlocks.find? position' = some i := by
        simpa [Table.find?_insert_of_ne _ hp] using hi
      obtain ⟨id', name', hopen⟩ := h.calls position' i hold
      exact ⟨id', name',
        BlockTrace.openAs?_update_unopened (h.envelope.fresh _ (Nat.le_refl _)) _ hopen⟩
  refusal := h.refusal

end Agrees

theorem addText_keeps (text : String) : Keeps Begun (addText text) := by
  unfold addText
  split
  · exact leads_skip fun _ _ h => h
  · refine leads_emit fun events s hbegun => ?_
    obtain ⟨hstarted, history, hagrees⟩ := hbegun
    cases htext : s.textBlock with
    | some i => exact ⟨hstarted, hagrees.grow (hagrees.text i htext) rfl⟩
    | none =>
      have hopened := hagrees.openText hstarted
      refine ⟨hstarted, ?_⟩
      simpa using hopened.grow (hopened.text _ rfl) (f := .text text) rfl

theorem openCall_keeps (position : Nat) (piece : Json) : Keeps Begun (openCall position piece) := by
  refine leads_choose fun s => ?_
  split
  · exact leads_skip fun _ _ h => h.1
  · split
    · exact leads_fail
    case h_2 id hid =>
      refine leads_emit fun events t hbegun => ?_
      obtain ⟨⟨hstarted, history, hagrees⟩, -⟩ := hbegun
      exact ⟨hstarted, _, hagrees.openCall hstarted position id _⟩

theorem addArguments_keeps (position : Nat) (text : String) :
    Keeps Begun (addArguments position text) := by
  unfold addArguments
  split
  · exact leads_skip fun _ _ h => h
  · refine leads_emit fun events s hbegun => ?_
    obtain ⟨hstarted, history, hagrees⟩ := hbegun
    cases hcall : s.callBlocks.find? position with
    | some i =>
      obtain ⟨id, name, hopen⟩ := hagrees.calls position i hcall
      exact ⟨hstarted, hagrees.grow hopen rfl⟩
    | none => exact ⟨hstarted, history, by simpa using hagrees⟩

theorem addChoice_keeps (choice : Json) : Keeps Begun (addChoice choice) := by
  refine leads_sequence fun step hstep => ?_
  simp only [List.mem_cons, List.not_mem_nil, or_false] at hstep
  rcases hstep with rfl | rfl | rfl | rfl
  · exact addText_keeps _
  · exact addRefusal_keeps _
  · refine leads_sequence fun step hstep => ?_
    obtain ⟨piece, -, rfl⟩ := List.mem_map.1 hstep
    exact (openCall_keeps _ _).andThen (addArguments_keeps _ _)
  · exact noteFinish_keeps choice

theorem addChunk_leads (chunk : Json) :
    Leads Kept (OverOr .openai Kept) (addChunk chunk) := by
  unfold addChunk
  split
  case h_1 failure hfailure =>
    refine leads_failure hfailure fun _ _ hkept => ?_
    obtain ⟨history, hagrees⟩ := hkept
    exact ⟨history, hagrees.envelope.ongoing⟩
  case h_2 =>
    refine leads_sequence_cons start_leads (leads_sequence_cons (noteUsage_keeps chunk)
      (leads_sequence_cons (J := Begun) ?_ (leads_skip fun _ _ hbegun => .inr hbegun.2)))
    split
    · exact addChoice_keeps _
    · exact leads_skip fun _ _ h => h

theorem giveRefusal_keeps : Keeps Kept giveRefusal := by
  refine leads_emit fun events s hkept => ?_
  obtain ⟨history, henvelope, htext, hcalls, hrefusal⟩ := hkept
  split
  · exact ⟨history, by simpa using ⟨henvelope, htext, hcalls, hrefusal⟩⟩
  case isFalse hgiven =>
    have hstarted : s.envelope.started = true := by
      by_contra hnot
      simp [hrefusal (by simpa using hnot)] at hgiven
    exact ⟨history, henvelope.note hstarted rfl rfl, htext, hcalls, fun _ => rfl⟩

theorem finish_leads : Leads Kept (OverOr .openai Kept) finish := by
  refine leads_choose fun s => ?_
  split
  · exact leads_fail
  · refine (giveRefusal_keeps.strengthen fun _ _ h => h.1).andThen
      (leads_emit fun events t hkept => ?_)
    obtain ⟨history, hagrees⟩ := hkept
    by_cases hstarted : t.envelope.started = true
    · exact .inl (hagrees.envelope.conclude hstarted fun hp => absurd rfl hp)
    · refine .inr ⟨history, ?_⟩
      simpa [Envelope.conclude, hstarted] using hagrees

/-- A frame keeps the ledger, or the transcript is over with it. -/
theorem step_keeps (frame : Frame) : Keeps (OverOr .openai Kept) (step frame) := by
  unfold step
  split
  · refine Leads.andThen (Leads.keptOr (leads_update fun events s hkept => ?_)) finish_leads.overOr
    obtain ⟨history, henvelope, htext, hcalls, hrefusal⟩ := hkept
    exact ⟨history, henvelope.congr (.of_eq rfl rfl rfl rfl), htext, hcalls, hrefusal⟩
  · split
    · exact leads_fail
    · exact (addChunk_leads _).overOr

end ChatWire.OpenAI.StreamState
