import ChatWire.Proofs.Stream.Ledger

/-!
# The ledger of a local chat

The state knows the block of the text, which is the only one. It stays open until the message ends
(`Ollama.StreamState.step_keeps`).
-/

namespace ChatWire.Ollama.StreamState

open ChatWire.Step

/-- The state agrees with the histories of the blocks. -/
structure Agrees (s : StreamState) (events : List Event) (history : Nat → BlockTrace) : Prop where
  /-- So does its envelope. -/
  envelope : s.envelope.Ledger .ollama events history
  /-- The block of the text is open. -/
  text : ∀ i, s.textBlock = some i → (history i).openAs? = some (.text "")
  /-- Nothing but text is open. -/
  kinds : ∀ i o, (history i).openAs? = some o → o = .text ""
  /-- There is no reasoning before the message begins. -/
  thought : s.envelope.started = false → s.thought = ""

/-- Some histories agree with the state. -/
def Kept (events : List Event) (s : StreamState) : Prop := ∃ history, s.Agrees events history

/-- The message has begun, and some histories agree with the state. -/
def Begun (events : List Event) (s : StreamState) : Prop :=
  s.envelope.started = true ∧ Kept events s

theorem kept_new : Kept [] {} :=
  ⟨fun _ => .unopened, Envelope.ledger_new _, by simp, by simp [BlockTrace.openAs?], fun _ => rfl⟩

theorem start_leads : Leads Kept Begun start := by
  refine leads_emit fun events s hkept => ?_
  obtain ⟨history, henvelope, htext, hkinds, hthought⟩ := hkept
  obtain ⟨hledger, hstarted⟩ := henvelope.start
  exact ⟨hstarted, history, hledger, htext, hkinds, fun h => by simp [hstarted] at h⟩

theorem addThought_keeps (text : String) : Keeps Begun (addThought text) := by
  refine leads_update fun events s hbegun => ?_
  obtain ⟨hstarted, history, henvelope, htext, hkinds, -⟩ := hbegun
  exact ⟨hstarted, history, henvelope, htext, hkinds, fun h => by simp [hstarted] at h⟩

namespace Agrees

variable {s : StreamState} {events : List Event} {history : Nat → BlockTrace}

/-- The open block grows. -/
theorem grow (h : s.Agrees events history) {i : Nat} {o : Opening}
    (hi : (history i).openAs? = some o) {f : Fragment} (hf : o.accepts f) :
    Kept (events ++ [.blockDelta i f]) s := by
  obtain ⟨fs, hi⟩ := BlockTrace.exists_of_openAs? hi
  refine ⟨_, h.envelope.grow hi hf, fun j hj => ?_, fun j o' hj => ?_, h.thought⟩
  · rw [BlockTrace.openAs?_update_grown hi]
    exact h.text j hj
  · rw [BlockTrace.openAs?_update_grown hi] at hj
    exact h.kinds j o' hj

/-- The block of the text opens. -/
theorem openText (h : s.Agrees events history) (hstarted : s.envelope.started = true) :
    Agrees { s with
        envelope := (s.envelope.openBlock (.text "")).1
        textBlock := some s.envelope.next }
      (events ++ (s.envelope.openBlock (.text "")).2)
      (Function.update history s.envelope.next (.opened (.text "") [])) where
  envelope := h.envelope.openBlock hstarted _
  text i hi := by
    obtain rfl : s.envelope.next = i := Option.some.inj hi
    rw [Function.update_self]
    rfl
  kinds i o hi := by
    by_cases hnext : i = s.envelope.next
    · subst hnext
      rw [Function.update_self] at hi
      exact (Option.some.inj hi).symm
    · rw [Function.update_of_ne hnext] at hi
      exact h.kinds i o hi
  thought := h.thought

end Agrees

theorem addText_keeps (text : String) : Keeps Begun (addText text) := by
  unfold addText
  split
  · exact leads_skip fun _ _ h => h
  · refine leads_emit fun events s hbegun => ?_
    obtain ⟨hstarted, history, hagrees⟩ := hbegun
    cases htext : s.textBlock with
    | some i => exact ⟨hstarted, hagrees.grow (hagrees.text i htext) rfl⟩
    | none =>
      have hopened := hagrees.openText hstarted
      refine ⟨hstarted, ?_⟩
      simpa using hopened.grow (hopened.text _ rfl) (f := .text text) rfl

theorem giveThought_keeps : Keeps Kept giveThought := by
  refine leads_emit fun events s hkept => ?_
  obtain ⟨history, henvelope, htext, hkinds, hthought⟩ := hkept
  split
  · exact ⟨history, by simpa using ⟨henvelope, htext, hkinds, hthought⟩⟩
  case isFalse hgiven =>
    have hstarted : s.envelope.started = true := by
      by_contra hnot
      simp [hthought (by simpa using hnot)] at hgiven
    exact ⟨history, henvelope.note hstarted rfl rfl, htext, hkinds, fun _ => rfl⟩

theorem finish_leads : Leads Kept (OverOr .ollama Kept) finish := by
  refine leads_choose fun s => ?_
  split
  · exact leads_fail
  · refine (giveThought_keeps.strengthen fun _ _ h => h.1).andThen
      (leads_emit fun events t hkept => ?_)
    obtain ⟨history, hagrees⟩ := hkept
    by_cases hstarted : t.envelope.started = true
    · refine .inl (hagrees.envelope.conclude hstarted fun _ i o fs hi => ?_)
      obtain rfl := hagrees.kinds i o (by rw [hi]; rfl)
      trivial
    · refine .inr ⟨history, ?_⟩
      simpa [Envelope.conclude, hstarted] using hagrees

theorem addEnd_leads (chunk : Json) : Leads Kept (OverOr .ollama Kept) (addEnd chunk) := by
  unfold addEnd
  split
  · refine Leads.andThen (J := Kept) (leads_update fun events s hkept => ?_) finish_leads
    obtain ⟨history, henvelope, htext, hkinds, hthought⟩ := hkept
    exact ⟨history, henvelope.congr (.of_eq rfl rfl rfl rfl), htext, hkinds, hthought⟩
  · exact leads_skip fun _ _ h => .inr h

/-- A frame keeps the ledger, or the transcript is over with it. -/
theorem step_keeps (frame : Frame) : Keeps (OverOr .ollama Kept) (step frame) := by
  unfold step
  split
  · exact leads_fail
  case h_2 chunk hchunk =>
    split
    case h_1 failure hfailure =>
      refine Leads.overOr (leads_failure hfailure fun _ _ hkept => ?_)
      obtain ⟨history, hagrees⟩ := hkept
      exact ⟨history, hagrees.envelope.ongoing⟩
    case h_2 =>
      refine Leads.overOr ?_
      refine leads_sequence_cons start_leads (leads_sequence_cons (addThought_keeps _)
        (leads_sequence_cons (addText_keeps _)
          (leads_sequence_cons (J := OverOr .ollama Kept) ?_ ?_)))
      · exact (addEnd_leads chunk).strengthen fun _ _ h => h.2
      · exact leads_skip fun _ _ h => h

end ChatWire.Ollama.StreamState
