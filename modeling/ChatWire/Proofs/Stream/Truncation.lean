import ChatWire.Proofs.Stream.Completion
import ChatWire.Proofs.Stream.Steps
import ChatWire.Stream.Reading

/-!
# Truncated streams

A reply whose stream breaks off is never taken for a complete one. Without a frame that bears the
provider's end mark (`Frame.BearsEnd`) no translation tells of the end of the message
(`messageStop_notMem_told`), and an assembly gives no reply before it is told of that. A failure of
the connection is the last that a reading is told of, and it ends with this failure
(`readReply_of_truncated`).
-/

namespace ChatWire

open Step

/-! ## End marks -/

/-- A frame bears the provider's mark for the end of a reply. -/
def Frame.BearsEnd (frame : Frame) : Provider → Prop
  | .anthropic => Anthropic.readEvent frame.data = .ok (some .messageStop)
  | .gemini => ∃ chunk reason, Json.read? frame.data = some chunk ∧
      match (chunk.get "candidates").first? with
      | some candidate => Gemini.textField? candidate "finish_reason" "finishReason" = some reason
      | none => Gemini.blockReason? chunk = some (.string reason)
  | .openai => OpenAI.StreamState.isDone frame ∨
      ∃ chunk choice reason, Json.read? frame.data = some chunk ∧
        (chunk.get "choices").first? = some choice ∧
        choice.get "finish_reason" = .string reason
  | .ollama => ∃ chunk, Json.read? frame.data = some chunk ∧ chunk.get "done" = .bool true

/-! ## Steps of a message that goes on -/

section GoesOn

variable {σ : Type} {envelope : σ → Envelope}

/-- The message has not ended, and the provider has not said that it ends. -/
def GoesOn (envelope : σ → Envelope) (events : List Event) (s : σ) : Prop :=
  .messageStop ∉ events ∧ (envelope s).terminal = false ∧ (envelope s).finished = false

theorem leads_update_goesOn {f : σ → σ}
    (h : ∀ s, (envelope (f s)).terminal = (envelope s).terminal ∧
      (envelope (f s)).finished = (envelope s).finished) :
    Keeps (GoesOn envelope) (update f) := by
  refine leads_update fun events s hI => ⟨hI.1, ?_, ?_⟩
  · rw [(h s).1, hI.2.1]
  · rw [(h s).2, hI.2.2]

theorem leads_emit_goesOn {f : σ → σ × List Event}
    (h : ∀ s, .messageStop ∉ (f s).2 ∧ (envelope (f s).1).terminal = (envelope s).terminal ∧
      (envelope (f s).1).finished = (envelope s).finished) :
    Keeps (GoesOn envelope) (emit f) := by
  refine leads_emit fun events s hI => ⟨?_, ?_, ?_⟩
  · simp [hI.1, (h s).1]
  · rw [(h s).2.1, hI.2.1]
  · rw [(h s).2.2, hI.2.2]

theorem leads_failure_goesOn {chunk : Json} {failure : Event}
    (h : Chunk.failure? chunk = some failure) :
    Keeps (GoesOn envelope) (event failure) := by
  refine leads_emit_goesOn fun s => ⟨?_, rfl, rfl⟩
  unfold Chunk.failure? at h
  split at h <;> simp_all
  all_goals (rw [← h]; simp)

theorem leads_start_goesOn {f : σ → σ × List Event}
    (hstart : ∀ s, envelope (f s).1 = (envelope s).start.1 ∧ (f s).2 = (envelope s).start.2) :
    Keeps (GoesOn envelope) (emit f) := by
  refine leads_emit_goesOn fun s => ?_
  rw [(hstart s).1, (hstart s).2, Envelope.start]
  split <;> simp

/-- A stream that ends without an end mark ends no message: one that has begun is truncated. -/
theorem leads_finish_goesOn {truncated : Error} {give conclude : σ → σ × List Event}
    (hgive : ∀ s, .messageStop ∉ (give s).2 ∧ envelope (give s).1 = envelope s)
    (hconclude : ∀ s, (conclude s).2 = (envelope s).conclude.2) :
    Leads (GoesOn envelope) (fun events _ => .messageStop ∉ events)
      (choose fun s => if (envelope s).isTruncated then fail truncated
        else (emit give).andThen (emit conclude)) := by
  refine leads_choose fun s => ?_
  split
  case isTrue => exact leads_fail
  case isFalse htruncated =>
    refine Leads.andThen (J := fun events t => .messageStop ∉ events ∧
      (envelope t).started = false) (leads_emit ?_) (leads_emit ?_)
    · rintro events t ⟨⟨hevents, hterminal, hfinished⟩, rfl⟩
      have hstarted : (envelope t).started = false := by
        simpa [Envelope.isTruncated, hterminal, hfinished] using htruncated
      refine ⟨?_, by rw [(hgive t).2, hstarted]⟩
      simp [hevents, (hgive t).1]
    · rintro events t ⟨hevents, hstarted⟩
      simpa [hconclude, Envelope.conclude, hstarted] using hevents

end GoesOn

namespace OpenAI.StreamState

theorem start_goesOn : Keeps (GoesOn envelope) start :=
  leads_start_goesOn fun _ => ⟨rfl, rfl⟩

theorem noteUsage_goesOn (chunk : Json) :
    Keeps (GoesOn envelope) (noteUsage chunk) := by
  unfold noteUsage
  split
  · exact leads_update_goesOn fun s => ⟨rfl, rfl⟩
  · exact leads_skip fun _ _ h => h

theorem addText_goesOn (text : String) :
    Keeps (GoesOn envelope) (addText text) := by
  unfold addText
  split
  · exact leads_skip fun _ _ h => h
  · refine leads_emit_goesOn fun s => ?_
    cases s.textBlock <;> simp [Envelope.openBlock]

theorem openCall_goesOn (position : Nat) (piece : Json) :
    Keeps (GoesOn envelope) (openCall position piece) := by
  refine leads_choose fun s => Leads.strengthen (J := GoesOn envelope) ?_ fun _ _ h => h.1
  split
  · exact leads_skip fun _ _ h => h
  · split
    · exact leads_fail
    · exact leads_emit_goesOn fun s => by simp [Envelope.openBlock]

theorem addArguments_goesOn (position : Nat) (text : String) :
    Keeps (GoesOn envelope) (addArguments position text) := by
  unfold addArguments
  split
  · exact leads_skip fun _ _ h => h
  · refine leads_emit_goesOn fun s => ?_
    cases s.callBlocks.find? position <;> simp

/-- A choice that does not say why the message ends leaves it going on. -/
theorem addChoice_goesOn (choice : Json) (h : (choice.get "finish_reason").text? = none) :
    Keeps (GoesOn envelope) (addChoice choice) := by
  refine leads_sequence fun step hstep => ?_
  simp only [List.mem_cons, List.not_mem_nil, or_false] at hstep
  rcases hstep with rfl | rfl | rfl | rfl
  · exact addText_goesOn _
  · exact leads_update_goesOn fun s => ⟨rfl, rfl⟩
  · refine leads_sequence fun step hstep => ?_
    obtain ⟨piece, -, rfl⟩ := List.mem_map.1 hstep
    exact (openCall_goesOn _ _).andThen (addArguments_goesOn _ _)
  · rw [noteFinish, h]
    exact leads_skip fun _ _ h => h

theorem addChunk_goesOn (chunk : Json)
    (h : ∀ choice, (chunk.get "choices").first? = some choice →
      (choice.get "finish_reason").text? = none) :
    Keeps (GoesOn envelope) (addChunk chunk) := by
  unfold addChunk
  split
  case h_1 failure hfailure => exact leads_failure_goesOn hfailure
  case h_2 =>
    refine leads_sequence_cons start_goesOn (leads_sequence_cons (noteUsage_goesOn chunk)
      (leads_sequence fun step hstep => ?_))
    obtain rfl := List.mem_singleton.1 hstep
    split
    case h_1 choice hchoice => exact addChoice_goesOn choice (h choice hchoice)
    case h_2 => exact leads_skip fun _ _ h => h

theorem finish_goesOn :
    Leads (GoesOn envelope) (fun events _ => .messageStop ∉ events) finish := by
  refine leads_finish_goesOn (fun s => ?_) fun s => rfl
  split <;> simp

/-- A frame without end mark leaves the message going on. -/
theorem step_goesOn (frame : Frame) (h : ¬ frame.BearsEnd .openai) :
    Keeps (GoesOn envelope) (step frame) := by
  obtain ⟨hdone, hreason⟩ := not_or.1 h
  unfold step
  rw [if_neg hdone, Chunk.parse]
  cases hread : Json.read? frame.data with
  | none => exact leads_fail
  | some chunk =>
    refine addChunk_goesOn chunk fun choice hchoice => ?_
    cases htext : choice.get "finish_reason" with
    | string reason => exact absurd ⟨chunk, choice, reason, hread, hchoice, htext⟩ hreason
    | _ => rfl

end OpenAI.StreamState

namespace Ollama.StreamState

theorem start_goesOn : Keeps (GoesOn envelope) start :=
  leads_start_goesOn fun _ => ⟨rfl, rfl⟩

theorem addText_goesOn (text : String) :
    Keeps (GoesOn envelope) (addText text) := by
  unfold addText
  split
  · exact leads_skip fun _ _ h => h
  · refine leads_emit_goesOn fun s => ?_
    cases s.textBlock <;> simp [Envelope.openBlock]

theorem finish_goesOn :
    Leads (GoesOn envelope) (fun events _ => .messageStop ∉ events) finish := by
  refine leads_finish_goesOn (fun s => ?_) fun s => rfl
  split <;> simp

/-- A frame without end mark leaves the message going on. -/
theorem step_goesOn (frame : Frame) (h : ¬ frame.BearsEnd .ollama) :
    Keeps (GoesOn envelope) (step frame) := by
  unfold step
  rw [Chunk.parse]
  cases hread : Json.read? frame.data with
  | none => exact leads_fail
  | some chunk =>
    have hdone : (chunk.get "done").flag?.getD false = false := by
      cases hflag : chunk.get "done" with
      | bool done =>
        cases done with
        | true => exact absurd ⟨chunk, hread, hflag⟩ h
        | false => rfl
      | _ => rfl
    cases hfailure : Chunk.failure? chunk with
    | some failure =>
      simp only [hfailure]
      exact leads_failure_goesOn hfailure
    | none =>
      simp only [hfailure]
      refine leads_sequence fun step hstep => ?_
      simp only [List.mem_cons, List.not_mem_nil, or_false] at hstep
      rcases hstep with rfl | rfl | rfl | rfl
      · exact start_goesOn
      · exact leads_update_goesOn fun s => ⟨rfl, rfl⟩
      · exact addText_goesOn _
      · rw [addEnd, hdone]
        exact leads_skip fun _ _ h => h

end Ollama.StreamState

namespace Gemini.StreamState

theorem start_goesOn : Keeps (GoesOn envelope) start :=
  leads_start_goesOn fun _ => ⟨rfl, rfl⟩

theorem noteUsage_goesOn (chunk : Json) :
    Keeps (GoesOn envelope) (noteUsage chunk) := by
  unfold noteUsage
  split
  · split
    · exact leads_update_goesOn fun s => ⟨rfl, rfl⟩
    · exact leads_fail
  · exact leads_skip fun _ _ h => h

/-- From one state to another the message does not end, nor does the provider say that it ends. -/
structure KeepsGoing (s s' : StreamState) (events : List Event) : Prop where
  told : .messageStop ∉ events
  terminal : s'.envelope.terminal = s.envelope.terminal
  finished : s'.envelope.finished = s.envelope.finished

theorem endRun_keepsGoing (s : StreamState) : KeepsGoing s s.endRun.1 s.endRun.2 := by
  unfold endRun
  split <;> constructor <;> simp [Envelope.closeBlock]

theorem beginRun_keepsGoing (s : StreamState) (kind : RunKind) :
    KeepsGoing s (s.beginRun kind).1 (s.beginRun kind).2.2 := by
  obtain ⟨htold, hterminal, hfinished⟩ := s.endRun_keepsGoing
  exact ⟨by simpa [beginRun, Envelope.openBlock] using htold, hterminal, hfinished⟩

theorem extendRun_keepsGoing (s : StreamState) (kind : RunKind) :
    KeepsGoing s (s.extendRun kind).1 (s.extendRun kind).2.2 := by
  unfold extendRun
  split
  · split
    · exact ⟨by simp, rfl, rfl⟩
    · exact s.beginRun_keepsGoing kind
  · exact s.beginRun_keepsGoing kind

theorem addWhole_keepsGoing (s : StreamState) (opening : Opening) (fragments : List Fragment)
    (isCall : Bool) :
    KeepsGoing s (s.addWhole opening fragments isCall).1
      (s.addWhole opening fragments isCall).2.2 := by
  obtain ⟨htold, hterminal, hfinished⟩ := s.endRun_keepsGoing
  refine ⟨?_, hterminal, hfinished⟩
  simpa [addWhole, Envelope.openBlock, Envelope.closeBlock] using htold

theorem addThought_keepsGoing (s : StreamState) (t : Thinking) :
    KeepsGoing s (s.addThought t).1 (s.addThought t).2 := by
  obtain ⟨htold, hterminal, hfinished⟩ := s.extendRun_keepsGoing .thought
  unfold addThought
  simp only
  split
  · exact ⟨by simpa using htold, hterminal, hfinished⟩
  · obtain ⟨htold', hterminal', hfinished'⟩ := (s.extendRun .thought).1.endRun_keepsGoing
    refine ⟨by simp [htold, htold'], hterminal'.trans hterminal, hfinished'.trans hfinished⟩

theorem addBlock_keepsGoing (s : StreamState) (block : Option Block) :
    KeepsGoing s (s.addBlock block).1 (s.addBlock block).2.2 := by
  unfold addBlock
  split
  case h_1 text =>
    obtain ⟨htold, hterminal, hfinished⟩ := s.extendRun_keepsGoing .text
    exact ⟨by simpa using htold, hterminal, hfinished⟩
  case h_2 t => exact s.addThought_keepsGoing t
  case h_3 c => exact s.addWhole_keepsGoing _ _ _
  case h_4 a => exact s.addWhole_keepsGoing _ _ _
  case h_5 => exact ⟨by simp, rfl, rfl⟩

theorem addPart_goesOn (part : Json) :
    Keeps (GoesOn envelope) (addPart part) := by
  rintro events s s' more ⟨hevents, hterminal, hfinished⟩ hs
  obtain ⟨block, signatures, -, rfl, rfl⟩ := addPart_eq_ok hs
  obtain ⟨htold, hterminal', hfinished'⟩ := s.addBlock_keepsGoing block
  exact ⟨by simp [hevents, htold], hterminal'.trans hterminal, hfinished'.trans hfinished⟩

/-- A chunk that does not say why the message ends leaves it going on. -/
theorem addChunk_goesOn (chunk : Json)
    (h : match (chunk.get "candidates").first? with
      | some candidate => textField? candidate "finish_reason" "finishReason" = none
      | none => (blockReason? chunk).bind Json.text? = none) :
    Keeps (GoesOn envelope) (addChunk chunk) := by
  unfold addChunk
  split
  case h_1 failure hfailure => exact leads_failure_goesOn hfailure
  case h_2 =>
    refine leads_sequence_cons start_goesOn (leads_sequence_cons (noteUsage_goesOn chunk)
      (leads_sequence fun step hstep => ?_))
    obtain rfl := List.mem_singleton.1 hstep
    split
    case h_1 hnone =>
      rw [hnone] at h
      simp only at h
      rw [noteBlocked, h]
      exact leads_skip fun _ _ h => h
    case h_2 candidate hcandidate =>
      rw [hcandidate] at h
      simp only at h
      refine Leads.andThen (J := GoesOn envelope) (leads_sequence fun step hstep => ?_) ?_
      · obtain ⟨part, -, rfl⟩ := List.mem_map.1 hstep
        exact addPart_goesOn part
      · rw [noteFinish, h]
        exact leads_skip fun _ _ h => h

theorem finish_goesOn :
    Leads (GoesOn envelope) (fun events _ => .messageStop ∉ events) finish := by
  refine leads_finish_goesOn (fun s => ?_) fun s => rfl
  split
  · simp
  · cases signatureValue? s.signatures (s.firstCall.or s.firstOther) <;> simp

/-- A frame without end mark leaves the message going on. -/
theorem step_goesOn (frame : Frame) (h : ¬ frame.BearsEnd .gemini) :
    Keeps (GoesOn envelope) (step frame) := by
  unfold step
  rw [Chunk.parse]
  cases hread : Json.read? frame.data with
  | none => exact leads_fail
  | some chunk =>
    refine addChunk_goesOn chunk ?_
    cases hcandidate : (chunk.get "candidates").first? with
    | some candidate =>
      simp only
      cases hreason : textField? candidate "finish_reason" "finishReason" with
      | none => rfl
      | some reason =>
        refine absurd ⟨chunk, reason, hread, ?_⟩ h
        simpa only [hcandidate] using hreason
    | none =>
      simp only
      cases hreason : blockReason? chunk with
      | none => rfl
      | some value =>
        cases value with
        | string reason =>
          refine absurd ⟨chunk, reason, hread, ?_⟩ h
          simpa only [hcandidate] using hreason
        | _ => rfl

end Gemini.StreamState

/-! ## Whole streams -/

namespace Translation

/-- The message has not ended, and the provider has not said that it ends. -/
def GoesOn (events : List Event) : Translation → Prop
  | .anthropic => .messageStop ∉ events
  | .gemini s => ChatWire.GoesOn Gemini.StreamState.envelope events s
  | .openai s => ChatWire.GoesOn OpenAI.StreamState.envelope events s
  | .ollama s => ChatWire.GoesOn Ollama.StreamState.envelope events s

/-- The provider whose frames are translated. -/
def provider : Translation → Provider
  | .anthropic => .anthropic
  | .gemini _ => .gemini
  | .openai _ => .openai
  | .ollama _ => .ollama

/-- A frame without end mark leaves the message going on. -/
theorem step_goesOn {events more : List Event} {t t' : Translation} {frame : Frame}
    (ht : t.GoesOn events) (h : ¬ frame.BearsEnd t.provider)
    (hstep : t.step frame = (t', .ok more)) :
    t'.GoesOn (events ++ more) ∧ t'.provider = t.provider := by
  cases t with
  | anthropic =>
    simp only [step, Prod.mk.injEq] at hstep
    obtain ⟨rfl, hread⟩ := hstep
    refine ⟨?_, rfl⟩
    have hmore : .messageStop ∉ more := by
      intro hmem
      cases hevent : Anthropic.readEvent frame.data with
      | error e => simp [hevent, Except.map] at hread
      | ok event =>
        obtain rfl : event.toList = more := by simpa [hevent, Except.map] using hread
        obtain rfl : event = some .messageStop := by simpa [eq_comm] using hmem
        exact h hevent
    simpa [GoesOn, hmore] using ht
  | gemini s =>
    obtain ⟨s', hs, rfl⟩ := exists_of_wrapped .gemini hstep
    exact ⟨Gemini.StreamState.step_goesOn frame h events s s' more ht hs, rfl⟩
  | openai s =>
    obtain ⟨s', hs, rfl⟩ := exists_of_wrapped .openai hstep
    exact ⟨OpenAI.StreamState.step_goesOn frame h events s s' more ht hs, rfl⟩
  | ollama s =>
    obtain ⟨s', hs, rfl⟩ := exists_of_wrapped .ollama hstep
    exact ⟨Ollama.StreamState.step_goesOn frame h events s s' more ht hs, rfl⟩

/-- A message that goes on when the stream ends is not ended then. -/
theorem finish_goesOn {events more : List Event} {t t' : Translation} (ht : t.GoesOn events)
    (hfinish : t.finish = (t', .ok more)) : .messageStop ∉ events ++ more := by
  cases t with
  | anthropic =>
    obtain rfl : [] = more := by simpa [finish] using (congrArg Prod.snd hfinish)
    simpa [GoesOn] using ht
  | gemini s =>
    obtain ⟨s', hs, rfl⟩ := exists_of_wrapped .gemini hfinish
    exact Gemini.StreamState.finish_goesOn events s s' more ht hs
  | openai s =>
    obtain ⟨s', hs, rfl⟩ := exists_of_wrapped .openai hfinish
    exact OpenAI.StreamState.finish_goesOn events s s' more ht hs
  | ollama s =>
    obtain ⟨s', hs, rfl⟩ := exists_of_wrapped .ollama hfinish
    exact Ollama.StreamState.finish_goesOn events s s' more ht hs

theorem new_goesOn (provider : Provider) (ids : CallIds) :
    (new provider ids).GoesOn [] ∧ (new provider ids).provider = provider := by
  cases provider <;> exact ⟨by simp [new, GoesOn, ChatWire.GoesOn], rfl⟩

end Translation

/-- A stream of frames without end mark gives no event for the end of the message. -/
theorem messageStop_notMem_told (provider : Provider) (ids : CallIds) (ending : Ending)
    {frames : List (Except Error Frame)}
    (h : ∀ frame, .ok frame ∈ frames → ¬ frame.BearsEnd provider) :
    .messageStop ∉ told (deliveries provider ids ending frames) := by
  refine told_deliveriesFrom (I := fun events t => t.GoesOn events ∧ t.provider = provider)
    (F := fun events => .messageStop ∉ events) ?_ ?_ ?_ ending 0
    (Translation.new_goesOn provider ids)
  · rintro events t ⟨ht, -⟩
    cases t with
    | anthropic => exact ht
    | gemini s => exact ht.1
    | openai s => exact ht.1
    | ollama s => exact ht.1
  · rintro frame hframe events t t' more ⟨ht, rfl⟩ hstep
    exact Translation.step_goesOn ht (h frame hframe) hstep
  · rintro events t t' more ⟨ht, -⟩ hfinish
    exact Translation.finish_goesOn ht hfinish

/-- A reading that is told of no end of the message gives no reply. -/
theorem readDeliveries_eq_error (provider : Provider) (stop : StopRequest) (ending : Ending)
    (total : Nat) {deliveries : List Delivery} (h : .messageStop ∉ told deliveries) (a : Assembly)
    (handed : Nat) :
    ∃ e, (readDeliveries provider stop ending total a handed deliveries).result = .error e := by
  induction deliveries generalizing a handed with
  | nil =>
    unfold readDeliveries
    split
    · exact ⟨_, rfl⟩
    · cases ending <;> exact ⟨_, rfl⟩
  | cons d rest ih =>
    unfold readDeliveries
    split
    · exact ⟨_, rfl⟩
    · cases hitem : d.item with
      | error e => exact ⟨_, rfl⟩
      | ok event =>
        have htold : told (d :: rest) = event :: told rest := by
          simp [told, hitem, Except.toOption]
        rw [htold, List.mem_cons, not_or] at h
        cases happly : a.apply provider event with
        | mk a' answer =>
          cases answer with
          | error e => exact ⟨e, by simp [happly]⟩
          | ok reply =>
            cases reply with
            | none => simpa [happly] using ih h.2 a' d.handed
            | some r =>
              have hstop := (a.apply_eq_reply_iff event r).1 (congrArg Prod.snd happly)
              exact absurd hstop.1.symm h.1

/-! ## Failures of the connection -/

/-- The events of frames that follow each other, or the error of the first that cannot be
translated. -/
def Translation.translate (t : Translation) : List Frame → Except Error (List Event)
  | [] => .ok []
  | frame :: rest =>
    match t.step frame with
    | (_, .error e) => .error e
    | (t, .ok events) => (t.translate rest).map (events ++ ·)

/-- What comes of frames that can be translated is their events, and then what comes of a failure
behind them is the failure. -/
theorem deliveriesFrom_failure {t : Translation} {before : List Frame} {events : List Event}
    (h : t.translate before = .ok events) (ending : Ending) (handed : Nat) (e : Error)
    (behind : List (Except Error Frame)) :
    (deliveriesFrom t ending handed (before.map .ok ++ .error e :: behind)).map Delivery.item
      = events.map .ok ++ [.error e] := by
  induction before generalizing t events handed with
  | nil =>
    obtain rfl : [] = events := by simpa [Translation.translate] using h
    rfl
  | cons frame rest ih =>
    cases hstep : t.step frame with
    | mk t' given =>
      cases given with
      | error err => simp [Translation.translate, hstep] at h
      | ok first =>
        cases hrest : t'.translate rest with
        | error err => simp [Translation.translate, hstep, hrest, Except.map] at h
        | ok more =>
          obtain rfl : first ++ more = events := by
            simpa [Translation.translate, hstep, hrest, Except.map] using h
          simp [deliveriesFrom, hstep, deliver, ih hrest, Function.comp_def]

/-- A reading that is told of events that neither end the message nor make the assembly fail, and
then of an error, ends with this error. -/
theorem readDeliveries_of_run {provider : Provider} {a a' : Assembly} {events : List Event}
    (hstop : .messageStop ∉ events) (hrun : a.run provider events = .ok a')
    {deliveries : List Delivery} {e : Error}
    (hitems : deliveries.map Delivery.item = events.map .ok ++ [.error e]) (ending : Ending)
    (total handed : Nat) :
    (readDeliveries provider none ending total a handed deliveries).result = .error e := by
  induction events generalizing a deliveries handed with
  | nil =>
    obtain ⟨last, rest, rfl, hlast, -⟩ := List.map_eq_cons_iff.1 hitems
    simp [readDeliveries, StopRequest.isMade, hlast]
  | cons event more ih =>
    obtain ⟨d, rest, rfl, hd, hrest⟩ := List.map_eq_cons_iff.1 hitems
    obtain ⟨hne, hmore⟩ : .messageStop ≠ event ∧ .messageStop ∉ more := by simpa using hstop
    rw [Assembly.run_cons] at hrun
    cases happly : a.apply provider event with
    | mk b answer =>
      cases answer with
      | error err => simp [Assembly.accept, happly, Except.bind] at hrun
      | ok reply =>
        have hrun' : b.run provider more = .ok a' := by
          simpa [Assembly.accept, happly, Except.bind] using hrun
        cases reply with
        | none =>
          simpa [readDeliveries, StopRequest.isMade, hd, happly]
            using ih hmore hrun' hrest d.handed
        | some r =>
          have hend := (a.apply_eq_reply_iff event r).1 (congrArg Prod.snd happly)
          exact absurd hend.1.symm hne

/-- A stream without end mark gives no reply, but an error; an overflow counts as one. A stream whose
connection fails before the message has ended and before anything else has failed gives exactly this
failure, whatever was held back and whatever comes behind it. -/
theorem readReply_of_truncated (provider : Provider) (ids : CallIds) :
    (∀ frames : List (Except Error Frame),
      (∀ frame, .ok frame ∈ frames → ¬ frame.BearsEnd provider) →
        ∃ e, readReply provider ids frames = .error e) ∧
    ∀ (before : List Frame) (events : List Event) (a : Assembly) (e : Error)
      (behind : List (Except Error Frame)),
      (Translation.new provider ids).translate before = .ok events →
        .messageStop ∉ events → Assembly.run provider .waiting events = .ok a →
          readReply provider ids (before.map .ok ++ .error e :: behind) = .error e := by
  constructor
  · intro frames h
    exact readDeliveries_eq_error provider none .closes _
      (messageStop_notMem_told provider ids .closes h) _ _
  · intro before events a e behind htranslate hstop hrun
    exact readDeliveries_of_run hstop hrun (deliveriesFrom_failure htranslate .closes 0 e behind)
      _ _ _

end ChatWire
