import ChatWire.Proofs.Stream.GeminiLedger
import ChatWire.Proofs.Stream.OllamaLedger
import ChatWire.Proofs.Stream.OpenAILedger

/-!
# Translated streams are in order

Where a provider streams chunks, the events of its messages are made here. Whatever the chunks hold,
the assembly of a message has nothing to say against the order of these events
(`Transcript.translated_inOrder`).
-/

namespace ChatWire

open Step Transcript

variable {provider : Provider} {events : List Event}

/-- An over transcript, or one whose ledger is kept, is in order up to its end. -/
theorem OverOr.isOrderly {σ : Type} {kept : List Event → σ → Prop} {s : σ}
    (h : OverOr provider kept events s)
    (hkept : kept events s → ∃ history, IsOngoing provider events history) :
    IsOrderly provider (upToEnd events) := by
  rcases h with hover | hs
  · exact hover.orderly
  · obtain ⟨history, hongoing⟩ := hkept hs
    rw [upToEnd_of_forall hongoing.isEnd_eq_false]
    exact .goesOn hongoing

namespace Translation

/-- The translation of a provider's chunks keeps its ledger, or the transcript is over. -/
def Kept (provider : Provider) (events : List Event) (t : Translation) : Prop :=
  match provider, t with
  | .gemini, .gemini s => OverOr .gemini Gemini.StreamState.Kept events s
  | .openai, .openai s => OverOr .openai OpenAI.StreamState.Kept events s
  | .ollama, .ollama s => OverOr .ollama Ollama.StreamState.Kept events s
  | _, _ => False

variable {t t' : Translation} {more : List Event}

theorem kept_new (h : provider ≠ .anthropic) (ids : CallIds) :
    Kept provider [] (new provider ids) := by
  cases provider with
  | anthropic => exact absurd rfl h
  | gemini => exact .inr (Gemini.StreamState.kept_new ids)
  | openai => exact .inr OpenAI.StreamState.kept_new
  | ollama => exact .inr Ollama.StreamState.kept_new

theorem Kept.isOrderly (h : t.Kept provider events) : IsOrderly provider (upToEnd events) := by
  unfold Kept at h
  split at h
  case h_1 s => exact h.isOrderly fun ⟨history, hagrees⟩ => ⟨history, hagrees.envelope.ongoing⟩
  case h_2 s => exact h.isOrderly fun ⟨history, hagrees⟩ => ⟨history, hagrees.envelope.ongoing⟩
  case h_3 s => exact h.isOrderly fun ⟨history, hagrees⟩ => ⟨history, hagrees.envelope.ongoing⟩
  case h_4 => exact h.elim

/-- A frame keeps the ledger. -/
theorem Kept.step (h : t.Kept provider events) {frame : Frame}
    (hs : t.step frame = (t', .ok more)) : t'.Kept provider (events ++ more) := by
  unfold Kept at h
  split at h
  case h_1 s =>
    obtain ⟨s', hstep, rfl⟩ := exists_of_wrapped .gemini hs
    exact Gemini.StreamState.step_keeps frame events s s' more h hstep
  case h_2 s =>
    obtain ⟨s', hstep, rfl⟩ := exists_of_wrapped .openai hs
    exact OpenAI.StreamState.step_keeps frame events s s' more h hstep
  case h_3 s =>
    obtain ⟨s', hstep, rfl⟩ := exists_of_wrapped .ollama hs
    exact Ollama.StreamState.step_keeps frame events s s' more h hstep
  case h_4 => exact h.elim

/-- So does the end of the stream. -/
theorem Kept.finish (h : t.Kept provider events) (hs : t.finish = (t', .ok more)) :
    t'.Kept provider (events ++ more) := by
  unfold Kept at h
  split at h
  case h_1 s =>
    obtain ⟨s', hfinish, rfl⟩ := exists_of_wrapped .gemini hs
    exact Gemini.StreamState.finish_leads.overOr events s s' more h hfinish
  case h_2 s =>
    obtain ⟨s', hfinish, rfl⟩ := exists_of_wrapped .openai hs
    exact OpenAI.StreamState.finish_leads.overOr events s s' more h hfinish
  case h_3 s =>
    obtain ⟨s', hfinish, rfl⟩ := exists_of_wrapped .ollama hs
    exact Ollama.StreamState.finish_leads.overOr events s s' more h hfinish
  case h_4 => exact h.elim

end Translation

namespace Transcript

/-- The events that come of a stream, up to the end of the message or the error that the provider
reports. -/
def translated (provider : Provider) (ids : CallIds) (frames : List (Except Error Frame)) :
    List Event :=
  upToEnd ((streamEvents provider ids frames).filterMap Except.toOption)

theorem isOrderly_translated (h : provider ≠ .anthropic) (ids : CallIds)
    (frames : List (Except Error Frame)) : IsOrderly provider (translated provider ids frames) := by
  have htold : (streamEvents provider ids frames).filterMap Except.toOption
      = [] ++ told (deliveriesFrom (.new provider ids) .closes 0 frames) := by
    rw [streamEvents, List.filterMap_map]
    rfl
  rw [translated, htold]
  exact told_deliveriesFrom (I := Translation.Kept provider)
    (F := fun events => IsOrderly provider (upToEnd events)) (fun _ _ hkept => hkept.isOrderly)
    (fun _ _ _ _ _ _ hkept hs => hkept.step hs)
    (fun _ _ _ _ hkept hs => (hkept.finish hs).isOrderly) .closes 0 (Translation.kept_new h ids)

/-- The events that are made of a provider's chunks come in order: an assembly that takes them fails
at most with an error that the provider reports, or, in the OpenAI format, with the arguments of a
call that are no JSON. Every block begins at most once, takes only fragments of its kind, and then
only before it ends, ends at most once, and has ended when the message ends. -/
theorem translated_inOrder (h : provider ≠ .anthropic) (ids : CallIds)
    (frames : List (Except Error Frame)) :
    (∀ err, Assembly.run provider .waiting (translated provider ids frames) = .error err →
      (∃ kind message, .failure kind message ∈ translated provider ids frames ∧
        err = .reported kind message) ∨
      provider = .openai ∧ ∃ text, OpenBlock.readArguments? text = none ∧
        err = .malformed .openai .streamedArguments text) ∧
    ∀ i, ∃ t : BlockTrace, t.steps = stepsAt i (translated provider ids frames) ∧ t.IsAccepted ∧
      (.messageStop ∈ translated provider ids frames → ¬ t.IsOpen) := by
  have horderly := isOrderly_translated h ids frames
  exact ⟨fun err herr => horderly.run_error herr, horderly.exists_trace⟩

/-- A chunk with a text and a call, and the word that the message ends. -/
def callChunk : Json :=
  .object [("candidates", .array [.object [
    ("content", .object [("parts", .array [
      .object [("text", .string "It is")],
      .object [("functionCall", .object [
        ("args", .object [("zone", .string "UTC")]), ("name", .string "time")])]])]),
    ("finishReason", .string "STOP")]])]

/-- The message of this chunk ends, so both of its blocks have ended. -/
theorem translated_inOrder_callChunk :
    Provider.gemini ≠ .anthropic ∧
    .messageStop ∈ translated .gemini .numbered [.ok ⟨none, callChunk.toText⟩] ∧
    ∀ i, ∃ t : BlockTrace,
      t.steps = stepsAt i (translated .gemini .numbered [.ok ⟨none, callChunk.toText⟩]) ∧
        ¬ t.IsOpen := by
  have hstop : .messageStop ∈ translated .gemini .numbered [.ok ⟨none, callChunk.toText⟩] := by
    decide +kernel
  have hprovider : Provider.gemini ≠ .anthropic := by decide
  refine ⟨hprovider, hstop, fun i => ?_⟩
  obtain ⟨t, hsteps, -, hopen⟩ :=
    (translated_inOrder hprovider .numbered [.ok ⟨none, callChunk.toText⟩]).2 i
  exact ⟨t, hsteps, hopen hstop⟩

end Transcript

end ChatWire
