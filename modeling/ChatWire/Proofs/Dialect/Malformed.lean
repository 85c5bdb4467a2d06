import ChatWire.Dialect.Request
import ChatWire.Proofs.Dialect.Basic

/-!
# How reading a message fails

The readers of messages fail in one way only: something that the provider sent is malformed
(`Provider.malformed_of_decodeMessage`). So any other error that comes of a reply is one that the
provider itself reports.
-/

namespace ChatWire

namespace Dialect

variable {p : Provider} {α β σ : Type}

/-- If the reading fails, then because of something malformed. -/
def FailsMalformed (p : Provider) (x : Except Error α) : Prop :=
  ∀ e, x = .error e → ∃ defect fragment, e = .malformed p defect fragment

namespace FailsMalformed

theorem ok (y : α) : FailsMalformed p (.ok y) := nofun

theorem pure (y : α) : FailsMalformed p (pure y) := ok y

theorem malformed (defect : Defect) (fragment : String) :
    FailsMalformed (α := α) p (.error (.malformed p defect fragment)) := by
  intro e h
  exact ⟨defect, fragment, (Except.error.inj h).symm⟩

theorem malformedValue (defect : Defect) (value : Json) :
    FailsMalformed (α := α) p (.error (.malformedValue p defect value)) := malformed _ _

theorem bind {x : Except Error α} {f : α → Except Error β} (hx : FailsMalformed p x)
    (hf : ∀ y, FailsMalformed p (f y)) : FailsMalformed p (x >>= f) := by
  intro e h
  rcases bind_eq_error_iff.1 h with h | ⟨y, -, h⟩
  · exact hx e h
  · exact hf y e h

theorem mapM {f : α → Except Error β} (hf : ∀ x, FailsMalformed p (f x)) (xs : List α) :
    FailsMalformed p (xs.mapM f) := by
  intro e h
  obtain ⟨x, -, hx⟩ := exists_of_mapM_eq_error h
  exact hf x e hx

theorem foldlM {step : σ → α → Except Error σ} (hstep : ∀ s x, FailsMalformed p (step s x))
    (xs : List α) (s : σ) : FailsMalformed p (xs.foldlM step s) := by
  induction xs generalizing s with
  | nil => exact pure s
  | cons x rest ih => exact bind (hstep s x) ih

end FailsMalformed

open FailsMalformed

theorem requireText_fails (value : Json) (key : String) :
    FailsMalformed p (requireText p value key) := by
  unfold requireText
  split
  · exact ok _
  · exact malformedValue _ _

theorem requireBase64_fails (encoded : String) :
    FailsMalformed p (requireBase64 p encoded) := by
  unfold requireBase64
  split
  · exact ok _
  · exact malformed _ _

end Dialect

open Dialect Dialect.FailsMalformed

/-! ## Chat completions -/

namespace OpenAI

theorem bad_fails {α : Type} (value : Json) (description : String) :
    FailsMalformed (α := α) .openai (bad value description) := malformedValue _ _

theorem textOf_fails (value : Json) (key : String) : FailsMalformed .openai (textOf value key) :=
  requireText_fails value key

theorem splitDataUrl_fails (part : Json) (rest : List Char) :
    FailsMalformed .openai (splitDataUrl part rest) := by
  unfold splitDataUrl
  dsimp only
  split
  · exact bad_fails _ _
  · split
    · exact ok _
    · exact bad_fails _ _

theorem decodeImage_fails (part : Json) : FailsMalformed .openai (decodeImage part) := by
  unfold decodeImage
  dsimp only
  split
  all_goals
    refine FailsMalformed.bind ?_ fun url => ?_
    · first | exact ok _ | exact textOf_fails _ _
    · split
      · exact (splitDataUrl_fails _ _).bind fun _ => (requireBase64_fails _).bind fun _ => ok _
      · exact ok _

theorem decodeParts_fails (parts : List Json) : FailsMalformed .openai (decodeParts parts) := by
  induction parts with
  | nil => exact ok _
  | cons part rest ih =>
    rw [decodeParts]
    split
    · exact (textOf_fails _ _).bind fun _ => ih.bind fun _ => ok _
    · exact (decodeImage_fails _).bind fun _ => ih.bind fun _ => ok _
    · exact ih

theorem decodeContent_fails (content : Json) : FailsMalformed .openai (decodeContent content) := by
  unfold decodeContent
  split
  · exact ok _
  · exact ok _
  · exact decodeParts_fails _
  · exact bad_fails _ _

theorem decodeToolCall_fails (call : Json) : FailsMalformed .openai (decodeToolCall call) := by
  have hrest (arguments : Json) : FailsMalformed .openai (do
      let id ← textOf call "id"
      let name ← textOf (call.get "function") "name"
      return ToolCall.mk id name arguments) :=
    (textOf_fails _ _).bind fun _ => (textOf_fails _ _).bind fun _ => ok _
  unfold decodeToolCall
  dsimp only
  split
  · exact (ok _).bind hrest
  · exact (ok _).bind hrest
  · split
    · exact (ok _).bind hrest
    · exact (malformed _ _).bind hrest

theorem decodeToolCalls_fails (role : Role) (value : Json) :
    FailsMalformed .openai (decodeToolCalls role value) := by
  unfold decodeToolCalls
  split
  · exact ok _
  · split
    · exact bad_fails _ _
    · split
      · exact mapM decodeToolCall_fails _
      · exact bad_fails _ _

theorem decodeToolMessage_fails (value : Json) :
    FailsMalformed .openai (decodeToolMessage value) := by
  have htext : FailsMalformed .openai (resultText (value.get "content")) := by
    unfold resultText
    split
    · exact ok _
    · exact ok _
    · exact ok _
    · exact bad_fails _ _
  exact htext.bind fun _ => (textOf_fails _ _).bind fun _ => ok _

theorem decodeRole_fails (value : Json) : FailsMalformed .openai (decodeRole value) := by
  refine (textOf_fails _ _).bind fun name => ?_
  split <;> first | exact ok _ | exact malformedValue _ _

theorem decodeMessage_fails (value : Json) : FailsMalformed .openai (decodeMessage value) := by
  refine (decodeRole_fails value).bind fun role => ?_
  dsimp only
  split
  · exact decodeToolMessage_fails value
  · split
    · exact bad_fails _ _
    · exact (decodeContent_fails _).bind fun _ => (decodeToolCalls_fails _ _).bind fun _ => ok _

end OpenAI

/-! ## Gemini -/

namespace Gemini

theorem badPart_fails {α : Type} (part : Json) (description : String) :
    FailsMalformed (α := α) .gemini (badPart part description) := malformedValue _ _

theorem decodeInline_fails (part inline : Json) :
    FailsMalformed .gemini (decodeInline part inline) := by
  unfold decodeInline
  split
  · exact badPart_fails _ _
  · exact (requireText_fails _ _).bind fun _ => (requireBase64_fails _).bind fun _ => ok _

theorem decodeFile_fails (part file : Json) : FailsMalformed .gemini (decodeFile part file) := by
  unfold decodeFile
  split
  · exact badPart_fails _ _
  · exact ok _

theorem decodePart_fails (freshId : String) (part : Json) :
    FailsMalformed .gemini (decodePart freshId part) := by
  have hcall (call : Json) : FailsMalformed .gemini (decodeCall freshId call) :=
    (requireText_fails _ _).bind fun _ => ok _
  have hresponse (response : Json) : FailsMalformed .gemini (decodeResponse response) :=
    (requireText_fails _ _).bind fun _ => ok _
  unfold decodePart
  split
  · split <;> exact ok _
  · exact badPart_fails _ _
  split
  · exact (decodeInline_fails _ _).bind fun _ => ok _
  split
  · exact (decodeFile_fails _ _).bind fun _ => ok _
  split
  · exact (hcall _).bind fun _ => ok _
  split
  · exact (hresponse _).bind fun _ => ok _
  · exact ok _

theorem decodeMessage_fails (ids : CallIds) (value : Json) :
    FailsMalformed .gemini (decodeMessage ids value) := by
  have hrole : FailsMalformed .gemini (decodeRole value) := by
    unfold decodeRole
    split <;> first | exact ok _ | exact malformedValue _ _
  have hparts : FailsMalformed .gemini (decodeParts (value.get "parts")) := by
    unfold decodeParts
    split <;> first | exact ok _ | exact badPart_fails _ _
  have hadd (c : Contents) (part : Json) : FailsMalformed .gemini (c.add ids part) :=
    (decodePart_fails _ _).bind fun _ => ok _
  exact hrole.bind fun _ => hparts.bind fun _ => (foldlM hadd _ _).bind fun _ => ok _

end Gemini

/-! ## Local chat -/

namespace Ollama

theorem decodeImage_fails (image : Json) : FailsMalformed .ollama (decodeImage image) := by
  unfold decodeImage
  split
  · exact malformedValue _ _
  · exact (requireBase64_fails _).bind fun _ => ok _

theorem decodeMessage_fails (value : Json) : FailsMalformed .ollama (decodeMessage value) := by
  have hrole : FailsMalformed .ollama (decodeRole value) := by
    refine (requireText_fails _ _).bind fun name => ?_
    split
    · exact ok _
    · exact malformedValue _ _
  exact hrole.bind fun _ => (mapM decodeImage_fails _).bind fun _ => ok _

end Ollama

/-! ## Records of blocks -/

namespace Anthropic

theorem textOf_fails (value : Json) (key : String) :
    FailsMalformed .anthropic (textOf value key) := requireText_fails value key

theorem decodeSource_fails (source : Json) (fallback : String) :
    FailsMalformed .anthropic (decodeSource source fallback) := by
  refine (textOf_fails _ _).bind fun kind => ?_
  split
  · exact (textOf_fails _ _).bind fun _ => (requireBase64_fails _).bind fun _ =>
      (textOf_fails _ _).bind fun _ => ok _
  · exact (textOf_fails _ _).bind fun _ => ok _
  · exact (textOf_fails _ _).bind fun _ => ok _
  · exact malformedValue _ _

theorem resultTexts_fails (parts : List Json) :
    FailsMalformed .anthropic (resultTexts parts) := by
  induction parts with
  | nil => exact ok _
  | cons part rest ih =>
    rw [resultTexts]
    split
    · exact (textOf_fails _ _).bind fun _ => ih.bind fun _ => ok _
    · exact ih

theorem decodeResultContent_fails (content : Json) :
    FailsMalformed .anthropic (decodeResultContent content) := by
  unfold decodeResultContent
  split
  · exact ok _
  · exact ok _
  · exact (resultTexts_fails _).bind fun _ => ok _
  · exact malformedValue _ _

theorem decodeBlock_fails (block : Json) : FailsMalformed .anthropic (decodeBlock block) := by
  refine (textOf_fails _ _).bind fun kind => ?_
  split
  case h_1 | h_7 => exact (textOf_fails _ _).bind fun _ => ok _
  case h_2 | h_3 => exact (decodeSource_fails _ _).bind fun _ => ok _
  case h_4 => exact (textOf_fails _ _).bind fun _ => (textOf_fails _ _).bind fun _ => ok _
  case h_5 =>
    exact (textOf_fails _ _).bind fun _ => (decodeResultContent_fails _).bind fun _ => ok _
  case h_6 => exact (textOf_fails _ _).bind fun _ => ok _
  case h_8 => exact ok _

theorem decodeBlocks_fails (blocks : List Json) :
    FailsMalformed .anthropic (decodeBlocks blocks) := by
  induction blocks with
  | nil => exact ok _
  | cons block rest ih =>
    rw [decodeBlocks]
    refine (decodeBlock_fails block).bind fun decoded => ?_
    split
    · exact ih
    · exact ih.bind fun _ => ok _

theorem decodeMessage_fails (value : Json) : FailsMalformed .anthropic (decodeMessage value) := by
  have hcontent (content : Json) : FailsMalformed .anthropic (decodeContent content) := by
    unfold decodeContent
    split
    · exact ok _
    · exact decodeBlocks_fails _
    · exact ok _
    · exact malformedValue _ _
  refine (textOf_fails _ _).bind fun name => ?_
  dsimp only
  split
  · exact (pure _).bind fun _ => (hcontent _).bind fun _ => ok _
  · exact (pure _).bind fun _ => (hcontent _).bind fun _ => ok _
  · exact (malformedValue _ _).bind fun _ => (hcontent _).bind fun _ => ok _

end Anthropic

/-- A message is not read only if something in it is malformed. -/
theorem Provider.malformed_of_decodeMessage {p : Provider} {ids : CallIds} {value : Json}
    {e : Error} (h : p.decodeMessage ids value = .error e) :
    ∃ defect fragment, e = .malformed p defect fragment := by
  cases p with
  | anthropic => exact Anthropic.decodeMessage_fails value e h
  | gemini => exact Gemini.decodeMessage_fails ids value e h
  | openai => exact OpenAI.decodeMessage_fails value e h
  | ollama => exact Ollama.decodeMessage_fails value e h

end ChatWire
