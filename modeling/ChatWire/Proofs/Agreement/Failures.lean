import ChatWire.Proofs.Agreement.AnthropicEvents
import ChatWire.Proofs.Agreement.Basic
import ChatWire.Proofs.Dialect.Malformed
import ChatWire.Proofs.Dialect.Replies
import ChatWire.Proofs.Json.Members
import ChatWire.Proofs.Message.Counts
import ChatWire.Proofs.Stream.Ledger
import ChatWire.Proofs.Table

/-!
# Errors that a provider reports

An error may come in place of a reply, in a body or in a frame of a stream. The reader of bodies and
the reader of chunks look for it in the same member, but not in the same way: each of them has its
own word for the kind of an error, and its own notion of which values are errors at all. So they do
not report every error alike, and `failures_agree_iff` says exactly which ones they do.
-/

namespace ChatWire

variable {p : Provider} {ids : CallIds} {value : Json} {kind message : String}

/-! ## Bodies -/

/-- The error that a reader of bodies finds in one. -/
def Provider.bodyFailure? (p : Provider) (value : Json) : Option Event :=
  match p with
  | .anthropic =>
    if value.get "type" = .string "error" then
      let error := value.get "error"
      some (.failure ((error.get "type").text?.getD "error") (error.textOrEmpty "message"))
    else none
  | .gemini => (value.get? "error").map fun error =>
    .failure ((error.get "status").text?.getD "error") (error.textOrEmpty "message")
  | .openai => (value.present? "error").map fun error =>
    .failure ((error.get "type").text?.getD "error") (error.textOrEmpty "message")
  | .ollama => (value.get "error").text?.map (.failure "error")

namespace Dialect.FailsMalformed

/-- What fails because of something malformed reports no error of the provider. -/
theorem ne_reported {α : Type} {x : Except Error α} (h : FailsMalformed p x) :
    x ≠ .error (.reported kind message) := by
  intro hx
  obtain ⟨_, _, he⟩ := h _ hx
  cases he

end Dialect.FailsMalformed

open Dialect (FailsMalformed parseBody)
open Dialect.FailsMalformed (ok ne_reported)

theorem Provider.decodeMessage_fails (p : Provider) (ids : CallIds) (value : Json) :
    FailsMalformed p (p.decodeMessage ids value) := fun _ h => malformed_of_decodeMessage h

theorem Provider.decodeReply_eq_reported_iff {body : Bytes}
    (hread : Json.readBytes? body = some value) :
    p.decodeReply ids body = .error (.reported kind message) ↔
      p.bodyFailure? value = some (.failure kind message) := by
  have hparse : parseBody p body = .ok value := by rw [parseBody, hread]
  -- behind the look at the error nothing is reported
  have hquiet {x : Except Error Reply} (h : FailsMalformed p x) :
      x = .error (.reported kind message) ↔ none = some (Event.failure kind message) :=
    iff_of_false (ne_reported h) (Option.some_ne_none _).symm
  cases p with
  | anthropic =>
    rw [decodeReply, Anthropic.decodeReply, hparse, bodyFailure?]
    dsimp only [bind, Except.bind]
    split
    · simp [throw, throwThe, MonadExceptOf.throw]
    · exact hquiet ((decodeMessage_fails .anthropic ids value).bind fun _ => ok _)
  | gemini =>
    rw [decodeReply, Gemini.decodeReply, hparse, bodyFailure?]
    dsimp only [bind, Except.bind]
    cases value.get? "error" with
    | some error => simp [throw, throwThe, MonadExceptOf.throw]
    | none =>
      -- the sum of the output counts can overflow, and nobody reports that
      cases husage : ((Gemini.field? value "usage_metadata" "usageMetadata").map
          Gemini.decodeUsage).getD (pure {}) with
      | error e =>
        obtain rfl := Gemini.eq_overflow_of_report husage
        simp
      | ok usage =>
        refine hquiet ?_
        dsimp only
        split
        · split
          · exact ok _
          · exact Gemini.badPart_fails _ _
        · split
          · exact (decodeMessage_fails .gemini ids _).bind fun _ => ok _
          · exact ok _
  | openai =>
    rw [decodeReply, OpenAI.decodeReply, hparse, bodyFailure?]
    dsimp only [bind, Except.bind]
    cases value.present? "error" with
    | some error => simp [throw, throwThe, MonadExceptOf.throw]
    | none =>
      refine hquiet ?_
      dsimp only
      split
      · exact OpenAI.bad_fails _ _
      · exact (decodeMessage_fails .openai ids _).bind fun _ => ok _
  | ollama =>
    rw [decodeReply, Ollama.decodeReply, hparse, bodyFailure?]
    dsimp only [bind, Except.bind]
    cases (value.get "error").text? with
    | some error => simp [throw, throwThe, MonadExceptOf.throw]
    | none => exact hquiet ((decodeMessage_fails .ollama ids _).bind fun _ => ok _)

/-! ## Frames -/

/-- A step that begins with another event reports no error. -/
theorem Step.sequence_ne_event {σ : Type} {step : Step σ} {rest : List (Step σ)} {s s' : σ}
    {e e' : Event} (hstep : step s = (s', .ok [e])) (hne : e ≠ e') :
    (sequence (step :: rest) s).2 ≠ .ok [e'] := by
  rw [sequence, andThen, hstep]
  dsimp only
  cases sequence rest s' with
  | mk t given =>
    cases given with
    | error err =>
      intro h
      cases h
    | ok more =>
      intro h
      exact hne (List.cons.inj (Except.ok.inj h)).1

theorem Translation.step_new_eq_failure_iff {frame : Frame} (hp : p ≠ .anthropic)
    (hread : Json.read? frame.data = some value) :
    ((Translation.new p ids).step frame).2 = .ok [.failure kind message] ↔
      Chunk.failure? value = some (.failure kind message) := by
  have hparse : Chunk.parse p frame = .ok value := by rw [Chunk.parse, hread]
  have hevent {σ : Type} (s : σ) (failure : Event) :
      (Step.event failure s).2 = .ok [.failure kind message] ↔
        some failure = some (Event.failure kind message) := by
    simp [Step.event, Step.emit]
  have hbegun {σ : Type} {first : Step σ} {rest : List (Step σ)} {s s' : σ} {role : Role}
      {usage : TokenUsage} (hfirst : first s = (s', .ok [.messageStart role usage])) :
      (Step.sequence (first :: rest) s).2 = .ok [.failure kind message] ↔
        none = some (Event.failure kind message) :=
    iff_of_false (Step.sequence_ne_event hfirst (by simp)) (Option.some_ne_none _).symm
  cases p with
  | anthropic => exact absurd rfl hp
  | gemini =>
    rw [new, step, Gemini.StreamState.step, hparse]
    dsimp only [Gemini.StreamState.addChunk]
    cases Chunk.failure? value with
    | some failure => exact hevent _ failure
    | none => exact hbegun rfl
  | openai =>
    rw [new, step, OpenAI.StreamState.step, OpenAI.StreamState.isDone_of_read? hread, hparse]
    dsimp only [OpenAI.StreamState.addChunk]
    cases Chunk.failure? value with
    | some failure => exact hevent _ failure
    | none => exact hbegun rfl
  | ollama =>
    rw [new, step, Ollama.StreamState.step, hparse]
    dsimp only
    cases Chunk.failure? value with
    | some failure => exact hevent _ failure
    | none => exact hbegun rfl

/-! ## Errors that are told alike -/

/-- What a chunk reports is told by the text of its error, if that is a string. -/
theorem Chunk.failure?_eq (chunk : Json) :
    failure? chunk = (chunk.present? "error").map fun error =>
      match error.text? with
      | some message => .failure "error" message
      | none => .failure (((error.get "type").text?.or (error.get "status").text?).getD "error")
        (error.textOrEmpty "message") := by
  unfold failure?
  cases chunk.present? "error" with
  | none => rfl
  | some error => cases error <;> rfl

/-- The values for an error that both readers of a format take for the same error, or for none. -/
def Provider.TellsAlike (p : Provider) : Option Json → Prop
  | none => True
  | some error =>
    if error.isNull then p ≠ .gemini
    else match error.text? with
      | some s => p = .ollama ∨ s = ""
      | none =>
        let type := (error.get "type").text?
        let status := (error.get "status").text?.getD "error"
        match p with
        | .openai => type.isSome ∨ status = "error"
        | .gemini => type = none ∨ type = some status
        | _ => False

theorem Json.get_of_text? {v : Json} {s : String} (h : v.text? = some s) (key : String) :
    v.get key = .null := by
  cases v with
  | string => rfl
  | _ => cases h

theorem Json.text?_of_isNull {v : Json} (h : v.isNull = true) : v.text? = none := by
  cases v with
  | null => rfl
  | _ => cases h

theorem Provider.bodyFailure?_eq_iff (hp : p ≠ .anthropic) :
    p.bodyFailure? value = Chunk.failure? value ↔ p.TellsAlike (value.get? "error") := by
  cases herror : value.get? "error" with
  | none =>
    have hpresent : value.present? "error" = none := by rw [Json.present?, herror]; rfl
    have hget : (value.get "error").text? = none := by rw [Json.get, herror]; rfl
    have hnone : p.bodyFailure? value = none := by
      cases p with
      | anthropic => exact absurd rfl hp
      | gemini => rw [bodyFailure?, herror]; rfl
      | openai => rw [bodyFailure?, hpresent]; rfl
      | ollama => rw [bodyFailure?, hget]; rfl
    rw [hnone, Chunk.failure?_eq, hpresent]
    exact iff_of_true rfl trivial
  | some error =>
    have hpresent : value.present? "error" = if error.isNull then none else some error := by
      rw [Json.present?, herror, Option.filter_some]
      cases error.isNull <;> rfl
    have hget : value.get "error" = error := by rw [Json.get, herror]; rfl
    rw [Chunk.failure?_eq, hpresent, TellsAlike, bodyFailure?.eq_def, hpresent, herror, hget]
    cases hnull : error.isNull with
    | true =>
      have htext := Json.text?_of_isNull hnull
      cases p <;> simp [htext] at hp ⊢
    | false =>
      cases htext : error.text? with
      | some s =>
        have hmember (key : String) : (error.get key).text? = none := by
          rw [Json.get_of_text? htext]
          rfl
        have hmessage : error.textOrEmpty "message" = "" := by
          rw [Json.textOrEmpty, hmember, Option.getD_none]
        have hempty : "" = s ↔ s = "" := eq_comm
        cases p <;> simp [htext, hmember, hmessage, hempty] at hp ⊢
      | none =>
        cases htype : (error.get "type").text? <;> cases p <;>
          simp [htext, htype, eq_comm] at hp ⊢

/-- Read as a whole body, the text of a frame is an error that the provider reports. -/
def Provider.BodyReports (p : Provider) (ids : CallIds) (frame : Frame) (kind message : String) :
    Prop :=
  p.decodeReply ids (Bytes.ofString frame.data) = .error (.reported kind message)

/-- As the first of a stream, a frame gives one event, which is an error. -/
def Provider.FrameReports (p : Provider) (ids : CallIds) (frame : Frame) (kind message : String) :
    Prop :=
  ((Translation.new p ids).step frame).2 = .ok [.failure kind message]

/-- The text of a frame reports the same both ways. -/
def Provider.ReportsAlike (p : Provider) (ids : CallIds) (frame : Frame) : Prop :=
  ∀ kind message, p.BodyReports ids frame kind message ↔ p.FrameReports ids frame kind message

theorem Provider.exists_of_bodyFailure? {failure : Event}
    (h : p.bodyFailure? value = some failure) :
    ∃ kind message, failure = .failure kind message := by
  cases p with
  | anthropic =>
    rw [bodyFailure?] at h
    split at h
    · exact ⟨_, _, (Option.some.inj h).symm⟩
    · cases h
  | _ =>
    obtain ⟨_, -, rfl⟩ := Option.map_eq_some_iff.1 h
    exact ⟨_, _, rfl⟩

theorem readBytes?_ofString (text : String) :
    Json.readBytes? (Bytes.ofString text) = Json.read? text := by
  rw [Json.readBytes?, Bytes.text?_ofString, Option.bind_some]

theorem Provider.bodyReports_iff {frame : Frame} (hread : Json.read? frame.data = some value) :
    p.BodyReports ids frame kind message ↔ p.bodyFailure? value = some (.failure kind message) :=
  decodeReply_eq_reported_iff ((readBytes?_ofString _).trans hread)

theorem Provider.frameReports_iff {frame : Frame} (hp : p ≠ .anthropic)
    (hread : Json.read? frame.data = some value) :
    p.FrameReports ids frame kind message ↔
      Chunk.failure? value = some (.failure kind message) :=
  Translation.step_new_eq_failure_iff hp hread

theorem Provider.reportsAlike_iff (frame : Frame) (hp : p ≠ .anthropic)
    (hread : Json.read? frame.data = some value) :
    p.ReportsAlike ids frame ↔ p.TellsAlike (value.get? "error") := by
  rw [← bodyFailure?_eq_iff hp]
  simp only [ReportsAlike, bodyReports_iff hread, frameReports_iff hp hread]
  constructor
  · intro h
    refine Option.ext fun failure => ⟨fun hbody => ?_, fun hchunk => ?_⟩
    · obtain ⟨kind, message, rfl⟩ := exists_of_bodyFailure? hbody
      exact (h kind message).1 hbody
    · obtain ⟨kind, message, rfl⟩ := Step.exists_of_failure? hchunk
      exact (h kind message).2 hchunk
  · intro h kind message
    rw [h]

/-! ## Records of errors -/

namespace Anthropic

/-- A text, or none when it is left out. -/
def SaysOptionalText (v : Json) (name : String) : Option String → Prop
  | some s => v.Has name (.string s)
  | none => v.Lacks name

/-- A record of an error, whose kind and message may be left out. -/
structure SaysFailure (v : Json) (kind message : Option String) : Prop where
  type : v.Has "type" (.string "error")
  error : ∃ error, v.Has "error" error ∧ SaysOptionalText error "type" kind ∧
    SaysOptionalText error "message" message

theorem SaysOptionalText.saysText {v : Json} {name : String} {s : Option String}
    (h : SaysOptionalText v name s) : SaysText v name (s.getD "") := by
  cases s with
  | some s => exact .inl h
  | none => exact .inr ⟨rfl, h⟩

/-- Behind the tag, the record is read as the error that it says. -/
theorem event?_of_saysFailure {v : Json} {kind message : Option String}
    (h : SaysFailure v kind message) :
    event? v = some (some (.failure (kind.getD "") (message.getD ""))) := by
  obtain ⟨htype, error, herror, hkind, hmessage⟩ := h
  obtain ⟨rest, htag, hunder⟩ := Json.exists_of_has_tag htype
  have herror' := (hunder "error" (by decide)).trans herror
  have hms : Json.recordMembers? ["error"] (.object rest) = some rest :=
    Json.recordMembers?_one (.inl ⟨_, herror'⟩)
  have hfailure : failure? error = some (.failure (kind.getD "") (message.getD "")) := by
    cases error with
    | object ms =>
      have hmembers : Json.recordMembers? ["type", "message"] (.object ms) = some ms :=
        Json.recordMembers?_two (once_of_text hkind.saysText) (once_of_text hmessage.saysText)
      rw [failure?, hmembers]
      simp only [Option.bind_eq_bind, Option.bind_some, optional?_text hkind.saysText,
        optional?_text hmessage.saysText]
      rfl
    | _ => cases kind <;> simp [SaysOptionalText, Json.Has, Json.Lacks, Json.under] at hkind
  rw [event?, htag]
  simp only [Option.bind_eq_bind, Option.bind_some, Json.text?, hms,
    Json.required?_of_has herror', hfailure]
  rfl

/-- In canonical form a text that may be left out is what it is, or none. -/
theorem SaysOptionalText.text?_get {v : Json} {name : String} {s : Option String}
    (h : SaysOptionalText v name s) : (v.canonical.get name).text? = s := by
  cases s with
  | some s =>
    rw [Json.get, Json.get?_canonical_of_has h, Option.getD_some, Json.canonical_string]
    rfl
  | none =>
    rw [Json.get, Json.get?_canonical_of_lacks h, Option.getD_none]
    rfl

theorem bodyFailure?_of_saysFailure {v : Json} {kind message : Option String}
    (h : SaysFailure v kind message) : Provider.anthropic.bodyFailure? v.canonical
      = some (.failure (kind.getD "error") (message.getD "")) := by
  obtain ⟨htype, error, herror, hkind, hmessage⟩ := h
  have htag : v.canonical.get "type" = .string "error" := by
    rw [Json.get, Json.get?_canonical_of_has htype, Option.getD_some, Json.canonical_string]
  have hget : v.canonical.get "error" = error.canonical := by
    rw [Json.get, Json.get?_canonical_of_has herror, Option.getD_some]
  rw [Provider.bodyFailure?, if_pos htag]
  dsimp only
  rw [hget, hkind.text?_get, Json.textOrEmpty, hmessage.text?_get]

end Anthropic

theorem Provider.reportsAlike_iff_of_saysFailure (frame : Frame) {v : Json}
    {kind message : Option String} (hread : Json.tree? frame.data = some v)
    (h : Anthropic.SaysFailure v kind message) :
    Provider.anthropic.BodyReports ids frame (kind.getD "error") (message.getD "") ∧
      Provider.anthropic.FrameReports ids frame (kind.getD "") (message.getD "") ∧
      (Provider.anthropic.ReportsAlike ids frame ↔ kind.isSome) := by
  have hvalue : Json.read? frame.data = some v.canonical := by
    rw [Json.read?, hread, Option.map_some]
  have hbody (k m : String) : Provider.anthropic.BodyReports ids frame k m ↔
      kind.getD "error" = k ∧ message.getD "" = m := by
    rw [bodyReports_iff hvalue, Anthropic.bodyFailure?_of_saysFailure h, Option.some_inj,
      Event.failure.injEq]
  have hevents : ((Translation.new .anthropic ids).step frame).2
      = .ok [.failure (kind.getD "") (message.getD "")] := by
    rw [Translation.new, Translation.step, Anthropic.readEvent, hread, Option.bind_some,
      Anthropic.event?_of_saysFailure h]
    rfl
  have hframe (k m : String) : Provider.anthropic.FrameReports ids frame k m ↔
      kind.getD "" = k ∧ message.getD "" = m := by
    rw [FrameReports, hevents, Except.ok.injEq, List.cons.injEq, Event.failure.injEq,
      and_iff_left rfl]
  refine ⟨(hbody _ _).2 ⟨rfl, rfl⟩, (hframe _ _).2 ⟨rfl, rfl⟩, ?_⟩
  simp only [ReportsAlike, hbody, hframe]
  cases kind with
  | some kind => simp
  | none =>
    -- a kind that is left out is empty in the one, and has a name of its own in the other
    refine iff_of_false (fun hsame => ?_) (by simp)
    have hempty := ((hsame "error" (message.getD "")).1 ⟨rfl, rfl⟩).1
    exact absurd hempty (by decide)

/-! ## Both ways -/

/-- Which errors the readers of bodies find is told by `Provider.bodyFailure?`, and which ones the
readers of chunks by `Chunk.failure?`. They find the same error, or none, exactly for the values
that `Provider.TellsAlike` lists. A record of an error is reported alike exactly if it names the
kind of the error: otherwise the body has a kind that the event has not. -/
theorem failures_agree_iff (ids : CallIds) (frame : Frame) :
    (∀ (p : Provider) (value : Json), p ≠ .anthropic → Json.read? frame.data = some value →
      (∀ kind message, p.BodyReports ids frame kind message ↔
        p.bodyFailure? value = some (.failure kind message)) ∧
      (∀ kind message, p.FrameReports ids frame kind message ↔
        Chunk.failure? value = some (.failure kind message)) ∧
      (p.ReportsAlike ids frame ↔ p.TellsAlike (value.get? "error"))) ∧
    ∀ (v : Json) (kind message : Option String), Json.tree? frame.data = some v →
      Anthropic.SaysFailure v kind message →
      Provider.anthropic.BodyReports ids frame (kind.getD "error") (message.getD "") ∧
      Provider.anthropic.FrameReports ids frame (kind.getD "") (message.getD "") ∧
      (Provider.anthropic.ReportsAlike ids frame ↔ kind.isSome) := by
  refine ⟨fun p value hp hread => ⟨fun kind message => ?_, fun kind message => ?_, ?_⟩,
    fun v kind message hread hsaid => Provider.reportsAlike_iff_of_saysFailure frame hread hsaid⟩
  · exact Provider.bodyReports_iff hread
  · exact Provider.frameReports_iff hp hread
  · exact Provider.reportsAlike_iff frame hp hread

/-- An error with a kind and a message. -/
def overload : Json := .object [("error", .object [("message", .string "Slow down."),
  ("type", .string "overloaded")]), ("type", .string "error")]

theorem tree?_overload : Json.tree? overload.toText = some overload := by
  have hsame : overload.reread = overload := by decide +kernel
  rw [Json.tree?_toText (by decide), hsame]

theorem failures_agree_iff_overload :
    (Json.read? overload.toText = some overload ∧ Json.tree? overload.toText = some overload ∧
      Anthropic.SaysFailure overload (some "overloaded") (some "Slow down.")) ∧
    (Provider.openai.FrameReports .numbered ⟨none, overload.toText⟩ "overloaded" "Slow down." ∧
      Provider.openai.ReportsAlike .numbered ⟨none, overload.toText⟩) ∧
    Provider.anthropic.ReportsAlike .numbered ⟨none, overload.toText⟩ := by
  have hread : Json.read? overload.toText = some overload := by
    have hsame : overload.canonical = overload := by decide +kernel
    rw [Json.read?, tree?_overload, Option.map_some, hsame]
  have hsaid : Anthropic.SaysFailure overload (some "overloaded") (some "Slow down.") :=
    ⟨rfl, _, rfl, rfl, rfl⟩
  obtain ⟨hchunks, hrecords⟩ := failures_agree_iff .numbered ⟨none, overload.toText⟩
  obtain ⟨-, hframe, halike⟩ := hchunks .openai overload (by decide) hread
  obtain ⟨-, -, hnamed⟩ := hrecords _ _ _ tree?_overload hsaid
  exact ⟨⟨hread, tree?_overload, hsaid⟩,
    ⟨(hframe _ _).2 (by decide +kernel), halike.2 (.inl (by decide))⟩, hnamed.2 rfl⟩

/-! ### Errors that are not told alike -/

/-- An error that is not of the shape that a format has for errors, or does not name its kind. -/
def strayError : Provider → Json
  | .anthropic => .object [("error", .object [("message", .string "Slow down.")]),
    ("type", .string "error")]
  | .ollama => .object [("error", .object [("message", .string "Slow down.")])]
  | _ => .object [("error", .string "Slow down.")]

/-- A frame with this error. -/
def strayFrame (p : Provider) : Frame := ⟨none, (strayError p).toText⟩

theorem tree?_strayFrame (p : Provider) :
    Json.tree? (strayFrame p).data = some (strayError p) := by
  have hdepth : (strayError p).depth ≤ Json.maxDepth := by cases p <;> decide
  have hsame : (strayError p).reread = strayError p := by cases p <;> decide +kernel
  rw [strayFrame, Json.tree?_toText hdepth, hsame]

theorem read?_strayFrame (p : Provider) :
    Json.read? (strayFrame p).data = some (strayError p) := by
  have hsame : (strayError p).canonical = strayError p := by cases p <;> decide +kernel
  rw [Json.read?, tree?_strayFrame, Option.map_some, hsame]

theorem not_tellsAlike_strayError (hp : p ≠ .anthropic) :
    ¬ p.TellsAlike ((strayError p).get? "error") := by
  cases p with
  | anthropic => exact absurd rfl hp
  | ollama => exact id
  | _ =>
    rintro (hollama | hempty)
    · cases hollama
    · exact absurd hempty (by decide)

/-- No format has all errors told alike. -/
theorem failures_not_told_alike :
    (∀ p : Provider, p ≠ .anthropic → ¬ ∀ (ids : CallIds) (frame : Frame)
      (members : List (String × Json)), Json.read? frame.data = some (.object members) →
      p.ReportsAlike ids frame) ∧
    ¬ ∀ (ids : CallIds) (frame : Frame) (v : Json) (kind message : Option String),
      Json.tree? frame.data = some v → Anthropic.SaysFailure v kind message →
      Provider.anthropic.ReportsAlike ids frame := by
  constructor
  · intro p hp halike
    obtain ⟨members, hmembers⟩ : ∃ members, strayError p = .object members := by
      cases p <;> exact ⟨_, rfl⟩
    have hread := read?_strayFrame p
    have htold := halike .numbered (strayFrame p) members (by rw [hread, hmembers])
    rw [Provider.reportsAlike_iff _ hp hread] at htold
    exact not_tellsAlike_strayError hp htold
  · intro halike
    have hsaid : Anthropic.SaysFailure (strayError .anthropic) none (some "Slow down.") :=
      ⟨rfl, _, rfl, rfl, rfl⟩
    have htree := tree?_strayFrame .anthropic
    have htold := halike .numbered (strayFrame .anthropic) _ _ _ htree hsaid
    rw [(Provider.reportsAlike_iff_of_saysFailure _ htree hsaid).2.2] at htold
    exact absurd htold (by decide)

end ChatWire
