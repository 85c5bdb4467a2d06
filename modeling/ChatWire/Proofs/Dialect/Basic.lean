import ChatWire.Dialect.Basic
import ChatWire.Message.Basic
import ChatWire.Proofs.Lists
import ChatWire.Proofs.Text.Base64

/-!
# Writing and reading in any format

What the round trips of all formats share. A message is written block by block; if that fails, then
because of one of the blocks, or because its role is one that nobody speaks in.
-/

namespace ChatWire.Dialect

/-! ## Runs of steps that may fail -/

section Runs

universe u v w

variable {ε : Type u} {σ β : Type v} {α : Type w}

theorem bind_eq_ok_iff {γ : Type v} {x : Except ε β} {f : β → Except ε γ} {z : γ} :
    x >>= f = .ok z ↔ ∃ y, x = .ok y ∧ f y = .ok z := by
  cases x with
  | error e =>
    constructor
    · intro h
      cases h
    · rintro ⟨y, hy, -⟩
      cases hy
  | ok y =>
    constructor
    · intro h
      exact ⟨y, rfl, h⟩
    · rintro ⟨y', hy, h⟩
      obtain rfl := Except.ok.inj hy
      exact h

theorem bind_eq_error_iff {γ : Type v} {x : Except ε β} {f : β → Except ε γ} {e : ε} :
    x >>= f = .error e ↔ x = .error e ∨ ∃ y, x = .ok y ∧ f y = .error e := by
  cases x with
  | error e' =>
    constructor
    · intro h
      exact .inl (congrArg Except.error (Except.error.inj h))
    · rintro (h | ⟨y, hy, -⟩)
      · exact congrArg Except.error (Except.error.inj h)
      · cases hy
  | ok y =>
    constructor
    · intro h
      exact .inr ⟨y, rfl, h⟩
    · rintro (h | ⟨y', hy, h⟩)
      · cases h
      · obtain rfl := Except.ok.inj hy
        exact h

theorem map_eq_ok_iff {γ : Type v} {x : Except ε β} {f : β → γ} {z : γ} :
    x.map f = .ok z ↔ ∃ y, x = .ok y ∧ f y = z := by
  cases x <;> simp [Except.map]

theorem map_eq_error_iff {γ : Type v} {x : Except ε β} {f : β → γ} {e : ε} :
    x.map f = .error e ↔ x = .error e := by
  cases x <;> simp [Except.map]

theorem foldlM_cons_eq_ok_iff {step : σ → α → Except ε σ} {x : α} {rest : List α} {s t : σ} :
    (x :: rest).foldlM step s = .ok t ↔
      ∃ next, step s x = .ok next ∧ rest.foldlM step next = .ok t := by
  rw [List.foldlM_cons, bind_eq_ok_iff]

theorem exists_of_foldlM_eq_error {step : σ → α → Except ε σ} {xs : List α} {s : σ} {e : ε}
    (h : xs.foldlM step s = .error e) : ∃ t, ∃ x ∈ xs, step t x = .error e := by
  induction xs generalizing s with
  | nil => cases h
  | cons x rest ih =>
    rw [List.foldlM_cons] at h
    rcases bind_eq_error_iff.1 h with hstep | ⟨t, -, hrest⟩
    · exact ⟨s, x, List.mem_cons_self, hstep⟩
    · obtain ⟨t', y, hy, hfail⟩ := ih hrest
      exact ⟨t', y, List.mem_cons_of_mem x hy, hfail⟩

theorem mapM_cons_eq_ok_iff {f : α → Except ε β} {x : α} {xs : List α} {ys : List β} :
    (x :: xs).mapM f = .ok ys ↔ ∃ y zs, f x = .ok y ∧ xs.mapM f = .ok zs ∧ ys = y :: zs := by
  rw [List.mapM_cons, bind_eq_ok_iff]
  constructor
  · rintro ⟨y, hy, hrest⟩
    obtain ⟨zs, hzs, hpure⟩ := bind_eq_ok_iff.1 hrest
    exact ⟨y, zs, hy, hzs, (Except.ok.inj hpure).symm⟩
  · rintro ⟨y, zs, hy, hzs, rfl⟩
    exact ⟨y, hy, bind_eq_ok_iff.2 ⟨zs, hzs, rfl⟩⟩

theorem mapM_cons_eq_error_iff {f : α → Except ε β} {x : α} {xs : List α} {e : ε} :
    (x :: xs).mapM f = .error e ↔ f x = .error e ∨ (∃ y, f x = .ok y) ∧ xs.mapM f = .error e := by
  rw [List.mapM_cons, bind_eq_error_iff]
  refine or_congr_right ?_
  constructor
  · rintro ⟨y, hy, hrest⟩
    rcases bind_eq_error_iff.1 hrest with hxs | ⟨zs, -, hpure⟩
    · exact ⟨⟨y, hy⟩, hxs⟩
    · cases hpure
  · rintro ⟨⟨y, hy⟩, hxs⟩
    exact ⟨y, hy, bind_eq_error_iff.2 (.inl hxs)⟩

theorem mapM_eq_ok_iff_forall₂ {f : α → Except ε β} {xs : List α} {ys : List β} :
    xs.mapM f = .ok ys ↔ List.Forall₂ (fun x y => f x = .ok y) xs ys := by
  induction xs generalizing ys with
  | nil => simp [pure, Except.pure, eq_comm]
  | cons x rest ih =>
    rw [mapM_cons_eq_ok_iff]
    constructor
    · rintro ⟨y, zs, hy, hzs, rfl⟩
      exact .cons hy (ih.1 hzs)
    · intro h
      obtain ⟨y, zs, hy, hzs, rfl⟩ := List.forall₂_cons_left_iff.1 h
      exact ⟨y, zs, hy, ih.2 hzs, rfl⟩

/-- A run over elements of which each is known by what it is related to. -/
theorem mapM_eq_ok_of_forall₂ {γ : Type*} {r : γ → α → Prop} {f : α → Except ε β} {g : γ → β}
    {xs : List α} {ys : List γ} (h : List.Forall₂ r ys xs)
    (hf : ∀ y ∈ ys, ∀ x, r y x → f x = .ok (g y)) : xs.mapM f = .ok (ys.map g) := by
  have hmem : List.Forall₂ (fun y x => y ∈ ys ∧ r y x) ys xs :=
    (List.forall₂_and_left ys xs).2 ⟨fun _ hy => hy, h⟩
  rw [mapM_eq_ok_iff_forall₂, List.forall₂_map_right_iff]
  exact (hmem.imp fun y x hyx => hf y hyx.1 x hyx.2).flip

theorem exists_of_mem_of_mapM_eq_ok {f : α → Except ε β} {xs : List α} {ys : List β} {y : β}
    (h : xs.mapM f = .ok ys) (hy : y ∈ ys) : ∃ x ∈ xs, f x = .ok y :=
  exists_mem_of_forall₂ (mapM_eq_ok_iff_forall₂.1 h).flip hy

theorem exists_mapM_eq_ok {f : α → Except ε β} {r : α → β → Prop} {xs : List α}
    (h : ∀ x ∈ xs, ∃ y, f x = .ok y ∧ r x y) : ∃ ys, xs.mapM f = .ok ys ∧ List.Forall₂ r xs ys := by
  induction xs with
  | nil => exact ⟨[], rfl, .nil⟩
  | cons x rest ih =>
    obtain ⟨⟨y, hy, hr⟩, hrest⟩ := List.forall_mem_cons.1 h
    obtain ⟨ys, hys, hrs⟩ := ih hrest
    exact ⟨y :: ys, mapM_cons_eq_ok_iff.2 ⟨y, ys, hy, hys, rfl⟩, .cons hr hrs⟩

/-- A run over a list fails with the error of its first element that fails. -/
theorem mapM_eq_error_iff {f : α → Except ε β} {xs : List α} {e : ε} :
    xs.mapM f = .error e ↔ ∃ before x after, xs = before ++ x :: after ∧
      (∀ y ∈ before, ∃ z, f y = .ok z) ∧ f x = .error e := by
  induction xs with
  | nil => simp [pure, Except.pure]
  | cons x rest ih =>
    rw [mapM_cons_eq_error_iff, ih]
    constructor
    · rintro (hx | ⟨hx, before, y, after, rfl, hbefore, hy⟩)
      · exact ⟨[], x, rest, rfl, by simp, hx⟩
      · exact ⟨x :: before, y, after, rfl, List.forall_mem_cons.2 ⟨hx, hbefore⟩, hy⟩
    · rintro ⟨before, y, after, hsplit, hbefore, hy⟩
      cases before with
      | nil =>
        obtain ⟨rfl, -⟩ := List.cons.inj hsplit
        exact .inl hy
      | cons z before =>
        obtain ⟨rfl, rfl⟩ := List.cons.inj hsplit
        obtain ⟨hx, hbefore⟩ := List.forall_mem_cons.1 hbefore
        exact .inr ⟨hx, before, y, after, rfl, hbefore, hy⟩

theorem exists_of_mapM_eq_error {f : α → Except ε β} {xs : List α} {e : ε}
    (h : xs.mapM f = .error e) : ∃ x ∈ xs, f x = .error e := by
  obtain ⟨before, x, after, rfl, -, hx⟩ := mapM_eq_error_iff.1 h
  exact ⟨x, by simp, hx⟩

theorem mapM_flatMap {γ : Type w} {f : α → Except ε β} {g : γ → List α} (xs : List γ) :
    (xs.flatMap g).mapM f = (xs.mapM fun x => (g x).mapM f).map List.flatten := by
  induction xs with
  | nil => rfl
  | cons x rest ih =>
    rw [List.flatMap_cons, List.mapM_append, List.mapM_cons, ih]
    cases (g x).mapM f with
    | error e => rfl
    | ok ys => cases rest.mapM fun x => (g x).mapM f <;> rfl

/-- What takes each element alone takes a list exactly if it takes all its elements. -/
theorem mapM_eq_ok_iff {f : α → Except ε β} {p : α → Prop} {g : α → β}
    (h : ∀ x y, f x = .ok y ↔ p x ∧ y = g x) {xs : List α} {ys : List β} :
    xs.mapM f = .ok ys ↔ (∀ x ∈ xs, p x) ∧ ys = xs.map g := by
  induction xs generalizing ys with
  | nil => simp [pure, Except.pure, eq_comm]
  | cons x rest ih =>
    rw [mapM_cons_eq_ok_iff, List.forall_mem_cons, List.map_cons]
    constructor
    · rintro ⟨y, zs, hy, hzs, rfl⟩
      obtain ⟨hx, rfl⟩ := (h x y).1 hy
      obtain ⟨hrest, rfl⟩ := ih.1 hzs
      exact ⟨⟨hx, hrest⟩, rfl⟩
    · rintro ⟨⟨hx, hrest⟩, rfl⟩
      exact ⟨g x, rest.map g, (h x _).2 ⟨hx, rfl⟩, ih.2 ⟨hrest, rfl⟩, rfl⟩

theorem mapM_map_eq_ok {γ : Type w} {f : γ → Except ε β} {g : α → γ} {k : α → β}
    (xs : List α) (h : ∀ x ∈ xs, f (g x) = .ok (k x)) : (xs.map g).mapM f = .ok (xs.map k) := by
  induction xs with
  | nil => rfl
  | cons x rest ih =>
    obtain ⟨hx, hrest⟩ := List.forall_mem_cons.1 h
    rw [List.map_cons, List.mapM_cons, hx, ih hrest]
    rfl

end Runs

/-! ## Members that have to be there -/

variable {provider : Provider}

theorem requireText_eq_ok {value : Json} {key s : String} (h : value.get key = .string s) :
    requireText provider value key = .ok s := by
  rw [requireText, h]
  rfl

theorem requireBase64_encodeText (bytes : Bytes) :
    requireBase64 provider (Base64.encodeText bytes) = .ok bytes := by
  rw [requireBase64, Base64.decodeText?_encodeText]

/-! ## Speakers -/

/-- The name of a role that can be written. -/
def speakerName (model : String) (role : Role) : String :=
  if role = .assistant then model else "user"

theorem encodeSpeaker_eq_ok_iff {model name : String} {role : Role} :
    encodeSpeaker provider model role = .ok name ↔
      role ≠ .system ∧ name = speakerName model role := by
  cases role <;> simp [encodeSpeaker, speakerName, eq_comm]

theorem exists_of_encodeSpeaker_eq_error {model : String} {role : Role} {e : Error}
    (h : encodeSpeaker provider model role = .error e) :
    ∃ what, e = .unsupported provider what := by
  cases role with
  | system => exact ⟨.systemMessage, (Except.error.inj h).symm⟩
  | user | tool | assistant => cases h

/-! ## Tool calls -/

/-- A tool call as it comes back: arguments that are null are none. -/
def readCall (c : ToolCall) : ToolCall :=
  { c with arguments := if c.arguments = .null then .emptyObject else c.arguments }

theorem argumentsOf_eq (c : ToolCall) : argumentsOf c.arguments = (readCall c).arguments := by
  rw [readCall]
  cases c.arguments <;> rfl

end ChatWire.Dialect
