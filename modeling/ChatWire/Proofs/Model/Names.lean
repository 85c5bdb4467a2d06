import ChatWire.Model.Name
import Mathlib.Data.List.Basic
import Mathlib.Tactic.Common

/-!
# Shapes of model names

The names of one family have five shapes, told apart by where words, numbers and dates stand. A name
has at most one of them, but for a word, a number and a date, which are also a word and two numbers.
So reading a name needs an order between these two shapes only (`ModelIdentity.ofName_by_shapes`).
-/

namespace ChatWire.ModelIdentity

/-! ## Parts -/

/-- One or more lower-case letters. -/
def IsWord (s : String) : Prop := s ≠ "" ∧ ∀ c ∈ s.toList, 'a' ≤ c ∧ c ≤ 'z'

/-- One or more digits. -/
def IsNumber (s : String) : Prop := s ≠ "" ∧ ∀ c ∈ s.toList, isDecimalDigit c

/-- Eight digits. -/
def IsDate (s : String) : Prop := s.length = 8 ∧ ∀ c ∈ s.toList, isDecimalDigit c

variable {s : String}

theorem toList_isEmpty_eq_false_iff : s.toList.isEmpty = false ↔ s ≠ "" := by
  rw [List.isEmpty_eq_false_iff, ne_eq, String.toList_eq_nil_iff]

theorem isWord_iff : isWord s.toList ↔ IsWord s := by
  have hlower (c : Char) : c.isLower ↔ 'a' ≤ c ∧ c ≤ 'z' := by
    change (decide _ && decide _) = true ↔ _
    rw [Bool.and_eq_true, decide_eq_true_iff, decide_eq_true_iff]
    exact Iff.rfl
  simp only [isWord, IsWord, Bool.and_eq_true, Bool.not_eq_true', List.all_eq_true, hlower,
    toList_isEmpty_eq_false_iff]

theorem isNumber_iff : isNumber s.toList ↔ IsNumber s := by
  simp only [isNumber, IsNumber, Bool.and_eq_true, Bool.not_eq_true', List.all_eq_true,
    toList_isEmpty_eq_false_iff]

theorem isDate_iff : isDate s.toList ↔ IsDate s := by
  simp only [isDate, IsDate, Bool.and_eq_true, beq_iff_eq, List.all_eq_true, String.length_toList]

theorem IsDate.isNumber (h : IsDate s) : IsNumber s := by
  refine ⟨?_, h.2⟩
  rintro rfl
  exact absurd h.1 (by decide)

/-- A letter is no digit. -/
theorem isDecimalDigit_of_letter {c : Char} (h : 'a' ≤ c ∧ c ≤ 'z') : isDecimalDigit c = false := by
  have hlow : 97 ≤ c.toNat := h.1
  have hhigh : c.toNat ≤ 122 := h.2
  have hruns : ∀ first ∈ decimalZeros, first + 10 ≤ 97 ∨ 122 < first := by decide
  rw [isDecimalDigit, List.any_eq_false]
  intro first hfirst
  have hrun := hruns first hfirst
  simp only [Bool.and_eq_true, decide_eq_true_eq]
  omega

theorem IsWord.not_isNumber (h : IsWord s) : ¬ IsNumber s := by
  intro hnumber
  obtain ⟨c, hc⟩ := List.exists_mem_of_ne_nil s.toList (by simpa using h.1)
  have hdigit := hnumber.2 c hc
  rw [isDecimalDigit_of_letter (h.2 c hc)] at hdigit
  cases hdigit

theorem IsWord.notMem_hyphen (h : IsWord s) : '-' ∉ s.toList := fun hmem =>
  absurd (h.2 _ hmem) (by decide)

theorem IsNumber.notMem_hyphen (h : IsNumber s) : '-' ∉ s.toList := fun hmem =>
  absurd (h.2 _ hmem) (by decide)

/-! ## Shapes -/

/-- The shapes of names. -/
inductive Shape where
  /-- Two numbers, a word and a date. -/
  | numbersWordDate
  /-- A number, a word and a date. -/
  | numberWordDate
  /-- A word, two numbers and a date. -/
  | wordNumbersDate
  /-- A word, a number and a date. -/
  | wordNumberDate
  /-- A word and two numbers. -/
  | wordNumbers
deriving DecidableEq

namespace Shape

/-- The parts of a name of a shape, and the identity that they tell. -/
inductive Reads : Shape → List String → ModelIdentity → Prop where
  | numbersWordDate {v n m d : String} (hn : IsNumber n) (hm : IsNumber m) (hv : IsWord v)
    (hd : IsDate d) : Reads numbersWordDate [n, m, v, d] ⟨v, n ++ "." ++ m, d⟩
  | numberWordDate {v n d : String} (hn : IsNumber n) (hv : IsWord v) (hd : IsDate d) :
    Reads numberWordDate [n, v, d] ⟨v, n, d⟩
  | wordNumbersDate {v n m d : String} (hv : IsWord v) (hn : IsNumber n) (hm : IsNumber m)
    (hd : IsDate d) : Reads wordNumbersDate [v, n, m, d] ⟨v, n ++ "." ++ m, d⟩
  | wordNumberDate {v n d : String} (hv : IsWord v) (hn : IsNumber n) (hd : IsDate d) :
    Reads wordNumberDate [v, n, d] ⟨v, n, d⟩
  | wordNumbers {v n m : String} (hv : IsWord v) (hn : IsNumber n) (hm : IsNumber m) :
    Reads wordNumbers [v, n, m] ⟨v, n ++ "." ++ m, ""⟩

/-- A name of a shape, and the identity that it tells. -/
def Tells (shape : Shape) (name : String) (i : ModelIdentity) : Prop :=
  ∃ parts, name = "-".intercalate ("claude" :: parts) ∧ shape.Reads parts i

/-- What a name tells if shapes are tried in order: what the first of them tells that it has, and
nothing if it has none of them. -/
inductive FirstTells (name : String) : List Shape → ModelIdentity → Prop where
  | none : FirstTells name [] {}
  | here {shape : Shape} {rest : List Shape} {i : ModelIdentity} (h : shape.Tells name i) :
    FirstTells name (shape :: rest) i
  | later {shape : Shape} {rest : List Shape} {i : ModelIdentity}
    (h : ∀ j, ¬ shape.Tells name j) (hrest : FirstTells name rest i) :
    FirstTells name (shape :: rest) i

variable {shape shape' : Shape} {name : String} {parts : List String} {i j : ModelIdentity}

/-! ## Parts of a name -/

theorem Reads.notMem_hyphen (h : shape.Reads parts i) : ∀ p ∈ parts, '-' ∉ p.toList := by
  cases h <;> simp [IsWord.notMem_hyphen, IsNumber.notMem_hyphen, IsDate.isNumber, *]

theorem splitOn_name (h : ∀ p ∈ parts, '-' ∉ p.toList) :
    ("-".intercalate ("claude" :: parts)).toList.splitOn '-'
      = "claude".toList :: parts.map String.toList := by
  have hparts : ∀ p ∈ ("claude" :: parts).map String.toList, '-' ∉ p := by
    simpa using h
  rw [String.toList_intercalate]
  exact List.splitOn_intercalate '-' hparts (by simp)

theorem ofName_eq_ofParts (h : shape.Reads parts i) :
    ofName ("-".intercalate ("claude" :: parts)) = ofParts (parts.map String.toList) := by
  simp only [ofName, splitOn_name h.notMem_hyphen, if_true]

theorem make_of_minor (v n d : String) {m : String} (hm : m ≠ "") :
    make v.toList n.toList m.toList d.toList = ⟨v, n ++ "." ++ m, d⟩ := by
  have hlist : m.toList.isEmpty = false := toList_isEmpty_eq_false_iff.2 hm
  simp [make, hlist, ← String.toList_inj]

theorem make_of_no_minor (v n d : String) :
    make v.toList n.toList [] d.toList = ⟨v, n, d⟩ := by
  simp [make]

/-- The parts of a shape tell its identity, unless the last of two numbers is a date. -/
theorem Reads.ofParts_eq (h : shape.Reads parts i)
    (hdate : shape = .wordNumbers → ∀ j, ¬ Shape.wordNumberDate.Reads parts j) :
    ofParts (parts.map String.toList) = i := by
  cases h with
  | numbersWordDate hn hm hv hd =>
    simp [ofParts, isNumber_iff, isWord_iff, isDate_iff, hn, hm, hv, hd, make_of_minor, hm.1]
  | numberWordDate hn hv hd =>
    simp [ofParts, isNumber_iff, isWord_iff, isDate_iff, hn, hv, hd, make_of_no_minor]
  | wordNumbersDate hv hn hm hd =>
    simp [ofParts, isNumber_iff, isWord_iff, isDate_iff, hn, hm, hv, hd, hv.not_isNumber,
      make_of_minor, hm.1]
  | wordNumberDate hv hn hd =>
    simp [ofParts, isNumber_iff, isWord_iff, isDate_iff, hn, hv, hd, hv.not_isNumber,
      make_of_no_minor]
  | wordNumbers hv hn hm =>
    rename_i v n m
    have hd : ¬ IsDate m := fun hd => hdate rfl _ (.wordNumberDate hv hn hd)
    have hmake := make_of_minor v n "" hm.1
    simpa [ofParts, isNumber_iff, isWord_iff, isDate_iff, hn, hm, hv, hd, hv.not_isNumber]
      using hmake

/-- Parts that tell anything are those of a shape. -/
theorem exists_of_ofParts (h : ofParts (parts.map String.toList) ≠ {}) :
    ∃ shape : Shape, shape.Reads parts (ofParts (parts.map String.toList)) := by
  match parts with
  | [a, b, c, d] =>
    simp only [List.map_cons, List.map_nil, ofParts] at h ⊢
    split_ifs at h ⊢ with hfirst hsecond
    · simp only [Bool.and_eq_true, isNumber_iff, isWord_iff, isDate_iff] at hfirst
      obtain ⟨⟨⟨hn, hm⟩, hv⟩, hd⟩ := hfirst
      rw [make_of_minor c a d hm.1]
      exact ⟨_, .numbersWordDate hn hm hv hd⟩
    · simp only [Bool.and_eq_true, isNumber_iff, isWord_iff, isDate_iff] at hsecond
      obtain ⟨⟨⟨hv, hn⟩, hm⟩, hd⟩ := hsecond
      rw [make_of_minor a b d hm.1]
      exact ⟨_, .wordNumbersDate hv hn hm hd⟩
    · exact absurd rfl h
  | [a, b, c] =>
    simp only [List.map_cons, List.map_nil, ofParts] at h ⊢
    split_ifs at h ⊢ with hfirst hsecond hthird
    · simp only [Bool.and_eq_true, isNumber_iff, isWord_iff, isDate_iff] at hfirst
      obtain ⟨⟨hn, hv⟩, hd⟩ := hfirst
      rw [make_of_no_minor]
      exact ⟨_, .numberWordDate hn hv hd⟩
    · simp only [Bool.and_eq_true, isNumber_iff, isWord_iff, isDate_iff] at hsecond
      obtain ⟨⟨hv, hn⟩, hd⟩ := hsecond
      rw [make_of_no_minor]
      exact ⟨_, .wordNumberDate hv hn hd⟩
    · simp only [Bool.and_eq_true, isNumber_iff, isWord_iff] at hthird
      obtain ⟨⟨hv, hn⟩, hm⟩ := hthird
      have hmake : make a.toList b.toList c.toList [] = ⟨a, b ++ "." ++ c, ""⟩ :=
        make_of_minor a b "" hm.1
      rw [hmake]
      exact ⟨_, .wordNumbers hv hn hm⟩
    · exact absurd rfl h
  | [] | [_] | [_, _] | _ :: _ :: _ :: _ :: _ :: _ => exact absurd rfl h

theorem Reads.isWord_variant (h : shape.Reads parts i) : IsWord i.variant := by
  cases h <;> assumption

/-- Two shapes of the same parts are the same, unless the last part is a date, and so a number. -/
theorem Reads.eq_or (h : shape.Reads parts i) (h' : shape'.Reads parts j) :
    shape = shape' ∧ i = j ∨ (∃ k, Shape.wordNumberDate.Reads parts k) ∧
      (shape = .wordNumberDate ∨ shape = .wordNumbers) := by
  cases h with
  | numbersWordDate hn =>
    cases h' with
    | numbersWordDate => exact .inl ⟨rfl, rfl⟩
    | wordNumbersDate hv => exact absurd hn hv.not_isNumber
  | numberWordDate hn =>
    cases h' with
    | numberWordDate => exact .inl ⟨rfl, rfl⟩
    | wordNumberDate hv => exact absurd hn hv.not_isNumber
    | wordNumbers hv => exact absurd hn hv.not_isNumber
  | wordNumbersDate hv =>
    cases h' with
    | numbersWordDate hn => exact absurd hn hv.not_isNumber
    | wordNumbersDate => exact .inl ⟨rfl, rfl⟩
  | wordNumberDate hv hn hd =>
    cases h' with
    | numberWordDate hn' => exact absurd hn' hv.not_isNumber
    | wordNumberDate => exact .inl ⟨rfl, rfl⟩
    | wordNumbers => exact .inr ⟨⟨_, .wordNumberDate hv hn hd⟩, .inl rfl⟩
  | wordNumbers hv hn =>
    cases h' with
    | numberWordDate hn' => exact absurd hn' hv.not_isNumber
    | wordNumberDate _ _ hd => exact .inr ⟨⟨_, .wordNumberDate hv hn hd⟩, .inr rfl⟩
    | wordNumbers => exact .inl ⟨rfl, rfl⟩

/-! ## Names -/

/-- The parts of a name of a shape are told by the name. -/
theorem Tells.reads (h : shape.Tells name i)
    (hname : name = "-".intercalate ("claude" :: parts))
    (hparts : shape'.Reads parts j) : shape.Reads parts i := by
  obtain ⟨parts', rfl, hreads⟩ := h
  have hsplit := congrArg (List.splitOn '-') (congrArg String.toList hname)
  rw [splitOn_name hreads.notMem_hyphen, splitOn_name hparts.notMem_hyphen,
    List.cons.injEq] at hsplit
  rwa [(List.map_injective_iff.2 fun _ _ => String.toList_inj.1) hsplit.2] at hreads

/-- A name tells what its shape says, unless the last of two numbers is a date. -/
theorem Tells.ofName_eq (h : shape.Tells name i)
    (hdate : shape = .wordNumbers → ∀ j, ¬ Shape.wordNumberDate.Tells name j) :
    ofName name = i := by
  obtain ⟨parts, rfl, hreads⟩ := h
  rw [ofName_eq_ofParts hreads]
  exact hreads.ofParts_eq fun hshape j hj => hdate hshape j ⟨parts, rfl, hj⟩

/-- A name that tells anything has a shape. -/
theorem exists_of_ofName (h : ofName name ≠ {}) :
    ∃ shape : Shape, shape.Tells name (ofName name) := by
  have hname : ['-'].intercalate (name.toList.splitOn '-') = name.toList :=
    List.intercalate_splitOn '-'
  cases hsplit : name.toList.splitOn '-' with
  | nil => exact absurd (by rw [ofName, hsplit]) h
  | cons family parts =>
    have hread : ofName name = if family = "claude".toList then ofParts parts else {} := by
      rw [ofName, hsplit]
    by_cases hfamily : family = "claude".toList
    · have hparts : (parts.map String.ofList).map String.toList = parts := by simp
      rw [hread, if_pos hfamily, ← hparts] at h ⊢
      obtain ⟨shape, hreads⟩ := exists_of_ofParts h
      refine ⟨shape, parts.map String.ofList, ?_, hreads⟩
      rw [← String.toList_inj, String.toList_intercalate, List.map_cons, hparts, ← hfamily,
        ← hsplit]
      exact hname.symm
    · exact absurd (by rw [hread, if_neg hfamily]) h

/-- Two shapes of a name are the same, unless its last part is a date, and so a number. -/
theorem Tells.eq_or (h : shape.Tells name i) (h' : shape'.Tells name j) :
    shape = shape' ∧ i = j ∨ (∃ k, Shape.wordNumberDate.Tells name k) ∧
      (shape = .wordNumberDate ∨ shape = .wordNumbers) := by
  obtain ⟨parts, hname, hreads⟩ := h'
  rcases (h.reads hname hreads).eq_or hreads with hsame | ⟨⟨k, hk⟩, hshape⟩
  · exact .inl hsame
  · exact .inr ⟨⟨k, parts, hname, hk⟩, hshape⟩

/-- Where the first shape that a name has stands among the shapes that are tried. -/
theorem FirstTells.exists_of_cut {order : List Shape} (h : FirstTells name order i) :
    (∀ shape ∈ order, ∀ j, ¬ shape.Tells name j) ∧ i = {} ∨
      ∃ before shape after, order = before ++ shape :: after ∧ shape.Tells name i ∧
        ∀ shape ∈ before, ∀ j, ¬ shape.Tells name j := by
  induction h with
  | none => exact .inl ⟨nofun, rfl⟩
  | here h => exact .inr ⟨[], _, _, rfl, h, nofun⟩
  | later h hrest ih =>
    rcases ih with ⟨hnone, rfl⟩ | ⟨before, shape, after, rfl, htells, hbefore⟩
    · exact .inl ⟨List.forall_mem_cons.2 ⟨h, hnone⟩, rfl⟩
    · exact .inr ⟨_ :: before, shape, after, rfl, htells, List.forall_mem_cons.2 ⟨h, hbefore⟩⟩

theorem exists_firstTells (name : String) (order : List Shape) : ∃ i, FirstTells name order i := by
  induction order with
  | nil => exact ⟨{}, .none⟩
  | cons shape rest ih =>
    by_cases h : ∃ i, shape.Tells name i
    · obtain ⟨i, hi⟩ := h
      exact ⟨i, .here hi⟩
    · obtain ⟨i, hi⟩ := ih
      exact ⟨i, .later (not_exists.1 h) hi⟩

/-- In whatever order shapes are tried, the first that a name has tells what the name tells, if
names that end with a date are tried before those that end with a number. -/
theorem FirstTells.eq_ofName {order : List Shape} (hall : ∀ shape, shape ∈ order)
    (hdate : order.idxOf .wordNumberDate < order.idxOf .wordNumbers) (h : FirstTells name order i) :
    i = ofName name := by
  rcases h.exists_of_cut with ⟨hnone, rfl⟩ | ⟨before, shape, after, rfl, htells, hbefore⟩
  · by_contra hne
    obtain ⟨shape, hshape⟩ := exists_of_ofName (Ne.symm hne)
    exact hnone shape (hall shape) _ hshape
  · refine (htells.ofName_eq ?_).symm
    rintro rfl j hj
    have hmem : Shape.wordNumberDate ∉ before := fun hmem => hbefore _ hmem j hj
    have hmem' : Shape.wordNumbers ∉ before := fun hmem => hbefore _ hmem i htells
    rw [List.idxOf_append_of_notMem hmem, List.idxOf_append_of_notMem hmem',
      List.idxOf_cons_self] at hdate
    omega

end Shape

/-- A name tells an identity exactly if it has one of the five shapes, and then it tells what the
shape says; but of a name that ends with a number of eight digits, this number is the date. No name
has two shapes but those in which a word, a number and a date are a word and two numbers as well. So
the shapes may be tried in any order in which the one stands before the other. -/
theorem ofName_by_shapes (name : String) :
    ((ofName name).isEmpty = false ↔ ∃ (shape : Shape) (i : ModelIdentity), shape.Tells name i) ∧
    (∀ (shape : Shape) (i : ModelIdentity), shape.Tells name i → ofName name = i ∨
      shape = .wordNumbers ∧ Shape.wordNumberDate.Tells name (ofName name)) ∧
    (∀ (shape shape' : Shape) (i j : ModelIdentity), shape.Tells name i → shape'.Tells name j →
      shape = shape' ∧ i = j ∨ (∃ k, Shape.wordNumberDate.Tells name k) ∧
        (shape = .wordNumberDate ∨ shape = .wordNumbers)) ∧
    (∀ v n d : String, Shape.wordNumberDate.Tells name ⟨v, n, d⟩ → IsDate d ∧
      Shape.wordNumbers.Tells name ⟨v, n ++ "." ++ d, ""⟩ ∧ ofName name = ⟨v, n, d⟩) ∧
    ∀ order : List Shape, (∀ shape, shape ∈ order) →
      order.idxOf .wordNumberDate < order.idxOf .wordNumbers →
      ∀ i, Shape.FirstTells name order i ↔ i = ofName name := by
  have hreads : ∀ (shape : Shape) (i : ModelIdentity), shape.Tells name i → ofName name = i ∨
      shape = .wordNumbers ∧ Shape.wordNumberDate.Tells name (ofName name) := by
    intro shape i htells
    by_cases hdate : shape = .wordNumbers ∧ ∃ j, Shape.wordNumberDate.Tells name j
    · obtain ⟨hshape, j, hj⟩ := hdate
      exact .inr ⟨hshape, hj.ofName_eq nofun ▸ hj⟩
    · exact .inl (htells.ofName_eq fun hshape j hj => hdate ⟨hshape, j, hj⟩)
  refine ⟨⟨fun hsome => ?_, fun ⟨shape, i, htells⟩ => ?_⟩, hreads,
    fun shape shape' i j h h' => h.eq_or h', fun v n d hdate => ?_,
    fun order hall hdate i => ⟨fun h => h.eq_ofName hall hdate, ?_⟩⟩
  · have hne : ofName name ≠ {} := fun hnone => by simp [hnone, isEmpty] at hsome
    obtain ⟨shape, htells⟩ := Shape.exists_of_ofName hne
    exact ⟨shape, _, htells⟩
  · obtain ⟨shape, parts, -, hparts⟩ : ∃ shape : Shape, shape.Tells name (ofName name) := by
      rcases hreads shape i htells with rfl | ⟨-, hdate⟩
      · exact ⟨shape, htells⟩
      · exact ⟨.wordNumberDate, hdate⟩
    simp [isEmpty, hparts.isWord_variant.1]
  · obtain ⟨parts, hname, hparts⟩ := hdate
    cases hparts with
    | wordNumberDate hv hn hd =>
      exact ⟨hd, ⟨_, hname, .wordNumbers hv hn hd.isNumber⟩,
        Shape.Tells.ofName_eq ⟨_, hname, .wordNumberDate hv hn hd⟩ nofun⟩
  · rintro rfl
    obtain ⟨i, hi⟩ := Shape.exists_firstTells name order
    exact hi.eq_ofName hall hdate ▸ hi

theorem ofName_by_shapes_opus :
    Shape.wordNumberDate.Tells "claude-opus-4-20250514" ⟨"opus", "4", "20250514"⟩ ∧
    Shape.wordNumbers.Tells "claude-opus-4-20250514" ⟨"opus", "4.20250514", ""⟩ ∧
    ofName "claude-opus-4-20250514" = ⟨"opus", "4", "20250514"⟩ ∧
    Shape.FirstTells "claude-opus-4-20250514" [.wordNumberDate, .wordNumbersDate, .numberWordDate,
      .wordNumbers, .numbersWordDate] ⟨"opus", "4", "20250514"⟩ := by
  have htells : Shape.wordNumberDate.Tells "claude-opus-4-20250514" ⟨"opus", "4", "20250514"⟩ :=
    ⟨["opus", "4", "20250514"], by decide +kernel, .wordNumberDate
      (isWord_iff.1 (by decide +kernel)) (isNumber_iff.1 (by decide +kernel))
      (isDate_iff.1 (by decide +kernel))⟩
  obtain ⟨-, -, -, hdate, horder⟩ := ofName_by_shapes "claude-opus-4-20250514"
  obtain ⟨-, hnumbers, hname⟩ := hdate _ _ _ htells
  refine ⟨htells, hnumbers, hname, ?_⟩
  exact (horder _ (fun shape => by cases shape <;> decide) (by decide) _).2 hname.symm

end ChatWire.ModelIdentity
