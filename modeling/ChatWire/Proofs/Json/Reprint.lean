import ChatWire.Proofs.Decimal.Layout
import ChatWire.Proofs.Json.Depth
import ChatWire.Proofs.Text.Utf8
import Mathlib.Tactic.IntervalCases

/-!
# Reading what was written

The text of a value is a JSON text of this value, if it nests no deeper than the reader allows
(`Json.treeWithin?_toText`). Only its binary numbers may change: the quick rule reads them a little
off. A value that does not change is reprinted (`Json.isReprinted_iff`).
-/

namespace ChatWire

open Numeral (digitsOf digitText digitsValue)

/-! ## Numbers -/

/-- The numeral of a number. -/
def Number.numeral : Number → Numeral
  | .whole n => ⟨false, digitsOf n.toNat, none, none⟩
  | .minus n => ⟨true, digitsOf (n.val + 1), none, none⟩
  | .binary x => x.numeral Json.numberStyle

/-- The number that is read where a number was written. -/
def Number.reread : Number → Number
  | .binary x => .binary ((x.numeral Json.numberStyle).double?.getD x)
  | n => n

theorem Number.text_eq (n : Number) :
    n.text = (if n.numeral.negative then ['-'] else []) ++ n.numeral.chars := by
  cases n with
  | whole n => simp [text, numeral, Numeral.chars, Numeral.toDigits_eq]
  | minus n => simp [text, numeral, Numeral.chars, Numeral.toDigits_eq]
  | binary x => exact x.text_eq rfl

theorem Numeral.isPlain_digitsOf (negative : Bool) (n : Nat) :
    (⟨negative, digitsOf n, none, none⟩ : Numeral).IsPlain := by
  refine ⟨fun d hd => lt_of_mem_digitsOf hd, digitsOf_ne_nil n, fun h => ?_, by simp, by simp⟩
  have hzero : n = 0 := Decimal.digitsOf_eq_of_head? h
  rw [hzero]
  exact digitsOf_of_lt (by decide)

/-- A numeral begins with a digit. -/
theorem Numeral.IsPlain.exists_chars_eq_cons {n : Numeral} (h : n.IsPlain) :
    ∃ d cs, d < 10 ∧ n.chars = d.digitChar :: cs := by
  obtain ⟨first, more, hcons⟩ := List.exists_cons_of_ne_nil h.whole_ne_nil
  have hfirst : first < 10 := h.whole_lt first (by rw [hcons]; exact List.mem_cons_self)
  rw [chars, hcons]
  exact ⟨first, _, hfirst, rfl⟩

theorem Number.numeral_isPlain (n : Number) : n.numeral.IsPlain := by
  cases n with
  | whole n => exact Numeral.isPlain_digitsOf false _
  | minus n => exact Numeral.isPlain_digitsOf true _
  | binary x => exact x.numeral_isPlain

theorem Number.ofNumeral?_numeral (n : Number) : ofNumeral? n.numeral = some n.reread := by
  cases n with
  | whole n =>
    have hnatural : (whole n).numeral.natural? = some n.toNat :=
      congrArg some (Numeral.digitsValue_digitsOf n.toNat)
    rw [ofNumeral?, hnatural]
    simp only [numeral, Bool.false_eq_true, if_false, if_pos n.toNat_lt, UInt64.ofNat_toNat, reread]
  | minus n =>
    have hnatural : (minus n).numeral.natural? = some (n.val + 1) :=
      congrArg some (Numeral.digitsValue_digitsOf (n.val + 1))
    have hrange : 0 < n.val + 1 ∧ n.val + 1 ≤ UInt64.size / 2 := ⟨Nat.succ_pos n.val, n.isLt⟩
    rw [ofNumeral?, hnatural]
    simp only [numeral, if_true]
    rw [dif_pos hrange]
    rfl
  | binary x =>
    obtain ⟨y, hy⟩ := Option.isSome_iff_exists.1 x.double?_numeral_isSome
    simp only [ofNumeral?, numeral, x.natural?_numeral, reread, hy]
    rfl

namespace Json

/-- The text does not go on with a character that could belong to a number before it. -/
def EndsNumber (rest : List Char) : Prop :=
  ∀ c ∈ rest.head?, c.isDigit = false ∧ c ≠ '.' ∧ c ≠ 'e' ∧ c ≠ 'E'

theorem digits_digitText {ds : List Nat} {rest : List Char} (hds : ∀ d ∈ ds, d < 10)
    (hrest : ∀ c ∈ rest.head?, c.isDigit = false) : digits (digitText ds ++ rest) = (ds, rest) := by
  induction ds with
  | nil =>
    cases rest with
    | nil => rfl
    | cons c rest =>
      have hc : c.isDigit = false := hrest c rfl
      simp [digits, digitText, hc]
  | cons d ds ih =>
    have hd : d < 10 := hds d List.mem_cons_self
    have htail := ih fun e he => hds e (List.mem_cons_of_mem d he)
    simp only [digits, Prod.mk.injEq] at htail
    simp only [digitText, List.map_cons, List.cons_append, digits, List.takeWhile_cons,
      List.dropWhile_cons, Nat.isDigit_digitChar, hd, decide_true, if_true,
      Nat.toNat_digitChar_sub_48_of_lt_ten hd, Prod.mk.injEq, List.cons.injEq, true_and]
    exact htail

theorem wholePart_digitText {n : Numeral} (h : n.IsPlain) {rest : List Char}
    (hrest : ∀ c ∈ rest.head?, c.isDigit = false) :
    wholePart (digitText n.whole ++ rest) = some (n.whole, rest) := by
  have hleading := h.leading
  rw [wholePart, digits_digitText h.whole_lt hrest]
  obtain ⟨first, more, hcons⟩ := List.exists_cons_of_ne_nil h.whole_ne_nil
  rw [hcons] at hleading ⊢
  cases first with
  | zero =>
    obtain rfl : more = [] := by simpa using hleading rfl
    rfl
  | succ first => rfl

theorem fractionPart_text {n : Numeral} (h : n.IsPlain) {rest : List Char}
    (hrest : ∀ c ∈ rest.head?, c.isDigit = false ∧ c ≠ '.') :
    fractionPart ((n.fraction.elim [] fun ds => '.' :: digitText ds) ++ rest)
      = some (n.fraction, rest) := by
  cases hfraction : n.fraction with
  | none =>
    unfold fractionPart
    split
    case h_1 rest' heq =>
      have hpoint := (hrest '.' (by rw [show rest = '.' :: rest' from heq]; rfl)).2
      exact absurd rfl hpoint
    case h_2 => rfl
  | some ds =>
    have hdigits := digits_digitText (h.fraction_lt ds hfraction) fun c hc => (hrest c hc).1
    obtain ⟨first, more, rfl⟩ : ∃ first more, ds = first :: more :=
      List.exists_cons_of_ne_nil fun hnil => h.fraction_ne_nil (hnil ▸ hfraction)
    simp only [Option.elim_some, List.cons_append, fractionPart, hdigits]

theorem exponentPart_text (exponent : Option Int) {rest : List Char} (hrest : EndsNumber rest) :
    exponentPart ((exponent.elim [] fun e => 'e' :: Decimal.exponentText e) ++ rest)
      = some (exponent, rest) := by
  cases exponent with
  | none =>
    cases rest with
    | nil => rfl
    | cons c rest =>
      obtain ⟨-, -, hlower, hupper⟩ := hrest c rfl
      simp [exponentPart, hlower, hupper]
  | some e =>
    have hdigits : digits (digitText (digitsOf e.natAbs) ++ rest) = (digitsOf e.natAbs, rest) :=
      digits_digitText (fun d hd => Numeral.lt_of_mem_digitsOf hd) fun c hc => (hrest c hc).1
    have hvalue := Numeral.digitsValue_digitsOf e.natAbs
    obtain ⟨first, more, hcons⟩ := List.exists_cons_of_ne_nil (Numeral.digitsOf_ne_nil e.natAbs)
    simp only [Option.elim_some, List.cons_append, exponentPart, Decimal.exponentText,
      Numeral.toDigits_eq]
    have hnatural : List.foldl (fun n d => n * 10 + d) 0 (digitsOf e.natAbs) = e.natAbs := hvalue
    rw [hcons] at hnatural
    by_cases hneg : e < 0
    · have hback : -(e.natAbs : Int) = e := by omega
      rw [if_pos hneg]
      simp only [signPart, hdigits, beq_self_eq_true, Bool.true_or, if_true]
      rw [hcons]
      simp only [hnatural, hback]
    · have hback : (e.natAbs : Int) = e := by omega
      rw [if_neg hneg]
      simp only [signPart, hdigits, beq_self_eq_true, Bool.true_or, if_true]
      rw [hcons]
      simp only [hnatural, Bool.false_eq_true, if_false, hback]

/-- A numeral is read up to its end. -/
theorem numeral_chars {n : Numeral} (h : n.IsPlain) {rest : List Char} (hrest : EndsNumber rest) :
    numeral n.negative (n.chars ++ rest)
      = (Number.ofNumeral? n).map fun number => (number, rest) := by
  have hexponent := exponentPart_text n.exponent hrest
  generalize hmark : (n.exponent.elim [] fun e => 'e' :: Decimal.exponentText e) ++ rest = marked
    at hexponent
  have hmarked : ∀ c ∈ marked.head?, c.isDigit = false ∧ c ≠ '.' := by
    rw [← hmark]
    cases n.exponent with
    | none => exact fun c hc => ⟨(hrest c hc).1, (hrest c hc).2.1⟩
    | some e =>
      rintro c hc
      obtain rfl : 'e' = c := by simpa using hc
      decide
  have hfraction := fractionPart_text h hmarked
  generalize hpoint : (n.fraction.elim [] fun ds => '.' :: digitText ds) ++ marked = pointed
    at hfraction
  have hpointed : ∀ c ∈ pointed.head?, c.isDigit = false := by
    rw [← hpoint]
    cases n.fraction with
    | none => exact fun c hc => (hmarked c hc).1
    | some ds =>
      rintro c hc
      obtain rfl : '.' = c := by simpa using hc
      decide
  have hwhole := wholePart_digitText h hpointed
  have hchars : n.chars ++ rest = digitText n.whole ++ pointed := by
    rw [← hpoint, ← hmark]
    simp only [Numeral.chars, List.append_assoc]
  rw [hchars, numeral, hwhole]
  simp only [Option.bind_eq_bind, Option.bind_some, hfraction, hexponent]
  cases Number.ofNumeral? n <;> rfl

/-! ## Strings -/

theorem hexValue?_hexDigit {n : Nat} (h : n < 16) : hexValue? (hexDigit n) = some n := by
  have hall : ∀ m < 16, hexValue? (hexDigit m) = some m := by decide
  exact hall n h

/-- An escape by number for a control character. -/
theorem escaped_control {c : Char} (h : c.toNat < 32) (rest : List Char) :
    escaped ('u' :: '0' :: '0' :: hexDigit (c.toNat / 16) :: hexDigit (c.toNat % 16) :: rest)
      = some (c, rest) := by
  have hzero : hexValue? '0' = some 0 := rfl
  have hunit : 0 * 4096 + 0 * 256 + c.toNat / 16 * 16 + c.toNat % 16 = c.toNat := by omega
  have hplane : c.toNat / 1024 = 0 := by omega
  have hfirst := hexValue?_hexDigit (show c.toNat / 16 < 16 by omega)
  have hsecond := hexValue?_hexDigit (show c.toNat % 16 < 16 by omega)
  simp only [escaped, unicodeEscape, hexUnit, hzero, hfirst, hsecond, Option.bind_eq_bind,
    Option.bind_some, hunit, Option.pure_def, hplane, Char.ofNat_toNat]
  rfl

/-- A character is read from what it was escaped to. -/
theorem stringBody_escape (fuel : Nat) (c : Char) (rest : List Char) :
    stringBody (fuel + 1) (escape c ++ rest)
      = (stringBody fuel rest).bind fun p => some (c :: p.1, p.2) := by
  unfold escape
  split
  case h_6 hquote hbackslash hn hr ht =>
    by_cases height : c.toNat = 8
    · obtain rfl : c = '\x08' := Char.toNat_inj.1 height
      rfl
    · by_cases htwelve : c.toNat = 12
      · obtain rfl : c = '\x0c' := Char.toNat_inj.1 htwelve
        rfl
      · rw [if_neg height, if_neg htwelve]
        by_cases hcontrol : c.toNat < 32
        · rw [if_pos hcontrol]
          simp only [List.cons_append, List.nil_append, stringBody, escaped_control hcontrol]
          rfl
        · rw [if_neg hcontrol]
          simp only [List.cons_append, List.nil_append, stringBody, if_neg hquote,
            if_neg hbackslash, if_neg hcontrol]
          rfl
  all_goals rfl

/-- A quoted string is read up to its closing quote. -/
theorem stringBody_quote (cs : List Char) {fuel : Nat} (hfuel : cs.length < fuel)
    (rest : List Char) :
    stringBody fuel (cs.flatMap escape ++ '"' :: rest) = some (cs, rest) := by
  induction cs generalizing fuel with
  | nil =>
    obtain ⟨fuel, rfl⟩ := Nat.exists_eq_succ_of_ne_zero (Nat.ne_of_gt hfuel)
    rfl
  | cons c cs ih =>
    rw [List.length_cons] at hfuel
    obtain ⟨fuel, rfl⟩ := Nat.exists_eq_succ_of_ne_zero (Nat.ne_of_gt (Nat.zero_lt_of_lt hfuel))
    rw [List.flatMap_cons, List.append_assoc, stringBody_escape, ih (by omega)]
    rfl

theorem escape_ne_nil (c : Char) : escape c ≠ [] := by
  unfold escape
  split
  case h_6 =>
    split
    · simp
    · split
      · simp
      · split <;> simp
  all_goals simp

/-- No character gets lost in quotes. -/
theorem length_le_flatMap_escape (cs : List Char) : cs.length ≤ (cs.flatMap escape).length := by
  induction cs with
  | nil => exact Nat.zero_le _
  | cons c cs ih =>
    have hpos := List.length_pos_iff.2 (escape_ne_nil c)
    rw [List.flatMap_cons, List.length_append, List.length_cons]
    omega

theorem stringRest_quote (s : String) {fuel : Nat} (hfuel : (quote s).length ≤ fuel + 1)
    (rest : List Char) :
    stringRest fuel (s.toList.flatMap escape ++ '"' :: rest) = some (s, rest) := by
  have hlength := length_le_flatMap_escape s.toList
  have hquote : (quote s).length = (s.toList.flatMap escape).length + 2 := by simp [quote]
  rw [stringRest, stringBody_quote s.toList (by omega)]
  simp

/-! ## Values -/

mutual

/-- The value that is read where a value was written. -/
def reread : Json → Json
  | .number n => .number n.reread
  | .array elements => .array (rereadElements elements)
  | .object members => .object (rereadMembers members)
  | v => v

/-- The elements that are read where elements were written. -/
def rereadElements : List Json → List Json
  | [] => []
  | element :: rest => element.reread :: rereadElements rest

/-- The members that are read where members were written. -/
def rereadMembers : List (String × Json) → List (String × Json)
  | [] => []
  | (key, value) :: rest => (key, value.reread) :: rereadMembers rest

end

/-- A digit begins a number. -/
theorem value_digit {d : Nat} (hd : d < 10) (fuel depth : Nat) (rest : List Char) :
    value (fuel + 1) depth (d.digitChar :: rest)
      = (numeral false (d.digitChar :: rest)).bind fun p => some (.number p.1, p.2) := by
  rw [value.eq_def]
  interval_cases d <;> rfl

/-- A number is read up to its end. -/
theorem value_number (n : Number) (fuel depth : Nat) {rest : List Char} (hrest : EndsNumber rest) :
    value (fuel + 1) depth (n.text ++ rest) = some (.number n.reread, rest) := by
  have hplain := n.numeral_isPlain
  have hnumeral := numeral_chars hplain hrest
  rw [n.ofNumeral?_numeral] at hnumeral
  rw [n.text_eq]
  cases hnegative : n.numeral.negative with
  | true =>
    rw [hnegative] at hnumeral
    simp only [if_true, List.cons_append, List.nil_append]
    rw [value.eq_def]
    simp only [hnumeral, Option.map_some]
    rfl
  | false =>
    rw [hnegative] at hnumeral
    obtain ⟨d, cs, hd, hchars⟩ := hplain.exists_chars_eq_cons
    simp only [Bool.false_eq_true, if_false, List.nil_append]
    rw [hchars, List.cons_append] at hnumeral ⊢
    rw [value_digit hd, hnumeral]
    rfl

/-- What the text of a value begins with is not blank, and no closing bracket. -/
theorem exists_chars_eq_cons (v : Json) :
    ∃ c cs, v.chars = c :: cs ∧ isSpace c = false ∧ c ≠ ']' := by
  cases v with
  | null => exact ⟨_, _, rfl, rfl, by decide⟩
  | bool b => cases b <;> exact ⟨_, _, rfl, rfl, by decide⟩
  | number n =>
    obtain ⟨d, cs, hd, hchars⟩ := n.numeral_isPlain.exists_chars_eq_cons
    rw [chars, n.text_eq, hchars]
    split
    · exact ⟨_, _, rfl, rfl, by decide⟩
    · refine ⟨_, _, rfl, ?_, ?_⟩ <;> interval_cases d <;> decide
  | string s => exact ⟨_, _, rfl, rfl, by decide⟩
  | array elements => cases elements <;> exact ⟨_, _, rfl, rfl, by decide⟩
  | object members =>
    cases members with
    | nil => exact ⟨_, _, rfl, rfl, by decide⟩
    | cons m rest => exact ⟨_, _, rfl, rfl, by decide⟩

theorem skipSpace_chars (v : Json) (rest : List Char) :
    skipSpace (v.chars ++ rest) = v.chars ++ rest := by
  obtain ⟨c, cs, hchars, hspace, -⟩ := v.exists_chars_eq_cons
  rw [hchars, List.cons_append, skipSpace, List.dropWhile_cons_of_neg (by simp [hspace])]

theorem endsNumber_cons {c : Char} (hc : c.isDigit = false ∧ c ≠ '.' ∧ c ≠ 'e' ∧ c ≠ 'E')
    (rest : List Char) : EndsNumber (c :: rest) := by
  rintro c' hc'
  obtain rfl : c = c' := by simpa using hc'
  exact hc

theorem endsNumber_elementsChars (vs : List Json) (rest : List Char) :
    EndsNumber (elementsChars vs ++ rest) := by
  cases vs with
  | nil => exact endsNumber_cons (by decide) rest
  | cons v vs => exact endsNumber_cons (by decide) _

theorem endsNumber_membersChars (ms : List (String × Json)) (rest : List Char) :
    EndsNumber (membersChars ms ++ rest) := by
  cases ms with
  | nil => exact endsNumber_cons (by decide) rest
  | cons m ms => exact endsNumber_cons (by decide) _

mutual

/-- A value is read up to the end of its text. -/
theorem value_chars (v : Json) (fuel d : Nat) (rest : List Char) (hd : v.depth ≤ d)
    (hfuel : 2 * v.chars.length ≤ fuel) (hrest : EndsNumber rest) :
    value fuel d (v.chars ++ rest) = some (v.reread, rest) := by
  obtain ⟨c, cs, hchars, -⟩ := v.exists_chars_eq_cons
  obtain ⟨fuel, rfl⟩ : ∃ f, fuel = f + 2 :=
    ⟨fuel - 2, by rw [hchars, List.length_cons] at hfuel; omega⟩
  cases v with
  | null => rfl
  | bool b => cases b <;> rfl
  | number n =>
    rw [chars, reread]
    exact value_number n (fuel + 1) d hrest
  | string s =>
    rw [chars] at hfuel ⊢
    have hbody : stringRest (fuel + 1) (s.toList.flatMap escape ++ '"' :: rest) = some (s, rest) :=
      stringRest_quote s (by omega) rest
    simp only [quote, List.cons_append, List.append_assoc, List.nil_append]
    rw [value, hbody]
    rfl
  | array vs =>
    obtain ⟨d, rfl⟩ : ∃ e, d = e + 1 := ⟨d - 1, by rw [depth] at hd; omega⟩
    cases vs with
    | nil => rfl
    | cons v vs =>
      simp only [depth, depthOfElements] at hd
      simp only [chars, List.cons_append, List.append_assoc, List.length_cons,
        List.length_append] at hfuel ⊢
      have hv := value_chars v fuel d (elementsChars vs ++ rest) (by omega) (by omega)
        (endsNumber_elementsChars vs rest)
      have helements := elements_chars vs v.chars v.reread fuel d rest (by omega) (by omega)
        (by rwa [skipSpace_chars])
      rw [value, skipSpace_chars]
      split
      case h_1 behind hbehind =>
        obtain ⟨c', cs', hchars', -, hbracket⟩ := v.exists_chars_eq_cons
        rw [hchars', List.cons_append] at hbehind
        exact absurd (List.cons.inj hbehind).1 hbracket
      case h_2 =>
        rw [helements]
        rfl
  | object ms =>
    obtain ⟨d, rfl⟩ : ∃ e, d = e + 1 := ⟨d - 1, by rw [depth] at hd; omega⟩
    cases ms with
    | nil => rfl
    | cons m ms =>
      obtain ⟨key, v⟩ := m
      simp only [depth, depthOfMembers] at hd
      simp only [chars, List.cons_append, List.append_assoc, List.length_cons,
        List.length_append] at hfuel ⊢
      have hv := value_chars v fuel d (membersChars ms ++ rest) (by omega) (by omega)
        (endsNumber_membersChars ms rest)
      have hmembers := members_chars ms key v.chars v.reread fuel d rest (by omega) (by omega)
        (by omega) (by rwa [skipSpace_chars])
      have hopening (cs : List Char) : skipSpace (quote key ++ cs) = quote key ++ cs := rfl
      rw [value, hopening]
      split
      case h_1 behind hbehind => exact absurd (List.cons.inj hbehind).1 (by decide)
      case h_2 =>
        rw [hmembers]
        rfl

/-- More elements are read up to the closing bracket, once the first one has been read. -/
theorem elements_chars (vs : List Json) (first : List Char) (w : Json) (fuel d : Nat)
    (rest : List Char) (hd : depthOfElements vs ≤ d)
    (hfuel : 2 * (elementsChars vs).length ≤ fuel + 1)
    (hfirst : value fuel d (skipSpace (first ++ (elementsChars vs ++ rest)))
      = some (w, elementsChars vs ++ rest)) :
    elements (fuel + 1) d (first ++ (elementsChars vs ++ rest))
      = some (w :: rereadElements vs, rest) := by
  rw [elements, hfirst]
  cases vs with
  | nil => rfl
  | cons v vs =>
    simp only [depthOfElements] at hd
    simp only [elementsChars, List.cons_append, List.append_assoc, List.length_cons,
      List.length_append] at hfuel ⊢
    obtain ⟨fuel, rfl⟩ : ∃ f, fuel = f + 1 := ⟨fuel - 1, by omega⟩
    have hv := value_chars v fuel d (elementsChars vs ++ rest) (by omega) (by omega)
      (endsNumber_elementsChars vs rest)
    have helements := elements_chars vs v.chars v.reread fuel d rest (by omega) (by omega)
      (by rwa [skipSpace_chars])
    have hcomma (cs : List Char) : skipSpace (',' :: cs) = ',' :: cs := rfl
    simp only [Option.bind_eq_bind, Option.bind_some, hcomma, helements]
    rfl

/-- More members are read up to the closing brace, once the value of the first one has been read. -/
theorem members_chars (ms : List (String × Json)) (key : String) (first : List Char) (w : Json)
    (fuel d : Nat) (rest : List Char) (hkey : (quote key).length ≤ fuel + 1)
    (hd : depthOfMembers ms ≤ d) (hfuel : 2 * (membersChars ms).length ≤ fuel + 1)
    (hfirst : value fuel d (skipSpace (first ++ (membersChars ms ++ rest)))
      = some (w, membersChars ms ++ rest)) :
    members (fuel + 1) d (quote key ++ ':' :: (first ++ (membersChars ms ++ rest)))
      = some ((key, w) :: rereadMembers ms, rest) := by
  have hquoted := stringRest_quote key hkey (':' :: (first ++ (membersChars ms ++ rest)))
  have hopening (cs : List Char) : skipSpace ('"' :: cs) = '"' :: cs := rfl
  have hcolon (cs : List Char) : skipSpace (':' :: cs) = ':' :: cs := rfl
  rw [quote, members]
  simp only [List.cons_append, List.append_assoc, List.nil_append, hopening]
  simp only [hquoted, Option.bind_eq_bind, Option.bind_some, hcolon, hfirst]
  cases ms with
  | nil => rfl
  | cons m ms =>
    obtain ⟨name, v⟩ := m
    simp only [depthOfMembers] at hd
    simp only [membersChars, List.cons_append, List.append_assoc, List.length_cons,
      List.length_append] at hfuel ⊢
    obtain ⟨fuel, rfl⟩ : ∃ f, fuel = f + 1 := ⟨fuel - 1, by omega⟩
    have hv := value_chars v fuel d (membersChars ms ++ rest) (by omega) (by omega)
      (endsNumber_membersChars ms rest)
    have hmembers := members_chars ms name v.chars v.reread fuel d rest (by omega) (by omega)
      (by omega) (by rwa [skipSpace_chars])
    have hcomma (cs : List Char) : skipSpace (',' :: cs) = ',' :: cs := rfl
    simp only [hcomma, hmembers, Option.bind_some]
    rfl

end

/-- A text that was written is read as what was written, up to the last digits of binary numbers. -/
theorem treeWithin?_toText {v : Json} {d : Nat} (h : v.depth ≤ d) :
    treeWithin? d v.toText = some v.reread := by
  have hread := value_chars v (2 * v.chars.length + 2) d [] h (by omega) (by simp [EndsNumber])
  have hskip := skipSpace_chars v []
  rw [List.append_nil] at hread hskip
  rw [treeWithin?, toText, String.toList_ofList, hskip, hread]
  rfl

theorem tree?_toText {v : Json} (h : v.depth ≤ maxDepth) : tree? v.toText = some v.reread :=
  treeWithin?_toText h

theorem read?_toText {v : Json} (h : v.depth ≤ maxDepth) :
    read? v.toText = some v.reread.canonical := by
  rw [read?, tree?_toText h]
  rfl

theorem readBytes?_toText {v : Json} (h : v.depth ≤ maxDepth) :
    readBytes? (Bytes.ofString v.toText) = some v.reread.canonical := by
  rw [readBytes?, Bytes.text?_ofString]
  exact read?_toText h

/-- What is printed of a value is read as the value. -/
def IsReprinted (v : Json) : Prop := read? v.toText = some v

theorem isReprinted_iff {v : Json} :
    v.IsReprinted ↔ v.depth ≤ maxDepth ∧ v.reread.canonical = v := by
  constructor
  · intro h
    have hdepth := depth_le_of_read? h
    exact ⟨hdepth, Option.some.inj ((read?_toText hdepth).symm.trans h)⟩
  · rintro ⟨hdepth, hsame⟩
    exact (read?_toText hdepth).trans (congrArg some hsame)

instance : DecidablePred IsReprinted := fun _ => decidable_of_iff _ isReprinted_iff.symm

theorem IsReprinted.readBytes?_eq {v : Json} (h : v.IsReprinted) :
    readBytes? (Bytes.ofString v.toText) = some v := by
  rw [readBytes?, Bytes.text?_ofString]
  exact h

end Json

end ChatWire
