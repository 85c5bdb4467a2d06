import ChatWire.Text.Bytes
import Mathlib.Data.List.TakeWhile
import Mathlib.Tactic.Common

/-!
# UTF-8 in both directions

Reading takes the bytes of a character for this character, whatever bytes stand behind them
(`Bytes.scalars_utf8EncodeChar_append`). So a text is read back from its bytes, and what is wrong
with the bytes behind a text does not touch the text (`Bytes.lenientText_ofString_append`). Whatever
is wrong with the bytes, a carriage return is read from its own byte only
(`Bytes.firstScalar_eq_return`).
-/

namespace ChatWire.Bytes

/-! ## Sequences of several bytes -/

/-- The byte that continues a sequence with six bits. -/
def continuation (bits : Nat) : UInt8 := .ofNat (bits + 0x80)

theorem toNat_ofNat {n : Nat} (h : n < 256) : (UInt8.ofNat n).toNat = n :=
  UInt8.toNat_ofNat_of_lt' h

theorem toNat_continuation {bits : Nat} (h : bits < 64) : (continuation bits).toNat = bits + 0x80 :=
  toNat_ofNat (by omega)

theorem isContinuation_continuation {bits : Nat} (h : bits < 64) :
    isContinuation (continuation bits) = true := by
  have hlow : (0x80 : UInt8).toNat = 0x80 := rfl
  have hhigh : (0xBF : UInt8).toNat = 0xBF := rfl
  simp only [isContinuation, UInt8.le_iff_toNat_le, toNat_continuation h, hlow, hhigh,
    Bool.and_eq_true, decide_eq_true_eq]
  omega

/-- The six bits of each continuation byte are put behind those of the bytes before it. -/
theorem foldl_continuation {bits : List Nat} (h : ∀ n ∈ bits, n < 64) (start : Nat) :
    (bits.map continuation).foldl (fun n b => n * 64 + b.toNat % 64) start
      = bits.foldl (fun n m => n * 64 + m) start := by
  induction bits generalizing start with
  | nil => rfl
  | cons n rest ih =>
    have hn := h n List.mem_cons_self
    have hbits : (continuation n).toNat % 64 = n := by
      rw [toNat_continuation hn]
      omega
    rw [List.map_cons, List.foldl_cons, List.foldl_cons, hbits]
    exact ih (fun m hm => h m (List.mem_cons_of_mem _ hm)) _

/-- The bytes that belong to the character before them are passed over. -/
theorem scalarsFrom_append (tail rest : Bytes) :
    scalarsFrom tail.length (tail ++ rest) = scalars rest := by
  induction tail with
  | nil => rfl
  | cons b tail ih => exact ih

/-- A leading byte and as many continuation bytes as it asks for are one scalar value. -/
theorem scalars_sequence {first low high : UInt8} (n : Nat) (bits : List Nat)
    (hfirst : 0x80 ≤ first) (hlead : lead? first = some (low, high, bits.length + 1))
    (hlow : low.toNat ≤ n + 0x80) (hhigh : n + 0x80 ≤ high.toNat) (hbits : ∀ m ∈ n :: bits, m < 64)
    (rest : Bytes) :
    scalars (first :: ((n :: bits).map continuation ++ rest))
      = some (Char.ofNat ((n :: bits).foldl (fun n m => n * 64 + m)
          (leadBits first (bits.length + 1)))) :: scalars rest := by
  have hn := toNat_continuation (hbits n List.mem_cons_self)
  have hsecond : (continuation n < low || high < continuation n) = false := by
    rw [Bool.or_eq_false_iff, decide_eq_false_iff_not, decide_eq_false_iff_not, UInt8.not_lt,
      UInt8.not_lt, UInt8.le_iff_toNat_le, UInt8.le_iff_toNat_le, hn]
    exact ⟨hlow, hhigh⟩
  have hlength : ((n :: bits).map continuation).length = bits.length + 1 := by simp
  have hwhole : (((n :: bits).map continuation ++ rest).take (bits.length + 1)).takeWhile
      isContinuation = (n :: bits).map continuation := by
    rw [← hlength, List.take_left, List.takeWhile_eq_self_iff]
    intro b hb
    obtain ⟨m, hm, rfl⟩ := List.mem_map.1 hb
    exact isContinuation_continuation (hbits m hm)
  have hscalar : firstScalar first ((n :: bits).map continuation ++ rest)
      = (some (Char.ofNat ((n :: bits).foldl (fun n m => n * 64 + m)
          (leadBits first (bits.length + 1)))), bits.length + 1) := by
    rw [firstScalar, if_neg (UInt8.not_lt.2 hfirst), hlead, ← foldl_continuation hbits]
    simp only [List.map_cons, List.cons_append] at hwhole hlength ⊢
    simp only [hsecond, hwhole, hlength, Nat.lt_irrefl, if_false, Bool.false_eq_true]
  rw [scalars, scalarsFrom, hscalar]
  have hrest := scalarsFrom_append ((n :: bits).map continuation) rest
  rw [hlength] at hrest
  exact congrArg _ hrest

section Lead

variable {b : UInt8}

theorem lead?_two (h : 0xC2 ≤ b.toNat) (h' : b.toNat ≤ 0xDF) :
    lead? b = some (0x80, 0xBF, 1) := by
  simp [lead?, UInt8.le_iff_toNat_le, h, h']

/-- Three bytes: nothing that two bytes could say, and no surrogate. -/
theorem lead?_three (h : 0xE0 ≤ b.toNat) (h' : b.toNat ≤ 0xEF) :
    lead? b = some (if b.toNat = 0xE0 then 0xA0 else 0x80,
      if b.toNat = 0xED then 0x9F else 0xBF, 2) := by
  simp only [lead?, UInt8.le_iff_toNat_le, beq_iff_eq, ← UInt8.toNat_inj]
  grind

/-- Four bytes: nothing that three bytes could say, and nothing above the last scalar value. -/
theorem lead?_four (h : 0xF0 ≤ b.toNat) (h' : b.toNat ≤ 0xF4) :
    lead? b = some (if b.toNat = 0xF0 then 0x90 else 0x80,
      if b.toNat = 0xF4 then 0x8F else 0xBF, 3) := by
  simp only [lead?, UInt8.le_iff_toNat_le, beq_iff_eq, ← UInt8.toNat_inj]
  grind

end Lead

theorem scalars_two {a b : Nat} (ha : 2 ≤ a) (ha' : a < 32) (hb : b < 64) (rest : Bytes) :
    scalars (.ofNat (a + 0xC0) :: continuation b :: rest)
      = some (Char.ofNat (a * 64 + b)) :: scalars rest := by
  have hlead : (UInt8.ofNat (a + 0xC0)).toNat = a + 0xC0 := toNat_ofNat (by omega)
  have hfirst : 0x80 ≤ UInt8.ofNat (a + 0xC0) := by
    rw [UInt8.le_iff_toNat_le, hlead]
    exact Nat.le_trans (by decide) (Nat.le_add_left 0xC0 a)
  have hbits : leadBits (.ofNat (a + 0xC0)) 1 = a := by
    have hmod : (a + 0xC0) % 32 = a := by omega
    rw [leadBits, hlead]
    exact hmod
  have hread := scalars_sequence b [] hfirst (lead?_two (by omega) (by omega))
    (Nat.le_add_left _ _) (by simp; omega) (by simpa using hb) rest
  rwa [List.length_nil, hbits] at hread

theorem scalars_three {a b c : Nat} (ha : a < 16) (hb : b < 64) (hc : c < 64)
    (hshort : a = 0 → 32 ≤ b) (hsurrogate : a = 13 → b < 32) (rest : Bytes) :
    scalars (.ofNat (a + 0xE0) :: continuation b :: continuation c :: rest)
      = some (Char.ofNat ((a * 64 + b) * 64 + c)) :: scalars rest := by
  have hlead : (UInt8.ofNat (a + 0xE0)).toNat = a + 0xE0 := toNat_ofNat (by omega)
  have hfirst : 0x80 ≤ UInt8.ofNat (a + 0xE0) := by
    rw [UInt8.le_iff_toNat_le, hlead]
    exact Nat.le_trans (by decide) (Nat.le_add_left 0xE0 a)
  have hbits : leadBits (.ofNat (a + 0xE0)) 2 = a := by
    have hmod : (a + 0xE0) % 16 = a := by omega
    rw [leadBits, hlead]
    exact hmod
  have hlow : (if (UInt8.ofNat (a + 0xE0)).toNat = 0xE0 then (0xA0 : UInt8) else 0x80).toNat
      ≤ b + 0x80 := by
    rw [hlead]
    split
    · simp only [UInt8.reduceToNat]
      omega
    · exact Nat.le_add_left _ _
  have hhigh : b + 0x80
      ≤ (if (UInt8.ofNat (a + 0xE0)).toNat = 0xED then (0x9F : UInt8) else 0xBF).toNat := by
    rw [hlead]
    split <;> simp only [UInt8.reduceToNat] <;> omega
  have hread := scalars_sequence b [c] hfirst (lead?_three (by omega) (by omega))
    hlow hhigh (by simp [hb, hc]) rest
  rwa [List.length_singleton, hbits] at hread

theorem scalars_four {a b c d : Nat} (ha : a < 5) (hb : b < 64) (hc : c < 64) (hd : d < 64)
    (hshort : a = 0 → 16 ≤ b) (hlarge : a = 4 → b < 16) (rest : Bytes) :
    scalars (.ofNat (a + 0xF0) :: continuation b :: continuation c :: continuation d :: rest)
      = some (Char.ofNat (((a * 64 + b) * 64 + c) * 64 + d)) :: scalars rest := by
  have hlead : (UInt8.ofNat (a + 0xF0)).toNat = a + 0xF0 := toNat_ofNat (by omega)
  have hfirst : 0x80 ≤ UInt8.ofNat (a + 0xF0) := by
    rw [UInt8.le_iff_toNat_le, hlead]
    exact Nat.le_trans (by decide) (Nat.le_add_left 0xF0 a)
  have hbits : leadBits (.ofNat (a + 0xF0)) 3 = a := by
    have hmod : (a + 0xF0) % 8 = a := by omega
    rw [leadBits, hlead]
    exact hmod
  have hlow : (if (UInt8.ofNat (a + 0xF0)).toNat = 0xF0 then (0x90 : UInt8) else 0x80).toNat
      ≤ b + 0x80 := by
    rw [hlead]
    split
    · simp only [UInt8.reduceToNat]
      omega
    · exact Nat.le_add_left _ _
  have hhigh : b + 0x80
      ≤ (if (UInt8.ofNat (a + 0xF0)).toNat = 0xF4 then (0x8F : UInt8) else 0xBF).toNat := by
    rw [hlead]
    split <;> simp only [UInt8.reduceToNat] <;> omega
  have hread := scalars_sequence b [c, d] hfirst (lead?_four (by omega) (by omega))
    hlow hhigh (by simp [hb, hc, hd]) rest
  have hlength : [c, d].length = 2 := rfl
  rwa [hlength, hbits] at hread

/-! ## Texts -/

/-- The bytes of a character are read as this character, whatever stands behind them. -/
theorem scalars_utf8EncodeChar_append (c : Char) (rest : Bytes) :
    scalars (String.utf8EncodeChar c ++ rest) = some c :: scalars rest := by
  have hvalid : c.toNat < 0xD800 ∨ 0xDFFF < c.toNat ∧ c.toNat < 0x110000 := c.valid
  have hchar : ∀ n, n = c.toNat → Char.ofNat n = c := fun n h => by rw [h, Char.ofNat_toNat]
  have hval : c.val.toNat = c.toNat := rfl
  unfold String.utf8EncodeChar
  simp only [hval]
  generalize c.toNat = v at hvalid hchar
  split
  case isTrue h =>
    have hbyte := toNat_ofNat (n := v) (by omega)
    have hsmall : UInt8.ofNat v < 0x80 := by
      rw [UInt8.lt_iff_toNat_lt, hbyte]
      exact Nat.lt_succ_of_le h
    have hscalar : firstScalar (UInt8.ofNat v) rest = (some c, 0) := by
      rw [firstScalar, if_pos hsmall, hchar _ hbyte]
    rw [List.singleton_append, scalars, scalarsFrom, hscalar]
    rfl
  case isFalse h =>
  split
  case isTrue h' =>
    have hread := scalars_two (a := v / 64 % 32) (b := v % 64) (by omega) (by omega) (by omega) rest
    rwa [hchar (v / 64 % 32 * 64 + v % 64) (by omega)] at hread
  case isFalse h' =>
  split
  case isTrue h'' =>
    have hread := scalars_three (a := v / 4096 % 16) (b := v / 64 % 64) (c := v % 64) (by omega)
      (by omega) (by omega) (by omega) (by omega) rest
    rwa [hchar ((v / 4096 % 16 * 64 + v / 64 % 64) * 64 + v % 64) (by omega)] at hread
  case isFalse h'' =>
    have hread := scalars_four (a := v / 262144 % 8) (b := v / 4096 % 64) (c := v / 64 % 64)
      (d := v % 64) (by omega) (by omega) (by omega) (by omega) (by omega) (by omega) rest
    rwa [hchar (((v / 262144 % 8 * 64 + v / 4096 % 64) * 64 + v / 64 % 64) * 64 + v % 64)
      (by omega)] at hread

theorem scalars_ofString_append (s : String) (rest : Bytes) :
    scalars (ofString s ++ rest) = s.toList.map some ++ scalars rest := by
  unfold ofString
  induction s.toList with
  | nil => rfl
  | cons c cs ih =>
    rw [List.flatMap_cons, List.append_assoc, scalars_utf8EncodeChar_append, ih]
    rfl

/-- A text is read back from its bytes, and the bytes behind it as if they stood alone. -/
theorem lenientText_ofString_append (s : String) (rest : Bytes) :
    (lenientText (ofString s ++ rest)).toList = s.toList ++ (lenientText rest).toList := by
  simp [lenientText, scalars_ofString_append, Function.comp_def]

theorem text?_ofString (s : String) : text? (ofString s) = some s := by
  have hscalars : scalars (ofString s) = s.toList.map some := by
    have happend := scalars_ofString_append s []
    have hnone : scalars [] = [] := rfl
    rwa [hnone, List.append_nil, List.append_nil] at happend
  have hall : ∀ cs : List Char, (cs.map some).mapM id = some cs := by
    intro cs
    induction cs with
    | nil => rfl
    | cons c rest ih => rw [List.map_cons, List.mapM_cons, ih]; rfl
  rw [text?, hscalars, hall, Option.map_some, String.ofList_toList]

/-- Only a character of one byte has a byte below the others. -/
theorem eq_of_mem_utf8EncodeChar {c : Char} {b : UInt8} (hb : b ∈ String.utf8EncodeChar c)
    (hsmall : b < 0x80) : String.utf8EncodeChar c = [b] ∧ c = Char.ofNat b.toNat := by
  have hlt : b.toNat < 128 := hsmall
  have hval : c.val.toNat = c.toNat := rfl
  unfold String.utf8EncodeChar at hb ⊢
  simp only [hval] at hb ⊢
  split at hb
  case isTrue h =>
    obtain rfl := List.mem_singleton.1 hb
    rw [if_pos h, toNat_ofNat (by omega), Char.ofNat_toNat]
    exact ⟨rfl, rfl⟩
  all_goals
    exfalso
    repeat' split at hb
    all_goals
      simp only [List.mem_cons, List.not_mem_nil, or_false, ← UInt8.toNat_inj,
        UInt8.toNat_ofNat'] at hb
      omega

theorem mem_toList_of_mem_ofString {s : String} {b : UInt8} (hb : b ∈ ofString s)
    (hsmall : b < 0x80) : Char.ofNat b.toNat ∈ s.toList := by
  obtain ⟨c, hc, hmem⟩ := List.mem_flatMap.1 hb
  rwa [← (eq_of_mem_utf8EncodeChar hmem hsmall).2]

theorem getLast?_of_getLast?_ofString {s : String} {b : UInt8} (hb : (ofString s).getLast? = some b)
    (hsmall : b < 0x80) : s.toList.getLast? = some (Char.ofNat b.toNat) := by
  unfold ofString at hb
  rcases List.eq_nil_or_concat s.toList with hnil | ⟨cs, c, hconcat⟩
  · simp [hnil] at hb
  · have hlast : (String.utf8EncodeChar c).getLast? = some b := by
      rw [hconcat, List.concat_eq_append, List.flatMap_append, List.flatMap_singleton,
        List.getLast?_append] at hb
      cases hlast : (String.utf8EncodeChar c).getLast? with
      | none => exact absurd (List.getLast?_eq_none_iff.1 hlast) String.utf8EncodeChar_ne_nil
      | some b' => rwa [hlast, Option.some_or] at hb
    have hmem := List.mem_of_getLast? hlast
    rw [hconcat, List.concat_eq_append, List.getLast?_concat,
      (eq_of_mem_utf8EncodeChar hmem hsmall).2]

theorem lenientText_ofString (s : String) : lenientText (ofString s) = s := by
  have hread := lenientText_ofString_append s []
  rw [List.append_nil] at hread
  rw [← String.toList_inj, hread]
  exact List.append_nil _

/-! ## Carriage returns -/

/-- The payload of more bytes does not make the value smaller. -/
theorem le_foldl_payload (start : Nat) (bytes : Bytes) :
    start ≤ bytes.foldl (fun n b => n * 64 + b.toNat % 64) start := by
  induction bytes generalizing start with
  | nil => exact Nat.le_refl start
  | cons b rest ih =>
    have hstep : start ≤ start * 64 + b.toNat % 64 := by omega
    exact hstep.trans (ih _)

/-- The first two bytes of a longer sequence already bear more than a carriage return. -/
theorem return_lt_of_lead? {first second low high : UInt8} {following : Nat}
    (hlead : lead? first = some (low, high, following)) (hlow : low ≤ second)
    (hhigh : second ≤ high) :
    0 < following ∧ 0x0D < leadBits first following * 64 + second.toNat % 64 := by
  unfold lead? at hlead
  repeat' split at hlead
  all_goals cases hlead
  all_goals
    simp only [leadBits, Nat.pow_eq, Nat.reduceSub, Nat.reducePow, Bool.and_eq_true,
      decide_eq_true_eq, beq_iff_eq, UInt8.le_iff_toNat_le, ← UInt8.toNat_inj,
      UInt8.reduceToNat] at *
    omega

theorem eq_of_ofNat_eq_return {n : Nat} (h : Char.ofNat n = '\r') : n = 0x0D := by
  by_cases hvalid : n.isValidChar
  · have hvalue : Char.ofNat n = Char.ofNatAux n hvalid := dif_pos hvalid
    exact congrArg Char.toNat (hvalue.symm.trans h)
  · have hvalue : Char.ofNat n = '\x00' := dif_neg hvalid
    rw [hvalue] at h
    cases h

/-- A carriage return is read from its own byte and from nothing else. -/
theorem firstScalar_eq_return {first : UInt8} {rest : Bytes} {length : Nat}
    (h : firstScalar first rest = (some '\r', length)) : first = 0x0D ∧ length = 0 := by
  unfold firstScalar at h
  split at h
  case isTrue =>
    obtain ⟨hchar, hlength⟩ := Prod.mk.inj h
    have hfirst := eq_of_ofNat_eq_return (Option.some.inj hchar)
    exact ⟨UInt8.toNat_inj.1 hfirst, hlength.symm⟩
  case isFalse =>
    -- a longer sequence has a larger value, and what is no sequence has none
    exfalso
    split at h
    · cases h
    · next low high following hlead =>
      split at h
      · cases h
      · next second more =>
        split at h
        · cases h
        · next hsecond =>
          obtain ⟨hlow, hhigh⟩ : low ≤ second ∧ second ≤ high := by
            simpa [UInt8.not_lt] using hsecond
          obtain ⟨hfollowing, hlt⟩ := return_lt_of_lead? hlead hlow hhigh
          dsimp only at h
          split at h
          · cases h
          · next hwhole =>
            obtain ⟨count, rfl⟩ := Nat.exists_eq_add_one_of_ne_zero hfollowing.ne'
            have hvalue := eq_of_ofNat_eq_return (Option.some.inj (Prod.mk.inj h).1)
            rw [List.take_succ_cons, List.takeWhile_cons] at hvalue hwhole
            split at hwhole
            case isTrue hcontinues =>
              rw [if_pos hcontinues, List.foldl_cons] at hvalue
              have hle := le_foldl_payload
                (leadBits first (count + 1) * 64 + second.toNat % 64)
                ((more.take count).takeWhile isContinuation)
              omega
            case isFalse => simp at hwhole

/-- The last scalar value is a carriage return only if the last byte is one. -/
theorem getLast?_of_getLast?_scalarsFrom {skipped : Nat} {bytes : Bytes}
    (h : (scalarsFrom skipped bytes).getLast? = some (some '\r')) :
    bytes.getLast? = some 0x0D := by
  fun_induction scalarsFrom skipped bytes with
  | case1 => cases h
  | case2 first rest scalar length hscalar ih =>
    rw [List.getLast?_cons, Option.some.injEq] at h
    rw [List.getLast?_cons]
    cases hlast : (scalarsFrom length rest).getLast? with
    | some last =>
      rw [hlast, Option.getD_some] at h
      rw [ih (h ▸ hlast), Option.getD_some]
    | none =>
      rw [hlast, Option.getD_none] at h
      obtain ⟨rfl, rfl⟩ := firstScalar_eq_return (h ▸ hscalar)
      cases rest with
      | nil => rfl
      | cons b rest => simp [scalarsFrom] at hlast
  | case3 skipped b rest ih =>
    rw [List.getLast?_cons, ih h]
    rfl

/-- A text ends with a carriage return only if its bytes do. -/
theorem getLast?_of_getLast?_lenientText {bytes : Bytes}
    (h : (lenientText bytes).toList.getLast? = some '\r') : bytes.getLast? = some 0x0D := by
  rw [lenientText, String.toList_ofList, List.getLast?_map, Option.map_eq_some_iff] at h
  obtain ⟨scalar, hscalar, hreturn⟩ := h
  cases scalar with
  | none => cases hreturn
  | some c =>
    obtain rfl : c = '\r' := hreturn
    exact getLast?_of_getLast?_scalarsFrom hscalar

end ChatWire.Bytes
