import ChatWire.Dialect.Gemini
import ChatWire.Proofs.Decimal.Layout
import ChatWire.Proofs.Json.Members
import ChatWire.Proofs.Table

/-!
# Places of signatures in the Gemini format

The signatures that a message's metadata holds are told by place (`Gemini.signatureAt`), in
whichever form they stand there. Writing puts each on the part at its place (`Gemini.signParts_eq`),
and from the list of signatures with their places reading makes the same metadata again
(`Gemini.signatureValue?_placed`), but for the form of a lone signature.
-/

namespace ChatWire.Gemini

/-! ## Places as text -/

theorem toString_inj {i j : Nat} (h : toString i = toString j) : i = j := by
  have hdigits : Nat.toDigits 10 i = Nat.toDigits 10 j := by
    rw [← Nat.toList_repr, ← Nat.toList_repr]
    exact congrArg String.toList h
  calc i = Nat.ofDigitChars 10 (Nat.toDigits 10 i) 0 := Nat.ofDigitChars_ten_toDigits.symm
    _ = Nat.ofDigitChars 10 (Nat.toDigits 10 j) 0 := by rw [hdigits]
    _ = j := Nat.ofDigitChars_ten_toDigits

theorem isDigit_of_mem_toString {i : Nat} {c : Char} (h : c ∈ (toString i).toList) :
    c.isDigit = true := by
  rw [show (toString i).toList = Nat.toDigits 10 i from Nat.toList_repr, Numeral.toDigits_eq,
    Numeral.digitText] at h
  obtain ⟨d, hd, rfl⟩ := List.mem_map.1 h
  rw [Nat.isDigit_digitChar]
  exact decide_eq_true (Numeral.lt_of_mem_digitsOf hd)

/-- A place is read as it was written. -/
theorem place?_toString {i : Nat} (h : i < UInt64.size) : place? (toString i) = some i := by
  have hdigits : (toString i).toList = Nat.toDigits 10 i := Nat.toList_repr
  have hplus : '+' ∉ (toString i).toList := fun hmem =>
    absurd (isDigit_of_mem_toString hmem) (by decide)
  have hall : (toString i).toList.all Char.isDigit = true :=
    List.all_eq_true.2 fun c hc => isDigit_of_mem_toString hc
  have hvalue : (toString i).toList.foldl (fun n c => n * 10 + (c.toNat - 48)) 0 = i := by
    have hfold := Numeral.digitsValue_digitsOf i
    rwa [Numeral.digitsValue, Numeral.digitsOf, List.foldl_map, ← hdigits] at hfold
  have hne : (toString i).toList.isEmpty = false := by
    rw [hdigits, List.isEmpty_eq_false_iff]
    exact Nat.toDigits_ne_nil
  unfold place?
  extract_lets digits n
  have hsame : digits = (toString i).toList := by
    unfold digits
    split
    case h_1 rest hcs => exact absurd (hcs ▸ List.mem_cons_self) hplus
    case h_2 => rfl
  have hn : n = i := by rw [← hvalue, ← hsame]
  rw [hsame, hn, hne, hall]
  exact if_pos (by simpa using h)

/-! ## The signatures of a message -/

/-- The signature that the metadata of a message has for a place. -/
def signatureAt (m : Message) (place : Nat) : Option String :=
  match m.metadata.find? signatureKey with
  | some (.string signature) =>
    if signaturePlace? m.content = some place then some signature else none
  | some value => (value.get? (toString place)).bind Json.text?
  | none => none

/-- Whether a text is the place, a 64-bit number in its decimal digits, of a block that is not
reasoning. -/
def IsPlace (content : List Block) (text : String) : Prop :=
  ∃ i < UInt64.size, text = toString i ∧ ∃ b, content[i]? = some b ∧ b.isThinking = false

/-- The metadata has no signatures, or one for which there is a block, or some with the places of
their blocks. -/
inductive IsPlaced (m : Message) : Prop
  | absent (h : m.metadata.find? signatureKey = none)
  | alone (signature : String) (h : m.metadata.find? signatureKey = some (.string signature))
      (hplace : ∃ b ∈ m.content, b.isToolCall ∨ b.isThinking = false)
  | byPlace (signatures : Fields) (h : m.metadata.find? signatureKey = some signatures.toJson)
      (hne : signatures.entries ≠ [])
      (hentries : ∀ e ∈ signatures.entries, IsPlace m.content e.1 ∧ ∃ s, e.2 = .string s)

/-- The signatures as they come back: a lone one without its place, if it is put there anyway. -/
def readSignatures? (m : Message) : Option Json :=
  match m.metadata.find? signatureKey with
  | some (.object [(key, signature)]) =>
    if (signaturePlace? m.content).map toString = some key then some signature
    else some (.object [(key, signature)])
  | value => value

theorem isThinking_of_isToolCall {b : Block} (h : b.isToolCall = true) : b.isThinking = false := by
  cases b with
  | toolCall c => rfl
  | _ => cases h

/-- A lone signature is put on a block that is not reasoning. -/
theorem exists_of_signaturePlace? {content : List Block} {place : Nat}
    (h : signaturePlace? content = some place) :
    ∃ b, content[place]? = some b ∧ b.isThinking = false := by
  have hfound {p : Block → Bool} (hp : content.findIdx? p = some place) :
      ∃ b, content[place]? = some b ∧ p b = true := by
    obtain ⟨hlt, hblock, -⟩ := List.findIdx?_eq_some_iff_getElem.1 hp
    exact ⟨_, List.getElem?_eq_getElem hlt, hblock⟩
  rcases Option.or_eq_some_iff.1 h with hcall | ⟨-, hother⟩
  · obtain ⟨b, hb, hkind⟩ := hfound hcall
    exact ⟨b, hb, isThinking_of_isToolCall hkind⟩
  · obtain ⟨b, hb, hkind⟩ := hfound hother
    exact ⟨b, hb, by simpa using hkind⟩

theorem signaturePlace?_isSome {content : List Block}
    (h : ∃ b ∈ content, b.isToolCall ∨ b.isThinking = false) :
    ∃ place, signaturePlace? content = some place := by
  obtain ⟨b, hb, hkind⟩ := h
  have hother : b.isThinking = false := hkind.elim isThinking_of_isToolCall id
  have hsome : (content.findIdx? fun b => !b.isThinking).isSome = true :=
    List.findIdx?_isSome.trans (List.any_eq_true.2 ⟨b, hb, by rw [hother]; rfl⟩)
  obtain ⟨place, hplace⟩ := Option.isSome_iff_exists.1 hsome
  rw [signaturePlace?, hplace]
  cases content.findIdx? Block.isToolCall with
  | none => exact ⟨place, rfl⟩
  | some call => exact ⟨call, rfl⟩

/-! ## Writing -/

/-- A part with a signature, if there is one. -/
def signWith : Option String → Json → Json
  | none, part => part
  | some signature, part => sign signature part

@[simp] theorem signWith_none : signWith none = id := rfl

@[simp] theorem signWith_some (signature : String) :
    signWith (some signature) = sign signature := rfl

/-- The parts with the signatures of their places. -/
def signed (signatures : Nat → Option String) (parts : List Json) : List Json :=
  parts.mapIdx fun i => signWith (signatures i)

theorem signed_none (parts : List Json) : signed (fun _ => none) parts = parts :=
  List.mapIdx_eq_iff.2 fun i => by simp

theorem modify_sign (parts : List Json) (place : Nat) (signature : String) :
    parts.modify place (sign signature)
      = signed (fun i => if some place = some i then some signature else none) parts := by
  refine List.ext_getElem? fun i => ?_
  rw [List.getElem?_modify, signed, List.getElem?_mapIdx]
  by_cases hi : place = i
  · simp [hi]
  · simp [hi]

/-- The signature that the members of an object have for a place. -/
def memberAt (members : List (String × Json)) (place : Nat) : Option String :=
  ((Json.object members).get? (toString place)).bind Json.text?

theorem memberAt_cons (i : Nat) (signature : String) (members : List (String × Json)) (j : Nat) :
    memberAt ((toString i, .string signature) :: members) j
      = if i = j then some signature else memberAt members j := by
  by_cases hij : i = j
  · subst hij
    simp [memberAt, Json.get?, Json.text?]
  · have hne : toString i ≠ toString j := fun h => hij (toString_inj h)
    rw [if_neg hij, memberAt, memberAt, Json.get?, Json.get?,
      List.find?_cons_of_neg (by simpa using hne)]

theorem memberAt_eq_none {members : List (String × Json)} {i : Nat}
    (h : toString i ∉ members.map Prod.fst) : memberAt members i = none := by
  have hnone : (members.find? fun m => m.1 == toString i) = none := by
    rw [List.find?_eq_none]
    intro m hm hkey
    exact h (List.mem_map.2 ⟨m, hm, beq_iff_eq.1 hkey⟩)
  rw [memberAt, Json.get?, hnone]
  rfl

theorem foldl_signAt {members : List (String × Json)} {parts : List Json}
    (hkeys : (members.map Prod.fst).Nodup)
    (hmembers : ∀ e ∈ members, ∃ i < parts.length, ∃ s, i < UInt64.size ∧
      e = (toString i, .string s)) :
    members.foldl signAt parts = signed (memberAt members) parts := by
  induction members generalizing parts with
  | nil => exact (signed_none parts).symm
  | cons e rest ih =>
    obtain ⟨⟨i, hi, s, hsize, rfl⟩, hrest⟩ := List.forall_mem_cons.1 hmembers
    obtain ⟨hfresh, hkeys⟩ := List.nodup_cons.1 hkeys
    have hstep : signAt parts (toString i, .string s) = parts.modify i (sign s) := by
      simp only [signAt, place?_toString hsize]
      exact if_pos hi
    rw [List.foldl_cons, hstep, ih hkeys (by simpa using hrest)]
    -- No later entry is about this part.
    refine List.ext_getElem? fun j => ?_
    rw [signed, signed, List.getElem?_mapIdx, List.getElem?_mapIdx, List.getElem?_modify,
      memberAt_cons]
    by_cases hij : i = j
    · subst hij
      simp [memberAt_eq_none hfresh]
    · simp [hij]

theorem signatureAt_alone {m : Message} {signature : String} {place : Nat}
    (h : m.metadata.find? signatureKey = some (.string signature))
    (hplace : signaturePlace? m.content = some place) :
    signatureAt m = fun i => if some place = some i then some signature else none := by
  funext i
  rw [signatureAt, h, hplace]

theorem signatureAt_byPlace {m : Message} {signatures : Fields}
    (h : m.metadata.find? signatureKey = some signatures.toJson) :
    signatureAt m = memberAt signatures.entries := by
  funext i
  rw [signatureAt, h]
  rfl

/-- Reasoning gets no signature from the metadata. -/
theorem signatureAt_of_isThinking {m : Message} (h : IsPlaced m) {i : Nat} {b : Block}
    (hb : m.content[i]? = some b) (hthinking : b.isThinking = true) : signatureAt m i = none := by
  have hother {c : Block} (hc : m.content[i]? = some c) (hkind : c.isThinking = false) : False := by
    obtain rfl := Option.some.inj (hb.symm.trans hc)
    rw [hthinking] at hkind
    cases hkind
  cases h with
  | absent h => rw [signatureAt, h]
  | alone signature h hplace =>
    obtain ⟨place, hplace⟩ := signaturePlace?_isSome hplace
    rw [signatureAt_alone h hplace]
    refine if_neg fun hi => ?_
    obtain ⟨c, hc, hkind⟩ := exists_of_signaturePlace? hplace
    obtain rfl := Option.some.inj hi
    exact hother hc hkind
  | byPlace signatures h hne hentries =>
    rw [signatureAt_byPlace h]
    refine memberAt_eq_none fun hkey => ?_
    obtain ⟨e, he, hkey⟩ := List.mem_map.1 hkey
    obtain ⟨⟨j, -, hj, c, hc, hkind⟩, -⟩ := hentries e he
    obtain rfl := toString_inj (hkey.symm.trans hj)
    exact hother hc hkind

/-- Each part gets the signature that the metadata has for its place. -/
theorem signParts_eq {m : Message} (h : IsPlaced m) {parts : List Json}
    (hlength : parts.length = m.content.length) :
    signParts m parts = signed (signatureAt m) parts := by
  cases h with
  | absent h =>
    have hnone : signatureAt m = fun _ => none := by
      funext i
      rw [signatureAt, h]
    rw [signParts, h, hnone, signed_none]
  | alone signature h hplace =>
    obtain ⟨place, hplace⟩ := signaturePlace?_isSome hplace
    rw [signParts, h, hplace, signatureAt_alone h hplace]
    exact modify_sign parts place signature
  | byPlace signatures h hne hentries =>
    have hmembers : ∀ e ∈ signatures.entries, ∃ i < parts.length, ∃ s, i < UInt64.size ∧
        e = (toString i, .string s) := by
      rintro ⟨key, value⟩ he
      obtain ⟨⟨i, hsize, hkey, b, hb, -⟩, s, hvalue⟩ := hentries _ he
      obtain ⟨hi, -⟩ := List.getElem?_eq_some_iff.1 hb
      exact ⟨i, hlength ▸ hi, s, hsize, Prod.ext hkey hvalue⟩
    rw [signParts, h, signatureAt_byPlace h]
    exact foldl_signAt signatures.nodup_keys hmembers

/-! ## Reading -/

/-- The signatures for the places below a number. -/
def placedSignatures (signatures : Nat → Option String) (places : Nat) : List (Nat × String) :=
  (List.range places).filterMap fun i => (signatures i).map (i, ·)

theorem placedSignatures_succ (signatures : Nat → Option String) (places : Nat) :
    placedSignatures signatures (places + 1)
      = placedSignatures signatures places ++ (signatures places).toList.map (places, ·) := by
  rw [placedSignatures, List.range_succ, List.filterMap_append]
  cases h : signatures places <;> simp [placedSignatures, h]

theorem mem_placedSignatures {signatures : Nat → Option String} {places i : Nat} {s : String} :
    (i, s) ∈ placedSignatures signatures places ↔ i < places ∧ signatures i = some s := by
  simp [placedSignatures]

theorem nodup_placedSignatures (signatures : Nat → Option String) (places : Nat) :
    (placedSignatures signatures places).Nodup := by
  refine List.Nodup.filterMap (fun i j e hi hj => ?_) List.nodup_range
  obtain ⟨s, -, rfl⟩ := Option.mem_map.1 hi
  obtain ⟨s', -, he⟩ := Option.mem_map.1 hj
  exact (congrArg Prod.fst he).symm

/-- Where only one place has a signature, only this one is listed. -/
theorem placedSignatures_single {place places : Nat} (h : place < places) (signature : String) :
    placedSignatures (fun i => if some place = some i then some signature else none) places
      = [(place, signature)] := by
  refine List.perm_singleton.1 ((List.perm_ext_iff_of_nodup (nodup_placedSignatures _ _)
    (List.nodup_singleton _)).2 ?_)
  rintro ⟨i, s⟩
  rw [mem_placedSignatures, List.mem_singleton, Prod.mk.injEq]
  constructor
  · rintro ⟨-, hs⟩
    split at hs
    case isTrue hi => exact ⟨(Option.some.inj hi).symm, (Option.some.inj hs).symm⟩
    case isFalse => cases hs
  · rintro ⟨rfl, rfl⟩
    exact ⟨h, if_pos rfl⟩

/-- The signatures by place are the entries of the table that they come from. -/
theorem perm_placedSignatures {signatures : Fields} {content : List Block}
    (hentries : ∀ e ∈ signatures.entries, IsPlace content e.1 ∧ ∃ s, e.2 = .string s) :
    ((placedSignatures (memberAt signatures.entries) content.length).map fun s =>
      (toString s.1, Json.string s.2)).Perm signatures.entries := by
  have hinj : Function.Injective fun s : Nat × String => (toString s.1, Json.string s.2) := by
    rintro ⟨i, s⟩ ⟨j, s'⟩ h
    obtain ⟨hplace, hsignature⟩ := Prod.mk.inj h
    exact Prod.ext (toString_inj hplace) (Json.string.inj hsignature)
  have hlisted : signatures.entries.Nodup := List.Nodup.of_map Prod.fst signatures.nodup_keys
  -- Neither list has an entry twice, so what is left to compare is which entries they have.
  refine (List.perm_ext_iff_of_nodup ((nodup_placedSignatures _ _).map hinj) hlisted).2 ?_
  rintro ⟨key, value⟩
  have hmember (i : Nat) (s : String) : memberAt signatures.entries i = some s ↔
      (toString i, Json.string s) ∈ signatures.entries := by
    rw [Table.mem_entries_iff, memberAt, Json.get?, Json.find?_key_eq, Table.find?,
      Option.bind_eq_some_iff]
    constructor
    · rintro ⟨value, hvalue, hs⟩
      cases value with
      | string s' =>
        obtain rfl := Option.some.inj hs
        exact hvalue
      | _ => cases hs
    · intro h
      exact ⟨_, h, rfl⟩
  rw [List.mem_map]
  constructor
  · rintro ⟨⟨i, s⟩, hs, he⟩
    rw [← he]
    exact (hmember i s).1 (mem_placedSignatures.1 hs).2
  · intro he
    obtain ⟨⟨i, -, rfl, b, hb, -⟩, s, rfl⟩ := hentries _ he
    obtain ⟨hi, -⟩ := List.getElem?_eq_some_iff.1 hb
    exact ⟨(i, s), mem_placedSignatures.2 ⟨hi, (hmember i s).2 he⟩, rfl⟩

/-- The metadata that is read is the metadata that was written, but for the form of a lone
signature. -/
theorem signatureValue?_placed {m : Message} (h : IsPlaced m) :
    signatureValue? (placedSignatures (signatureAt m) m.content.length) (signaturePlace? m.content)
      = readSignatures? m := by
  cases h with
  | absent h =>
    have hnone : placedSignatures (signatureAt m) m.content.length = [] :=
      List.filterMap_eq_nil_iff.2 fun i _ => by rw [signatureAt, h]; rfl
    rw [hnone, readSignatures?, h]
    rfl
  | alone signature h hplace =>
    obtain ⟨place, hplace⟩ := signaturePlace?_isSome hplace
    obtain ⟨b, hb, -⟩ := exists_of_signaturePlace? hplace
    obtain ⟨hlt, -⟩ := List.getElem?_eq_some_iff.1 hb
    rw [signatureAt_alone h hplace, placedSignatures_single hlt, readSignatures?, h, hplace]
    exact if_pos rfl
  | byPlace signatures h hne hentries =>
    rw [signatureAt_byPlace h]
    have hperm := perm_placedSignatures hentries
    have htable := Table.ofList_of_perm hperm
    generalize placedSignatures (memberAt signatures.entries) m.content.length = placed
      at hperm htable
    -- Reading gives up the place of a signature only if there is no other.
    match placed with
    | [] => exact absurd (List.nil_perm.1 hperm) hne
    | [(i, s)] =>
      have hentry : signatures.entries = [(toString i, .string s)] :=
        List.perm_singleton.1 hperm.symm
      have hvalue : signatures.toJson = .object [(toString i, .string s)] := by
        rw [Fields.toJson, hentry]
      have hsame : some i = signaturePlace? m.content ↔
          (signaturePlace? m.content).map toString = some (toString i) := by
        rw [Option.map_eq_some_iff]
        constructor
        · intro hi
          exact ⟨i, hi.symm, rfl⟩
        · rintro ⟨place, hplace, hi⟩
          rw [hplace, toString_inj hi]
      rw [readSignatures?, h, signatureValue?, htable, hvalue]
      simp only [hsame]
    | first :: second :: rest =>
      have hlength : signatures.entries.length = rest.length + 2 := by
        simpa using hperm.length_eq.symm
      have hvalue : readSignatures? m = some signatures.toJson := by
        rw [readSignatures?, h, Fields.toJson]
        split
        case h_1 hentries =>
          have hone := Json.object.inj (Option.some.inj hentries)
          rw [hone] at hlength
          cases hlength
        case h_2 => rfl
      rw [hvalue, ← htable]
      rfl

end ChatWire.Gemini
