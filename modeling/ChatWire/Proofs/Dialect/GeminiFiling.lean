import ChatWire.Proofs.Dialect.GeminiRoundTrip

/-!
# Filing signatures

The signatures of parts that are not reasoning are filed under numbers (`Gemini.filed`), which tell
the places of blocks. The metadata has room for one signature at each place, so of several that were
filed under one number it holds the last (`Gemini.latest`): these are the ones that are stored
(`Gemini.stores_iff`), and writing puts each on the part at its place, or behind the last part if
its place is the next one (`Gemini.signParts_of_hasFiled`).
-/

namespace ChatWire.Gemini

/-! ## Numbers -/

/-- The signature of a part that is not reasoning. -/
def looseSignature? (part : Json) : Option String :=
  if isThought part then none else signature? part

/-- The signatures of parts that are not reasoning, each with the number of its part. -/
def filed (number : Nat → Nat) (parts : List Json) : List (Nat × String) :=
  parts.zipIdx.filterMap fun p => (looseSignature? p.1).map (number p.2, ·)

/-- The signatures by number; of several under one number the last counts. -/
def latest (number : Nat → Nat) (parts : List Json) : Table Nat String :=
  .ofList (filed number parts)

/-- No number has two signatures. -/
def IsApart (number : Nat → Nat) (parts : List Json) : Prop :=
  ((filed number parts).map Prod.fst).Nodup

instance (number : Nat → Nat) (parts : List Json) : Decidable (IsApart number parts) :=
  inferInstanceAs (Decidable (List.Nodup _))

variable {number : Nat → Nat} {parts : List Json}

theorem filed_concat (number : Nat → Nat) (parts : List Json) (part : Json) :
    filed number (parts ++ [part])
      = filed number parts ++ (looseSignature? part).toList.map (number parts.length, ·) := by
  rw [filed, List.zipIdx_append, List.filterMap_append]
  cases h : looseSignature? part <;> simp [filed, h]

theorem filed_congr {number' : Nat → Nat} (h : ∀ k < parts.length, number k = number' k) :
    filed number parts = filed number' parts := by
  refine List.filterMap_congr fun p hp => ?_
  rw [h p.2 (by simpa using List.snd_lt_of_mem_zipIdx hp)]

theorem mem_filed {i : Nat} {s : String} :
    (i, s) ∈ filed number parts ↔
      ∃ k part, parts[k]? = some part ∧ looseSignature? part = some s ∧ number k = i := by
  rw [filed, List.mem_filterMap]
  constructor
  · rintro ⟨⟨part, k⟩, hp, hs⟩
    obtain ⟨s', hs', he⟩ := Option.map_eq_some_iff.1 hs
    obtain ⟨rfl, rfl⟩ := Prod.mk.inj he
    exact ⟨k, part, List.mk_mem_zipIdx_iff_getElem?.1 hp, hs', rfl⟩
  · rintro ⟨k, part, hpart, hs, rfl⟩
    exact ⟨(part, k), List.mk_mem_zipIdx_iff_getElem?.2 hpart, by simp [hs]⟩

theorem exists_of_find?_latest {i : Nat} {s : String}
    (h : (latest number parts).find? i = some s) :
    ∃ k part, parts[k]? = some part ∧ looseSignature? part = some s ∧ number k = i :=
  mem_filed.1 (Table.mem_of_find?_ofList h)

theorem find?_latest_eq_none {i : Nat}
    (h : ∀ k part s, parts[k]? = some part → looseSignature? part = some s → number k ≠ i) :
    (latest number parts).find? i = none := by
  rw [Option.eq_none_iff_forall_ne_some]
  intro s hs
  obtain ⟨k, part, hpart, hloose, hk⟩ := exists_of_find?_latest hs
  exact h k part s hpart hloose hk

/-- A signature that has its number to itself is found there. -/
theorem find?_latest {k : Nat} {part : Json} {s : String} (h : IsApart number parts)
    (hpart : parts[k]? = some part) (hs : looseSignature? part = some s) :
    (latest number parts).find? (number k) = some s := by
  have hmem : (number k, s) ∈ filed number parts := mem_filed.2 ⟨k, part, hpart, hs, rfl⟩
  refine Table.find?_ofList_of_mem hmem fun e he hkey => ?_
  exact congrArg Prod.snd (List.inj_on_of_nodup_map h he hmem hkey)

/-- Numbers are apart if no two parts that bear signatures have the same. -/
theorem isApart_of_injective
    (h : ∀ j k p q, parts[j]? = some p → parts[k]? = some q → (looseSignature? p).isSome →
      (looseSignature? q).isSome → j < k → number j ≠ number k) :
    IsApart number parts := by
  rw [IsApart, List.Nodup, List.pairwise_map, filed, List.pairwise_filterMap]
  have hindices : parts.zipIdx.Pairwise fun a b => a.2 < b.2 := by
    rw [← List.pairwise_map (f := Prod.snd) (R := (· < ·)), List.zipIdx_map_snd]
    exact List.pairwise_lt_range'
  refine hindices.imp_of_mem fun {a b} ha hb hlt e he e' he' => ?_
  obtain ⟨s, hs, rfl⟩ := Option.map_eq_some_iff.1 he
  obtain ⟨s', hs', rfl⟩ := Option.map_eq_some_iff.1 he'
  exact h a.2 b.2 a.1 b.1 (List.mk_mem_zipIdx_iff_getElem?.1 ha)
    (List.mk_mem_zipIdx_iff_getElem?.1 hb) (by simp [hs]) (by simp [hs']) hlt

/-! ## Metadata -/

/-- The signatures under the decimal texts of their places. -/
def byPlace (signatures : List (Nat × String)) : Fields :=
  .ofList (signatures.map fun s => (toString s.1, .string s.2))

variable {signatures : List (Nat × String)} {m : Message}

/-- The signatures of the list are the ones in the metadata, as a reader leaves them there. -/
def HasFiled (m : Message) (signatures : List (Nat × String)) : Prop :=
  m.metadata.find? signatureKey = signatureValue? signatures (signaturePlace? m.content)

/-- The metadata holds the signature, alone or with its place. -/
def Stores (m : Message) (signature : String) : Prop :=
  m.metadata.find? signatureKey = some (.string signature) ∨
    ∃ members key, m.metadata.find? signatureKey = some (.object members) ∧
      (key, .string signature) ∈ members

theorem find?_byPlace (signatures : List (Nat × String)) (i : Nat) :
    (byPlace signatures).find? (toString i)
      = ((Table.ofList signatures).find? i).map Json.string := by
  induction signatures using List.reverseRecOn with
  | nil => rfl
  | append_singleton signatures s ih =>
    rw [byPlace, List.map_append, List.map_singleton, Table.find?_ofList_concat,
      Table.find?_ofList_concat]
    by_cases hi : s.1 = i
    · rw [if_pos (congrArg toString hi), if_pos hi]
      rfl
    · rw [if_neg (mt toString_inj hi), if_neg hi]
      exact ih

theorem exists_of_mem_byPlace {e : String × Json} (h : e ∈ (byPlace signatures).entries) :
    ∃ i s, (i, s) ∈ signatures ∧ e = (toString i, .string s) := by
  obtain ⟨⟨i, s⟩, hs, he⟩ := List.mem_map.1 (Table.mem_of_find?_ofList (Table.mem_entries_iff.1 h))
  exact ⟨i, s, hs, he.symm⟩

theorem memberAt_entries (members : Fields) (i : Nat) :
    memberAt members.entries i = (members.find? (toString i)).bind Json.text? := by
  rw [memberAt, Json.get?, Json.find?_key_eq, Table.find?]

theorem memberAt_byPlace (signatures : List (Nat × String)) (i : Nat) :
    memberAt (byPlace signatures).entries i = (Table.ofList signatures).find? i := by
  rw [memberAt_entries, find?_byPlace]
  cases (Table.ofList signatures).find? i <;> rfl

/-- What a list of signatures is as metadata: nothing, a lone signature at the place where it would
be put anyway, or the signatures by place. -/
theorem signatureValue?_cases (signatures : List (Nat × String)) (place : Option Nat) :
    signatures = [] ∧ signatureValue? signatures place = none ∨
    (∃ i s, signatures = [(i, s)] ∧ place = some i ∧
      signatureValue? signatures place = some (.string s)) ∨
    signatureValue? signatures place = some (byPlace signatures).toJson := by
  match signatures with
  | [] => exact .inl ⟨rfl, rfl⟩
  | [(i, s)] =>
    by_cases hplace : some i = place
    · exact .inr (.inl ⟨i, s, rfl, hplace.symm, if_pos hplace⟩)
    · exact .inr (.inr (if_neg hplace))
  | _ :: _ :: _ => exact .inr (.inr rfl)

theorem find?_ofList_singleton (i : Nat) (s : String) :
    (Table.ofList [(i, s)]).find? = fun j => if some i = some j then some s else none := by
  funext j
  rw [← List.nil_append [(i, s)], Table.find?_ofList_concat]
  simp only [Option.some.injEq]
  rfl

/-- The message has the signature for a place that was filed there last. -/
theorem signatureAt_of_hasFiled (h : HasFiled m signatures) :
    signatureAt m = (Table.ofList signatures).find? := by
  rcases signatureValue?_cases signatures (signaturePlace? m.content) with
    ⟨rfl, hvalue⟩ | ⟨i, s, rfl, hplace, hvalue⟩ | hvalue
  · funext i
    rw [signatureAt, h, hvalue]
    rfl
  · rw [signatureAt_alone (h.trans hvalue) hplace, find?_ofList_singleton]
  · rw [signatureAt_byPlace (h.trans hvalue)]
    exact funext (memberAt_byPlace signatures)

/-- What is stored of a list of signatures: at each place the last one. -/
theorem stores_iff {place : Option Nat}
    (h : m.metadata.find? signatureKey = signatureValue? signatures place) (s : String) :
    Stores m s ↔ ∃ i, (Table.ofList signatures).find? i = some s := by
  rw [Stores, h]
  rcases signatureValue?_cases signatures place with
    ⟨rfl, hvalue⟩ | ⟨i, s', rfl, -, hvalue⟩ | hvalue
  · rw [hvalue]
    simp [Table.ofList, Table.insertAll]
  · rw [hvalue, find?_ofList_singleton]
    simp
  · rw [hvalue]
    constructor
    · rintro (halone | ⟨members, key, hmembers, hmem⟩)
      · cases halone
      · obtain rfl : (byPlace signatures).entries = members :=
          Json.object.inj (Option.some.inj hmembers)
        obtain ⟨i, s', -, he⟩ := exists_of_mem_byPlace hmem
        obtain ⟨rfl, hs⟩ := Prod.mk.inj he
        have hfound := Table.mem_entries_iff.1 hmem
        rw [find?_byPlace] at hfound
        obtain ⟨s'', hs'', hsame⟩ := Option.map_eq_some_iff.1 hfound
        exact ⟨i, hs''.trans (congrArg some (Json.string.inj hsame))⟩
    · rintro ⟨i, hi⟩
      refine .inr ⟨_, toString i, rfl, Table.mem_entries_iff.2 ?_⟩
      rw [find?_byPlace, hi]
      rfl

/-! ## Writing -/

theorem signAt_toString {i : Nat} (hsize : i < UInt64.size) (s : String) (parts : List Json) :
    signAt parts (toString i, .string s) = if i < parts.length then parts.modify i (sign s)
      else parts ++ [.object [("thought_signature", .string s)]] := by
  simp only [signAt, place?_toString hsize]

theorem modify_concat (f : Json → Json) {parts : List Json} {i : Nat} (hi : i ≤ parts.length)
    (p : Json) :
    (parts ++ [p]).modify i f = parts.modify i f ++ [if i = parts.length then f p else p] := by
  induction parts generalizing i with
  | nil =>
    obtain rfl : i = 0 := Nat.le_zero.1 hi
    rfl
  | cons q rest ih =>
    cases i with
    | zero => simp
    | succ i => simp [ih (Nat.le_of_succ_le_succ hi)]

/-- A signature for the place behind the last part is put on an empty part there. -/
theorem foldl_signAt_behind {members : List (String × Json)} {parts : List Json}
    (hmembers : ∀ e ∈ members, ∃ i ≤ parts.length, ∃ s, i < UInt64.size ∧
      e = (toString i, .string s))
    (hbehind : (memberAt members parts.length).isSome) :
    members.foldl signAt parts = members.foldl signAt (parts ++ [.object []]) := by
  induction members generalizing parts with
  | nil => cases hbehind
  | cons e rest ih =>
    obtain ⟨⟨i, hi, s, hsize, rfl⟩, hrest⟩ := List.forall_mem_cons.1 hmembers
    have hinside : i < (parts ++ [Json.object []]).length := by simpa using Nat.lt_succ_of_le hi
    rw [List.foldl_cons, List.foldl_cons, signAt_toString hsize, signAt_toString hsize,
      if_pos hinside, modify_concat _ hi]
    by_cases hlast : i = parts.length
    · -- From here on both have the part.
      subst hlast
      rw [if_neg (lt_irrefl _), if_pos rfl, List.modify_eq_self le_rfl]
      rfl
    · rw [memberAt_cons, if_neg hlast] at hbehind
      rw [if_pos (lt_of_le_of_ne hi hlast), if_neg hlast]
      exact ih (by simpa using hrest) (by simpa using hbehind)

/-- The part behind the last one, there if it bears a signature. -/
def partBehind (signatures : Nat → Option String) (parts : List Json) : List Json :=
  if (signatures parts.length).isSome then parts ++ [.object []] else parts

theorem foldl_signAt_entries {members : Fields} {parts : List Json}
    (hmembers : ∀ e ∈ members.entries, ∃ i ≤ parts.length, ∃ s, i < UInt64.size ∧
      e = (toString i, .string s)) :
    members.entries.foldl signAt parts
      = signed (memberAt members.entries) (partBehind (memberAt members.entries) parts) := by
  unfold partBehind
  split
  case isTrue hbehind =>
    rw [foldl_signAt_behind hmembers hbehind]
    refine foldl_signAt members.nodup_keys fun e he => ?_
    obtain ⟨i, hi, hs⟩ := hmembers e he
    exact ⟨i, by simpa using Nat.lt_succ_of_le hi, hs⟩
  case isFalse hnone =>
    refine foldl_signAt members.nodup_keys fun e he => ?_
    obtain ⟨i, hi, s, hsize, rfl⟩ := hmembers e he
    refine ⟨i, lt_of_le_of_ne hi ?_, s, hsize, rfl⟩
    rintro rfl
    rw [memberAt_entries, Table.find?_of_mem_entries he] at hnone
    exact hnone rfl

/-- Each part gets the signature that was filed last under its place, and if one was filed under the
place behind the last part, then a part that holds nothing else stands there. -/
theorem signParts_of_hasFiled (h : HasFiled m signatures) {parts : List Json}
    (hlength : parts.length = m.content.length)
    (hplaces : ∀ e ∈ signatures, e.1 ≤ parts.length ∧ e.1 < UInt64.size) :
    signParts m parts = signed (Table.ofList signatures).find?
      (partBehind (Table.ofList signatures).find? parts) := by
  rw [← signatureAt_of_hasFiled h]
  rcases signatureValue?_cases signatures (signaturePlace? m.content) with
    ⟨rfl, hvalue⟩ | ⟨i, s, rfl, hplace, hvalue⟩ | hvalue
  · have hnone : signatureAt m = fun _ => none := by
      funext i
      rw [signatureAt, h, hvalue]
    rw [signParts, h, hvalue, hnone, signed_none]
    rfl
  · obtain ⟨b, hb, -⟩ := exists_of_signaturePlace? hplace
    obtain ⟨hlt, -⟩ := List.getElem?_eq_some_iff.1 hb
    rw [signParts, h, hvalue, hplace, signatureAt_alone (h.trans hvalue) hplace, partBehind,
      if_neg (by simp [hlength, hlt.ne])]
    exact modify_sign parts i s
  · rw [signParts, h, hvalue, signatureAt_byPlace (h.trans hvalue)]
    refine foldl_signAt_entries fun e he => ?_
    obtain ⟨i, s, hs, rfl⟩ := exists_of_mem_byPlace he
    exact ⟨i, (hplaces _ hs).1, s, (hplaces _ hs).2, rfl⟩

/-! ## Parts of blocks -/

theorem exists_part_eq_object {b : Block} (hfits : Fits b) :
    ∃ members, part b = .object members := by
  cases hb : b.isThinking with
  | false => exact (exists_part_eq hfits hb).1
  | true =>
    cases b with
    | thinking t => exact ⟨_, rfl⟩
    | _ => cases hb

theorem signature?_sign (members : List (String × Json)) (s : String) :
    signature? (sign s (.object members)) = some s := by
  rw [sign, signature?, textField?, field?, Json.get?_set_self]
  rfl

/-- The part of a block bears the signature that is put on it, or else the seal of reasoning. -/
theorem signature?_signWith_part {b : Block} (hfits : Fits b) (signature : Option String) :
    signature? (signWith signature (part b)) = signature.or (signature? (part b)) := by
  cases signature with
  | none => rfl
  | some s =>
    obtain ⟨members, hpart⟩ := exists_part_eq_object hfits
    rw [signWith_some, hpart, signature?_sign]
    rfl

theorem signature?_part_thinking (t : Thinking) :
    signature? (part (.thinking t)) = if t.signature = "" then none else some t.signature := by
  rw [part]
  by_cases hempty : t.signature = ""
  · rw [if_pos hempty, if_pos (String.isEmpty_iff.2 hempty)]
    rfl
  · rw [if_neg hempty, if_neg (mt String.isEmpty_iff.1 hempty)]
    rfl

theorem get?_text_part_thinking (t : Thinking) :
    (part (.thinking t)).get? "text" = some (.string t.text) := rfl

theorem getElem?_signed {content : List Block} {i : Nat} {b : Block} (hb : content[i]? = some b)
    (signatures : Nat → Option String) :
    (signed signatures (partBehind signatures (content.map part)))[i]?
      = some (signWith (signatures i) (part b)) := by
  obtain ⟨hi, rfl⟩ := List.getElem?_eq_some_iff.1 hb
  have hpart : (partBehind signatures (content.map part))[i]? = some (part content[i]) := by
    rw [partBehind]
    split <;> simp [List.getElem?_append_left, hi]
  rw [signed, List.getElem?_mapIdx, hpart]
  rfl

/-- At each place stands the signature that is put there, or else the seal of the reasoning. -/
theorem bind_signature?_signed {content : List Block} (hfits : ∀ b ∈ content, Fits b)
    {signatures : Nat → Option String} (hplaces : ∀ i, content.length < i → signatures i = none)
    (i : Nat) :
    (signed signatures (partBehind signatures (content.map part)))[i]?.bind signature?
      = (signatures i).or (content[i]?.bind fun b => signature? (part b)) := by
  cases hb : content[i]? with
  | some b =>
    rw [getElem?_signed hb]
    exact signature?_signWith_part (hfits b (List.mem_of_getElem? hb)) (signatures i)
  | none =>
    rw [signed, List.getElem?_mapIdx, partBehind, List.length_map, Option.bind_none, Option.or_none]
    rcases (List.getElem?_eq_none_iff.1 hb).eq_or_lt with rfl | hlt
    · cases hs : signatures content.length with
      | none => simp
      | some s => simpa [hs] using signature?_sign [] s
    · rw [hplaces i hlt]
      split
      · rw [List.getElem?_eq_none (by simpa using Nat.succ_le_of_lt hlt)]
        rfl
      · rw [List.getElem?_eq_none (by simpa using hlt.le)]
        rfl

end ChatWire.Gemini
