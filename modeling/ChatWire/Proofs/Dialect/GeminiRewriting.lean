import ChatWire.Proofs.Dialect.GeminiFiling
import ChatWire.Proofs.Dialect.GeminiParts

/-!
# Messages in the Gemini format that are read and written again

Reading files the signature of a part that is not reasoning under the number of blocks before it
(`Gemini.contents_of_foldlM`). A part without block so shares its place with the next part that has
one, and of the signatures at one place only the last is written again. Which ones come back is told
exactly, and all of them do if the places are kept apart (`Gemini.rewriting_keeps_signatures`).
-/

namespace ChatWire.Gemini

open Dialect (bind_eq_ok_iff)

/-! ## Places -/

/-- The place of a part: how many parts before it give a block. -/
def place (parts : List Json) (k : Nat) : Nat := ((parts.take k).filterMap block?).length

variable {parts : List Json} {k : Nat} {p : Json}

theorem place_le_length (parts : List Json) (k : Nat) : place parts k ≤ parts.length :=
  (List.length_filterMap_le _ _).trans (List.length_take_le' k parts)

theorem place_le (parts : List Json) (k : Nat) :
    place parts k ≤ (parts.filterMap block?).length := by
  rw [place]
  exact ((List.take_sublist k parts).filterMap block?).length_le

theorem place_concat (h : k ≤ parts.length) (p : Json) :
    place (parts ++ [p]) k = place parts k := by
  rw [place, List.take_append_of_le_length h, place]

/-- The block of a part stands at the part's place. -/
theorem getElem?_place (hp : parts[k]? = some p) {b : Block} (hb : block? p = some b) :
    (parts.filterMap block?)[place parts k]? = some b := by
  have hnext : (parts.take (k + 1)).filterMap block? = (parts.take k).filterMap block? ++ [b] := by
    rw [List.take_add_one, hp, List.filterMap_append]
    simp [hb]
  have hprefix : (parts.take k).filterMap block? ++ [b] <+: parts.filterMap block? := by
    rw [← hnext]
    exact (List.take_prefix (k + 1) parts).filterMap block?
  obtain ⟨rest, hrest⟩ := hprefix
  rw [← hrest, place, List.append_assoc, List.getElem?_append_right le_rfl]
  simp

/-- Every block is that of a part at its place. -/
theorem exists_of_getElem?_filterMap {i : Nat} {b : Block}
    (h : (parts.filterMap block?)[i]? = some b) :
    ∃ k p, parts[k]? = some p ∧ block? p = some b ∧ place parts k = i := by
  induction parts generalizing i with
  | nil => cases h
  | cons first rest ih =>
    cases hfirst : block? first with
    | none =>
      rw [List.filterMap_cons_none hfirst] at h
      obtain ⟨k, p, hp, hb, hplace⟩ := ih h
      refine ⟨k + 1, p, hp, hb, ?_⟩
      rw [place, List.take_succ_cons, List.filterMap_cons_none hfirst]
      exact hplace
    | some b₀ =>
      rw [List.filterMap_cons_some hfirst] at h
      cases i with
      | zero =>
        obtain rfl : b₀ = b := Option.some.inj h
        exact ⟨0, first, rfl, hfirst, rfl⟩
      | succ i =>
        obtain ⟨k, p, hp, hb, hplace⟩ := ih h
        refine ⟨k + 1, p, hp, hb, ?_⟩
        rw [place, List.take_succ_cons, List.filterMap_cons_some hfirst, List.length_cons]
        exact congrArg (· + 1) hplace

/-! ## Reading -/

theorem Contents.add_eq_ok {ids : CallIds} {c c' : Contents} (h : c.add ids p = .ok c') :
    ∃ block, decodePart (ids.ofPlace c.blocks.length) p = .ok block ∧
      c'.blocks = c.blocks ++ block.toList ∧
      c'.signatures
        = c.signatures ++ (looseSignature? p).toList.map (c.blocks.length, ·) := by
  obtain ⟨block, hblock, hpure⟩ := bind_eq_ok_iff.1 h
  obtain rfl := Except.ok.inj hpure
  exact ⟨block, hblock, rfl, rfl⟩

/-- The contents are what the parts have been read to: all can be read, their blocks have the
outlines of the parts' own, and their signatures are filed by place. -/
structure Contents.IsOf (parts : List Json) (c : Contents) : Prop where
  reads : ∀ part ∈ parts, decodePart "" part = .ok (block? part)
  blocks : c.blocks.map outline = (parts.filterMap block?).map outline
  signatures : c.signatures = filed (place parts) parts

theorem Contents.IsOf.length_blocks {c : Contents} (h : c.IsOf parts) :
    c.blocks.length = (parts.filterMap block?).length := by
  simpa using congrArg List.length h.blocks

/-- One more part is read. -/
theorem Contents.IsOf.add {ids : CallIds} {c c' : Contents} (h : c.IsOf parts)
    (hadd : c.add ids p = .ok c') : c'.IsOf (parts ++ [p]) := by
  obtain ⟨block, hblock, hblocks, hsignatures⟩ := Contents.add_eq_ok hadd
  have hown := map_outline_block? hblock
  refine ⟨?_, ?_, ?_⟩
  · intro q hq
    rcases List.mem_append.1 hq with hq | hq
    · exact h.reads q hq
    · rw [List.mem_singleton.1 hq]
      exact decodePart_block? hblock
  · rw [hblocks, List.map_append, h.blocks, List.filterMap_append, List.map_append]
    cases block <;> cases hb : block? p <;> rw [hb] at hown <;> simp_all
  · have hplace : place (parts ++ [p]) parts.length = c.blocks.length := by
      rw [place_concat le_rfl, place, List.take_length, h.length_blocks]
    have hbefore : filed (place (parts ++ [p])) parts = filed (place parts) parts :=
      filed_congr fun k hk => place_concat hk.le p
    rw [hsignatures, h.signatures, filed_concat, hplace, hbefore]

theorem contents_of_foldlM {ids : CallIds} {c : Contents}
    (h : parts.foldlM (Contents.add ids) {} = .ok c) : c.IsOf parts := by
  induction parts using List.reverseRecOn generalizing c with
  | nil =>
    obtain rfl := Except.ok.inj h
    exact ⟨by simp, rfl, rfl⟩
  | append_singleton parts p ih =>
    rw [List.foldlM_append] at h
    obtain ⟨c₀, hbefore, h⟩ := bind_eq_ok_iff.1 h
    obtain ⟨c₁, hadd, hpure⟩ := bind_eq_ok_iff.1 h
    obtain rfl := Except.ok.inj hpure
    exact (ih hbefore).add hadd

/-- What is read of a message that has these parts. -/
theorem exists_of_decodeMessage {ids : CallIds} {w : Json} {m : Message}
    (hparts : decodeParts (w.get "parts") = .ok parts) (h : decodeMessage ids w = .ok m) :
    ∃ c : Contents, c.IsOf parts ∧ m.content = c.blocks ∧ HasFiled m c.signatures := by
  obtain ⟨role, -, h⟩ := bind_eq_ok_iff.1 h
  obtain ⟨parts', hparts', h⟩ := bind_eq_ok_iff.1 h
  obtain rfl : parts = parts' := Except.ok.inj (hparts.symm.trans hparts')
  obtain ⟨c, hcontents, hpure⟩ := bind_eq_ok_iff.1 h
  obtain rfl := Except.ok.inj hpure
  refine ⟨c, contents_of_foldlM hcontents, rfl, ?_⟩
  unfold HasFiled
  dsimp only
  cases signatureValue? c.signatures (signaturePlace? c.blocks) with
  | none => rfl
  | some value => exact Table.find?_insert_self _ _ _

/-! ## Seals -/

/-- The reasoning at the place is sealed with the signature. -/
def IsSeal (parts : List Json) (i : Nat) (signature : String) : Prop :=
  ∃ k p, parts[k]? = some p ∧ place parts k = i ∧ isThought p ∧ (p.get? "text").isSome ∧
    signature? p = some signature ∧ signature ≠ ""

/-- Reasoning with a text stands at its place as it came. -/
theorem Contents.IsOf.getElem?_thinking {c : Contents} (h : c.IsOf parts)
    (hp : parts[k]? = some p) (hthought : isThought p) (htext : (p.get? "text").isSome) :
    ∃ s, p.get? "text" = some (.string s) ∧
      c.blocks[place parts k]? = some (.thinking ⟨s, (signature? p).getD ""⟩) := by
  obtain ⟨s, hsame, hs⟩ :=
    block?_of_isThought (h.reads p (List.mem_of_getElem? hp)) hthought htext
  have hplaced := congrArg (·[place parts k]?) h.blocks
  simp only [List.getElem?_map, getElem?_place hp hs, Option.map_some] at hplaced
  obtain ⟨b, hb, houtline⟩ := Option.map_eq_some_iff.1 hplaced
  exact ⟨s, hsame, by rw [hb, ← eq_of_outline_eq houtline.symm rfl]⟩

/-- The signatures that the blocks have of their own are the seals of the reasoning. -/
theorem Contents.IsOf.signature?_part_iff {c : Contents} (h : c.IsOf parts) {i : Nat} {b : Block}
    (hb : c.blocks[i]? = some b) (hfits : Fits b) (s : String) :
    signature? (part b) = some s ↔ IsSeal parts i s := by
  constructor
  · intro hs
    cases hkind : b.isThinking with
    | false =>
      rw [(exists_part_eq hfits hkind).2] at hs
      cases hs
    | true =>
      cases b with
      | thinking t =>
        rw [signature?_part_thinking] at hs
        split at hs
        case isTrue => cases hs
        case isFalse hne =>
          obtain rfl := Option.some.inj hs
          have hown := congrArg (·[i]?) h.blocks
          simp only [List.getElem?_map, hb, Option.map_some] at hown
          obtain ⟨b', hb', hsame⟩ := Option.map_eq_some_iff.1 hown.symm
          obtain rfl := eq_of_outline_eq hsame.symm rfl
          obtain ⟨k, p, hp, hblock, hplace⟩ := exists_of_getElem?_filterMap hb'
          obtain ⟨hthought, htext, hseal⟩ := (Gives.of_block? hblock).signature_eq
          have hsigned : signature? p = some t.signature := by
            cases hnone : signature? p with
            | none =>
              rw [hnone] at hseal
              exact absurd hseal hne
            | some s' => rw [hseal, hnone, Option.getD_some]
          exact ⟨k, p, hp, hplace, hthought, htext, hsigned, hne⟩
      | _ => cases hkind
  · rintro ⟨k, p, hp, rfl, hthought, htext, hs, hne⟩
    obtain ⟨text, -, hthinking⟩ := h.getElem?_thinking hp hthought htext
    obtain rfl := Option.some.inj (hb.symm.trans hthinking)
    rw [signature?_part_thinking, hs]
    exact if_neg hne

theorem Contents.IsOf.seal_iff {c : Contents} (h : c.IsOf parts) (hfits : ∀ b ∈ c.blocks, Fits b)
    (i : Nat) (s : String) :
    (c.blocks[i]?.bind fun b => signature? (part b)) = some s ↔ IsSeal parts i s := by
  cases hb : c.blocks[i]? with
  | some b => exact h.signature?_part_iff hb (hfits b (List.mem_of_getElem? hb)) s
  | none =>
    constructor
    · intro hs
      cases hs
    · rintro ⟨k, p, hp, rfl, hthought, htext, -⟩
      obtain ⟨text, -, hthinking⟩ := h.getElem?_thinking hp hthought htext
      rw [hb] at hthinking
      cases hthinking

/-! ## Reading and writing -/

/-- No two signatures of parts that are not reasoning have one place, none of them has the place of
reasoning, and reasoning that is sealed has a text. -/
structure KeepsApart (parts : List Json) : Prop where
  apart : IsApart (place parts) parts
  clear : ∀ p ∈ parts.zipIdx, isThought p.1 → (p.1.get? "text").isSome →
    place parts p.2 ∉ (filed (place parts) parts).map Prod.fst
  spoken : ∀ p ∈ parts, isThought p → (signature? p).getD "" ≠ "" → (p.get? "text").isSome

theorem KeepsApart.find?_latest_eq_none (h : KeepsApart parts) (hp : parts[k]? = some p)
    (hthought : isThought p) (htext : (p.get? "text").isSome) :
    (latest (place parts) parts).find? (place parts k) = none := by
  refine Table.find?_ofList_eq_none fun e he hkey => ?_
  exact h.clear (p, k) (List.mk_mem_zipIdx_iff_getElem?.2 hp) hthought htext
    (List.mem_map.2 ⟨e, he, hkey⟩)

/-- The parts of a message that is read and written again. -/
theorem exists_of_rewriting {ids : CallIds} {w w' : Json} {m : Message}
    (hparts : decodeParts (w.get "parts") = .ok parts) (hsize : parts.length < UInt64.size)
    (hm : decodeMessage ids w = .ok m) (hw' : encodeMessage m = .ok w') :
    ∃ c : Contents, c.IsOf parts ∧ (∀ b ∈ c.blocks, Fits b) ∧
      (∀ i, c.blocks.length < i → (latest (place parts) parts).find? i = none) ∧
      decodeParts (w'.get "parts") = .ok (signed (latest (place parts) parts).find?
        (partBehind (latest (place parts) parts).find? (c.blocks.map part))) := by
  obtain ⟨c, hc, hcontent, hfiled⟩ := exists_of_decodeMessage hparts hm
  obtain ⟨hwritable, rfl⟩ := encodeMessage_eq_ok_iff.1 hw'
  obtain ⟨-, hfits⟩ := isWritable_iff.1 hwritable
  rw [hcontent] at hfits
  refine ⟨c, hc, hfits, fun i hi => ?_, ?_⟩
  · refine find?_latest_eq_none fun k p s _ _ hk => ?_
    have hle := hc.length_blocks ▸ place_le parts k
    omega
  · have hplaces : ∀ e ∈ c.signatures, e.1 ≤ c.blocks.length ∧ e.1 < UInt64.size := by
      rintro ⟨i, s⟩ he
      rw [hc.signatures] at he
      obtain ⟨k, p, -, -, rfl⟩ := mem_filed.1 he
      exact ⟨hc.length_blocks ▸ place_le parts k, (place_le_length parts k).trans_lt hsize⟩
    have hwrites := signParts_of_hasFiled hfiled (List.length_map part)
      (by simpa [hcontent] using hplaces)
    rw [hcontent, hc.signatures] at hwrites
    exact congrArg Except.ok (hcontent ▸ hwrites)

/-- Of a message that is read and written again, each place has the signature that was filed there
last, or else the seal of its reasoning. If the places are kept apart, then every signature comes
back, and reasoning comes back with its own. -/
theorem rewriting_keeps_signatures {ids : CallIds} {w w' : Json} {m : Message} {ps : List Json}
    (hps : decodeParts (w.get "parts") = .ok ps) (hsize : ps.length < UInt64.size)
    (hm : decodeMessage ids w = .ok m) (hw' : encodeMessage m = .ok w') :
    ∃ ps', decodeParts (w'.get "parts") = .ok ps' ∧
      (∀ i s, ps'[i]?.bind signature? = some s ↔ (latest (place ps) ps).find? i = some s ∨
        (latest (place ps) ps).find? i = none ∧ IsSeal ps i s) ∧
      (KeepsApart ps →
        (∀ p ∈ ps, ∀ s, signature? p = some s → s ≠ "" → ∃ p' ∈ ps', signature? p' = some s) ∧
        ∀ k p, ps[k]? = some p → isThought p → (p.get? "text").isSome →
          ∃ p', ps'[place ps k]? = some p' ∧ isThought p' ∧ p'.get? "text" = p.get? "text" ∧
            signature? p' = (signature? p).filter (· ≠ "")) := by
  obtain ⟨c, hc, hfits, hbeyond, hps'⟩ := exists_of_rewriting hps hsize hm hw'
  have hsignatures : ∀ i s, (signed (latest (place ps) ps).find? (partBehind
      (latest (place ps) ps).find? (c.blocks.map part)))[i]?.bind signature? = some s ↔
        (latest (place ps) ps).find? i = some s ∨
          (latest (place ps) ps).find? i = none ∧ IsSeal ps i s := by
    intro i s
    rw [bind_signature?_signed hfits hbeyond, Option.or_eq_some_iff, hc.seal_iff hfits]
  refine ⟨_, hps', hsignatures, fun hapart => ⟨?_, ?_⟩⟩
  · intro p hp s hs hne
    obtain ⟨k, hk⟩ := List.mem_iff_getElem?.1 hp
    have hbears := (hsignatures (place ps k) s).2 ?_
    · obtain ⟨p', hp', hs'⟩ := Option.bind_eq_some_iff.1 hbears
      exact ⟨p', List.mem_of_getElem? hp', hs'⟩
    · by_cases hthought : isThought p
      · have htext := hapart.spoken p hp hthought (by simpa [hs] using hne)
        exact .inr ⟨hapart.find?_latest_eq_none hk hthought htext, k, p, hk, rfl, hthought, htext,
          hs, hne⟩
      · exact .inl (find?_latest hapart.apart hk ((if_neg hthought).trans hs))
  · intro k p hk hthought htext
    have hnone := hapart.find?_latest_eq_none hk hthought htext
    obtain ⟨text, hsame, hthinking⟩ := hc.getElem?_thinking hk hthought htext
    refine ⟨_, getElem?_signed hthinking _, ?_, ?_, ?_⟩
    · exact isThought_signWith (hfits _ (List.mem_of_getElem? hthinking)) _
    · rw [get?_signWith _ _ (by decide), hsame]
      exact get?_text_part_thinking _
    · rw [hnone, signWith_none, id, signature?_part_thinking]
      cases signature? p with
      | none => rfl
      | some own => by_cases hempty : own = "" <;> simp [Option.filter, hempty]

/-- Reasoning and a call, both signed, then a text, then a signature by itself. -/
def searchParts : List Json := [
  .object [("text", .string "Look it up"), ("thought", .bool true),
    ("thoughtSignature", .string "s0")],
  .object [("functionCall", .object [("id", .string "c1"), ("name", .string "search")]),
    ("thoughtSignature", .string "s1")],
  .object [("text", .string "Searching")],
  .object [("thoughtSignature", .string "s2")]]

/-- What is read of them. -/
def searchContents : Message where
  role := .assistant
  content := [.thinking ⟨"Look it up", "s0"⟩, .toolCall ⟨"c1", "search", .emptyObject⟩,
    .text "Searching"]
  metadata := Table.empty.insert signatureKey (byPlace [(1, "s1"), (3, "s2")]).toJson

theorem rewriting_keeps_signatures_searchParts :
    KeepsApart searchParts ∧
      decodeMessage .numbered (.object [("parts", .array searchParts)]) = .ok searchContents ∧
      ∃ w' ps', encodeMessage searchContents = .ok w' ∧ decodeParts (w'.get "parts") = .ok ps' ∧
        ∀ s ∈ ["s0", "s1", "s2"], ∃ p' ∈ ps', signature? p' = some s := by
  have hapart : KeepsApart searchParts := ⟨by decide +kernel, by decide +kernel, by decide +kernel⟩
  have hm : decodeMessage .numbered (.object [("parts", .array searchParts)]) = .ok searchContents :=
    rfl
  have hw' : encodeMessage searchContents = .ok (written searchContents) := rfl
  obtain ⟨ps', hps', -, hkept⟩ := rewriting_keeps_signatures rfl (by decide) hm hw'
  refine ⟨hapart, hm, _, ps', hw', hps', fun s hs => ?_⟩
  obtain ⟨p, hp, hsigned, hne⟩ : ∃ p ∈ searchParts, signature? p = some s ∧ s ≠ "" := by
    revert s
    decide +kernel
  exact (hkept hapart).1 p hp s hsigned hne

/-- A signature by itself before signed reasoning, and another one before a signed text. -/
def crowdedParts : List Json := [
  .object [("thoughtSignature", .string "a")],
  .object [("text", .string "Hm."), ("thought", .bool true), ("thoughtSignature", .string "b")],
  .object [("thoughtSignature", .string "c")],
  .object [("text", .string "Hi."), ("thoughtSignature", .string "d")]]

/-- Where signatures share a place only one of them comes back, and that may put one on reasoning
that is not its own. -/
theorem crowdedParts_lose_signatures : ∃ m w' ps',
    decodeMessage .numbered (.object [("parts", .array crowdedParts)]) = .ok m ∧
    encodeMessage m = .ok w' ∧ decodeParts (w'.get "parts") = .ok ps' ∧
    crowdedParts.filterMap signature? = ["a", "b", "c", "d"] ∧
    ps' = [.object [("text", .string "Hm."), ("thought", .bool true),
        ("thought_signature", .string "a")],
      .object [("text", .string "Hi."), ("thought_signature", .string "d")]] ∧
    ps'.filterMap signature? = ["a", "d"] := by
  have hm : decodeMessage .numbered (.object [("parts", .array crowdedParts)]) = .ok {
      role := .assistant
      content := [.thinking ⟨"Hm.", "b"⟩, .text "Hi."]
      metadata := Table.empty.insert signatureKey (byPlace [(0, "a"), (1, "d")]).toJson } := by
    rfl
  exact ⟨_, _, _, hm, rfl, rfl, by decide +kernel, by decide +kernel, by decide +kernel⟩

end ChatWire.Gemini
