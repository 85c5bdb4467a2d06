import ChatWire.Dialect.Anthropic
import ChatWire.Proofs.Dialect.Basic
import ChatWire.Proofs.Json.Members

/-!
# Groups of blocks in the Anthropic format

While a message is written its blocks form groups, each a block and the cache mark behind it, and
every group is one part of the draft (`Anthropic.Draft.Holds`). A cache mark can be written exactly
where a group is still open (`Anthropic.CanMark`), which tells the messages that can be written
(`Anthropic.exists_encodeMessage_iff`).
-/

namespace ChatWire.Anthropic

open Dialect

/-! ## What can be written -/

/-- Behind these blocks a cache mark has a block to end with: one that is no annotation and has not
got a mark yet. -/
def CanMark (content : List Block) : Prop :=
  ∃ front b back, content = front ++ b :: back ∧ b.isAnnotation = false ∧
    ∀ lifetime, .cacheControl lifetime ∉ back

/-- Whether a block can be written behind others. -/
def Fits (before : List Block) : Block → Prop
  | .cacheControl _ => CanMark before
  | .usage _ => before.filter Block.isUsage = []
  | .attachment a => a.mediaClass ≠ .video ∧ a.mediaClass ≠ .audio
  | _ => True

/-- No standing instructions, no moving pictures or sound, cache counts at most once, and for each
cache mark a block of its own. -/
structure IsWritable (m : Message) : Prop where
  role : m.role ≠ .system
  media : ∀ a, .attachment a ∈ m.content → a.mediaClass ≠ .video ∧ a.mediaClass ≠ .audio
  oneUsage : (m.content.filter Block.isUsage).length ≤ 1
  marks : ∀ before lifetime behind, m.content = before ++ .cacheControl lifetime :: behind →
    CanMark before

/-- The last block may be behind all that a list is cut into, or at the cut itself. -/
theorem concat_eq_append_cons_iff {content front back : List Block} {b c : Block} :
    content ++ [b] = front ++ c :: back ↔
      front = content ∧ c = b ∧ back = [] ∨
        ∃ rest, back = rest ++ [b] ∧ content = front ++ c :: rest := by
  constructor
  · intro h
    rcases List.eq_nil_or_concat back with rfl | ⟨rest, d, rfl⟩
    · obtain ⟨hfront, hlast⟩ := List.append_inj' h rfl
      exact .inl ⟨hfront.symm, (List.singleton_inj.1 hlast).symm, rfl⟩
    · have hcut : content ++ [b] = (front ++ c :: rest) ++ [d] := by simpa using h
      obtain ⟨hcontent, hlast⟩ := List.append_inj' hcut rfl
      obtain rfl := List.singleton_inj.1 hlast
      exact .inr ⟨rest, List.concat_eq_append, hcontent⟩
  · rintro (⟨rfl, rfl, rfl⟩ | ⟨rest, rfl, rfl⟩)
    · rfl
    · simp

theorem canMark_concat_iff {content : List Block} {b : Block} :
    CanMark (content ++ [b]) ↔
      b.isAnnotation = false ∨ (∀ lifetime, b ≠ .cacheControl lifetime) ∧ CanMark content := by
  constructor
  · rintro ⟨front, c, back, h, hc, hback⟩
    rcases concat_eq_append_cons_iff.1 h with ⟨-, rfl, -⟩ | ⟨rest, rfl, rfl⟩
    · exact .inl hc
    · refine .inr ⟨fun lifetime hb => ?_, front, c, rest, rfl, hc, fun lifetime hmem => ?_⟩
      · exact hback lifetime (by simp [hb])
      · exact hback lifetime (List.mem_append_left _ hmem)
  · rintro (hb | ⟨hb, front, c, back, rfl, hc, hback⟩)
    · exact ⟨content, b, [], rfl, hb, by simp⟩
    · refine ⟨front, c, back ++ [b], by simp, hc, fun lifetime hmem => ?_⟩
      rcases List.mem_append.1 hmem with hmem | hmem
      · exact hback lifetime hmem
      · exact hb lifetime (List.mem_singleton.1 hmem).symm

/-- A message can be written exactly if each block can be written behind those before it. -/
theorem isWritable_iff {m : Message} :
    IsWritable m ↔ m.role ≠ .system ∧
      ∀ before b behind, m.content = before ++ b :: behind → Fits before b := by
  constructor
  · rintro ⟨hrole, hmedia, hone, hmarks⟩
    refine ⟨hrole, fun before b behind h => ?_⟩
    cases b with
    | cacheControl lifetime => exact hmarks before lifetime behind h
    | usage u =>
      rw [h, List.filter_append, List.filter_cons_of_pos rfl, List.length_append,
        List.length_cons] at hone
      exact List.eq_nil_of_length_eq_zero (by omega)
    | attachment a => exact hmedia a (by rw [h]; simp)
    | _ => trivial
  · rintro ⟨hrole, hfits⟩
    refine ⟨hrole, fun a ha => ?_, ?_, fun before lifetime behind h => hfits before _ behind h⟩
    · obtain ⟨before, behind, h⟩ := List.append_of_mem ha
      exact hfits before _ behind h
    · -- Of two cache counts the second has the first before it.
      refine Nat.not_lt.1 fun htwo => ?_
      obtain ⟨u, v, more, husage⟩ :
          ∃ u v more, m.content.filter Block.isUsage = u :: v :: more := by
        match hfilter : m.content.filter Block.isUsage with
        | [] | [_] => simp [hfilter] at htwo
        | u :: v :: more => exact ⟨u, v, more, rfl⟩
      obtain ⟨before, rest, hcontent, -, hu, hrest⟩ := List.filter_eq_cons_iff.1 husage
      obtain ⟨between, behind, rfl, -, hv, -⟩ := List.filter_eq_cons_iff.1 hrest
      have hsecond := hfits (before ++ u :: between) v behind (by simp [hcontent])
      cases v with
      | usage v =>
        have hnone := List.filter_eq_nil_iff.1 hsecond u (by simp)
        exact hnone hu
      | _ => cases hv

/-! ## Writing -/

/-- An attachment that can be written. -/
def attachmentPart (a : Attachment) : Json :=
  .object [("source", encodeSource a),
    ("type", .string (if a.mediaClass = .image then "image" else "document"))]

/-- The part of a block. -/
def part : Block → Json
  | .text s => .object [("text", .string s), ("type", .string "text")]
  | .attachment a => attachmentPart a
  | .toolCall c => .object [("id", .string c.id), ("input", c.arguments), ("name", .string c.name),
      ("type", .string "tool_use")]
  | .toolResult r => encodeToolResult r
  | .thinking t => .object [("signature", .string t.signature), ("thinking", .string t.text),
      ("type", .string "thinking")]
  | .redactedThinking data =>
    .object [("data", .string data), ("type", .string "redacted_thinking")]
  | .cacheControl _ | .usage _ => .null

/-- A block with the cache mark behind it. -/
structure Group where
  block : Block
  mark : Option (Option CacheLifetime) := none

namespace Group

/-- The blocks of a group. -/
def blocks (g : Group) : List Block := g.block :: (g.mark.map Block.cacheControl).toList

/-- The part of a group. -/
def part (g : Group) : Json :=
  match g.mark with
  | none => Anthropic.part g.block
  | some lifetime => (Anthropic.part g.block).set "cache_control" (encodeCacheControl lifetime)

/-- The block of a group has content that can be written. -/
def IsWritten (g : Group) : Prop := g.block.isAnnotation = false ∧ Fits [] g.block

end Group

/-- The groups and the cache counts of a draft hold the blocks written so far. -/
structure Draft.Holds (d : Draft) (content : List Block) (groups : List Group) : Prop where
  written : ∀ g ∈ groups, g.IsWritten
  parts : d.parts = groups.map Group.part
  blocks : content.filter (fun b => !b.isUsage) = groups.flatMap Group.blocks
  usage : content.filter Block.isUsage = d.usage.toList.map .usage
  canMark : CanMark content ↔ ∃ front b, groups = front ++ [⟨b, none⟩]

theorem Draft.holds_nil : ({} : Draft).Holds [] [] where
  written := by simp
  parts := rfl
  blocks := rfl
  usage := rfl
  canMark := by
    constructor
    · rintro ⟨front, b, back, h, -⟩
      simp at h
    · rintro ⟨front, b, h⟩
      simp at h

/-- The part of a block is an object, and has no cache mark of its own. -/
theorem exists_part_eq {b : Block} (h : b.isAnnotation = false) :
    (∃ members, part b = .object members) ∧ (part b).get? "cache_control" = none := by
  cases b with
  | toolResult r =>
    refine ⟨⟨_, rfl⟩, ?_⟩
    cases hr : r.isError <;> simp [part, encodeToolResult, Json.ofMembers, Json.get?, hr]
  | cacheControl | usage => cases h
  | _ => exact ⟨⟨_, rfl⟩, rfl⟩

theorem Group.get?_part {g : Group} (h : g.IsWritten) :
    g.part.get? "cache_control" = g.mark.map encodeCacheControl := by
  obtain ⟨⟨members, hpart⟩, hnone⟩ := exists_part_eq h.1
  rw [part]
  cases g.mark with
  | none => exact hnone
  | some lifetime => exact hpart ▸ Json.get?_set_self members _ _

theorem Draft.add_of_content {d : Draft} {before : List Block} {b : Block}
    (hb : b.isAnnotation = false) (hfits : Fits before b) : d.add b = .ok (d.push (part b)) := by
  cases b with
  | attachment a =>
    obtain ⟨hvideo, haudio⟩ := hfits
    have hencode : encodeAttachment a = .ok (attachmentPart a) := by
      unfold encodeAttachment
      split
      case h_1 himage => rw [attachmentPart, if_pos himage]
      case h_2 hdocument => rw [attachmentPart, if_neg (by rw [hdocument]; decide)]
      case h_3 h => exact absurd h hvideo
      case h_4 h => exact absurd h haudio
    rw [add, hencode]
    rfl
  | cacheControl | usage => cases hb
  | _ => rfl

section Steps

variable {d : Draft} {content : List Block} {groups : List Group}

theorem Draft.Holds.push (h : d.Holds content groups) {b : Block} (hb : b.isAnnotation = false)
    (hfits : Fits [] b) : (d.push (part b)).Holds (content ++ [b]) (groups ++ [⟨b, none⟩]) where
  written := by
    intro g hg
    rcases List.mem_append.1 hg with hg | hg
    · exact h.written g hg
    · rw [List.mem_singleton.1 hg]
      exact ⟨hb, hfits⟩
  parts := by
    rw [Draft.push, h.parts, List.map_append]
    rfl
  blocks := by
    have hkept : [b].filter (fun b => !b.isUsage) = [b] := by
      cases b <;> first | rfl | cases hb
    rw [List.filter_append, h.blocks, List.flatMap_append, hkept]
    rfl
  usage := by
    have hpassed : [b].filter Block.isUsage = [] := by
      cases b <;> first | rfl | cases hb
    rw [List.filter_append, hpassed, List.append_nil, h.usage]
    rfl
  canMark := iff_of_true (canMark_concat_iff.2 (.inl hb)) ⟨groups, b, rfl⟩

theorem Draft.Holds.count (h : d.Holds content groups) (hnone : d.usage = none) (u : CacheUsage) :
    ({ d with usage := some u } : Draft).Holds (content ++ [.usage u]) groups where
  written := h.written
  parts := h.parts
  blocks := by
    rw [List.filter_append, h.blocks]
    exact List.append_nil _
  usage := by
    rw [List.filter_append, h.usage, hnone]
    rfl
  canMark := by
    rw [canMark_concat_iff, ← h.canMark]
    simp [Block.isAnnotation]

theorem Draft.Holds.mark {b : Block} (h : d.Holds content (groups ++ [⟨b, none⟩]))
    (lifetime : Option CacheLifetime) :
    ({ d with parts := d.parts.dropLast
        ++ [(part b).set "cache_control" (encodeCacheControl lifetime)] } : Draft).Holds
      (content ++ [.cacheControl lifetime]) (groups ++ [⟨b, some lifetime⟩]) where
  written := by
    intro g hg
    rcases List.mem_append.1 hg with hg | hg
    · exact h.written g (List.mem_append_left _ hg)
    · rw [List.mem_singleton.1 hg]
      exact h.written ⟨b, none⟩ (by simp)
  parts := by
    rw [h.parts, List.map_append, List.map_append]
    simp [Group.part]
  blocks := by
    rw [List.filter_append, h.blocks, List.flatMap_append, List.flatMap_append, List.append_assoc]
    rfl
  usage := by
    rw [List.filter_append, h.usage]
    exact List.append_nil _
  canMark := by
    refine iff_of_false ?_ ?_
    · rw [canMark_concat_iff]
      simp [Block.isAnnotation]
    · rintro ⟨front, c, hgroups⟩
      obtain ⟨-, hlast⟩ := List.append_inj' hgroups rfl
      cases List.singleton_inj.1 hlast

/-- The last part can be given a mark where a group is open. -/
theorem Draft.Holds.getLast?_parts {b : Block} (h : d.Holds content (groups ++ [⟨b, none⟩])) :
    d.parts.getLast? = some (part b) ∧ (part b).get? "cache_control" = none := by
  have hb := (h.written ⟨b, none⟩ (by simp)).1
  refine ⟨?_, (exists_part_eq hb).2⟩
  rw [h.parts, List.map_append]
  exact List.getLast?_concat

/-- A block that can be written is written. -/
theorem Draft.Holds.exists_add (h : d.Holds content groups) {b : Block} (hfits : Fits content b) :
    ∃ d' groups', d.add b = .ok d' ∧ d'.Holds (content ++ [b]) groups' := by
  cases b with
  | cacheControl lifetime =>
    obtain ⟨front, b, rfl⟩ := h.canMark.1 hfits
    obtain ⟨hlast, hplain⟩ := h.getLast?_parts
    refine ⟨_, _, ?_, h.mark lifetime⟩
    rw [add, hlast]
    simp only [hplain]
    rfl
  | usage u =>
    have hnone : d.usage = none := by
      have husage := h.usage
      rw [show content.filter Block.isUsage = [] from hfits] at husage
      simpa using husage.symm
    exact ⟨_, _, by rw [add, hnone]; rfl, h.count hnone u⟩
  | _ => exact ⟨_, _, add_of_content rfl hfits, h.push rfl hfits⟩

/-- No other block is written. -/
theorem Draft.Holds.fits_of_add (h : d.Holds content groups) {b : Block} {d' : Draft}
    (hadd : d.add b = .ok d') : Fits content b := by
  cases b with
  | cacheControl lifetime =>
    rw [add] at hadd
    split at hadd
    case h_1 => cases hadd
    case h_2 last hlast =>
      split at hadd
      case isTrue => cases hadd
      case isFalse hplain =>
        refine h.canMark.2 ?_
        rcases List.eq_nil_or_concat groups with rfl | ⟨front, g, rfl⟩
        · rw [h.parts] at hlast
          cases hlast
        · have hg : g.IsWritten := h.written g (by simp)
          have hpart : g.part = last := by
            rw [h.parts] at hlast
            simpa using hlast
          rw [← hpart, Group.get?_part hg] at hplain
          obtain ⟨b, mark⟩ := g
          cases mark with
          | none => exact ⟨front, b, List.concat_eq_append⟩
          | some lifetime' => exact absurd rfl hplain
  | usage u =>
    rw [add] at hadd
    split at hadd
    case isTrue => cases hadd
    case isFalse hnone =>
      have husage := h.usage
      rw [Option.not_isSome_iff_eq_none.1 hnone] at husage
      exact husage
  | attachment a =>
    rw [add] at hadd
    unfold encodeAttachment at hadd
    split at hadd
    case h_1 hclass => exact ⟨by rw [hclass]; decide, by rw [hclass]; decide⟩
    case h_2 hclass => exact ⟨by rw [hclass]; decide, by rw [hclass]; decide⟩
    case h_3 => cases hadd
    case h_4 => cases hadd
  | _ => trivial

end Steps

theorem Draft.exists_of_add_eq_error {d : Draft} {b : Block} {e : Error} (h : d.add b = .error e) :
    ∃ what, e = .unsupported .anthropic what := by
  cases b with
  | cacheControl lifetime =>
    rw [add] at h
    split at h
    · exact ⟨_, (Except.error.inj h).symm⟩
    · split at h
      · exact ⟨_, (Except.error.inj h).symm⟩
      · cases h
  | usage u =>
    rw [add] at h
    split at h
    · exact ⟨_, (Except.error.inj h).symm⟩
    · cases h
  | attachment a =>
    rw [add] at h
    unfold encodeAttachment at h
    split at h
    · cases h
    · cases h
    · exact ⟨_, (Except.error.inj h).symm⟩
    · exact ⟨_, (Except.error.inj h).symm⟩
  | _ => cases h

/-- Blocks that each can be written behind those before them are written. -/
theorem Draft.Holds.exists_foldlM {d : Draft} {content : List Block} {groups : List Group}
    (h : d.Holds content groups) (rest : List Block)
    (hfits : ∀ before b behind, rest = before ++ b :: behind → Fits (content ++ before) b) :
    ∃ d', rest.foldlM Draft.add d = .ok d' := by
  induction rest generalizing d content groups with
  | nil => exact ⟨d, rfl⟩
  | cons b rest ih =>
    have hb : Fits content b := by simpa using hfits [] b rest rfl
    obtain ⟨next, groups', hadd, hnext⟩ := h.exists_add hb
    have hlater : ∀ before c behind, rest = before ++ c :: behind →
        Fits (content ++ [b] ++ before) c := by
      intro before c behind hsplit
      have hc := hfits (b :: before) c behind (by rw [hsplit]; rfl)
      rwa [List.append_assoc]
    obtain ⟨d', hd'⟩ := ih hnext hlater
    exact ⟨d', foldlM_cons_eq_ok_iff.2 ⟨next, hadd, hd'⟩⟩

/-- Blocks that are written could each be written behind those before them, and are then held. -/
theorem Draft.Holds.of_foldlM {d d' : Draft} {content rest : List Block} {groups : List Group}
    (h : d.Holds content groups) (hd' : rest.foldlM Draft.add d = .ok d') :
    (∀ before b behind, rest = before ++ b :: behind → Fits (content ++ before) b) ∧
      ∃ groups', d'.Holds (content ++ rest) groups' := by
  induction rest generalizing d content groups with
  | nil =>
    obtain rfl := Except.ok.inj hd'
    exact ⟨by simp, groups, by rwa [List.append_nil]⟩
  | cons b rest ih =>
    obtain ⟨next, hadd, hrest⟩ := foldlM_cons_eq_ok_iff.1 hd'
    have hb := h.fits_of_add hadd
    -- What the draft holds then is known from writing the block once more.
    obtain ⟨next', groups', hadd', hnext⟩ := h.exists_add hb
    obtain rfl := Except.ok.inj (hadd'.symm.trans hadd)
    obtain ⟨hlater, hheld⟩ := ih hnext hrest
    rw [List.append_assoc] at hheld
    refine ⟨?_, hheld⟩
    intro before c behind hsplit
    cases before with
    | nil =>
      obtain ⟨rfl, -⟩ := List.cons.inj hsplit
      rwa [List.append_nil]
    | cons b' before =>
      obtain ⟨rfl, hbehind⟩ := List.cons.inj hsplit
      have hc := hlater before c behind hbehind
      rwa [List.append_assoc] at hc

/-- What a message of a role is written as, given the draft. -/
def Draft.written (d : Draft) (role : Role) : Json :=
  Json.ofMembers [some ("content", .array d.parts),
    some ("role", .string (speakerName "assistant" role)),
    Json.member? "usage" (d.usage.map encodeUsage)]

theorem encodeMessage_eq_ok_iff {m : Message} {w : Json} :
    encodeMessage m = .ok w ↔ m.role ≠ .system ∧
      ∃ d, m.content.foldlM Draft.add {} = .ok d ∧ w = d.written m.role := by
  rw [encodeMessage, bind_eq_ok_iff]
  constructor
  · rintro ⟨name, hname, h⟩
    obtain ⟨hrole, rfl⟩ := encodeSpeaker_eq_ok_iff.1 hname
    obtain ⟨d, hd, hpure⟩ := bind_eq_ok_iff.1 h
    exact ⟨hrole, d, hd, (Except.ok.inj hpure).symm⟩
  · rintro ⟨hrole, d, hd, rfl⟩
    exact ⟨_, encodeSpeaker_eq_ok_iff.2 ⟨hrole, rfl⟩, bind_eq_ok_iff.2 ⟨d, hd, rfl⟩⟩

theorem exists_encodeMessage_iff (m : Message) :
    (∃ w, encodeMessage m = .ok w) ↔ IsWritable m := by
  rw [isWritable_iff]
  constructor
  · rintro ⟨w, hw⟩
    obtain ⟨hrole, d, hd, -⟩ := encodeMessage_eq_ok_iff.1 hw
    exact ⟨hrole, (Draft.holds_nil.of_foldlM hd).1⟩
  · rintro ⟨hrole, hfits⟩
    obtain ⟨d, hd⟩ := Draft.holds_nil.exists_foldlM m.content hfits
    exact ⟨_, encodeMessage_eq_ok_iff.2 ⟨hrole, d, hd, rfl⟩⟩

theorem exists_of_encodeMessage_eq_error {m : Message} {e : Error}
    (h : encodeMessage m = .error e) : ∃ what, e = .unsupported .anthropic what := by
  rw [encodeMessage] at h
  rcases bind_eq_error_iff.1 h with hrole | ⟨name, -, h⟩
  · exact exists_of_encodeSpeaker_eq_error hrole
  · rcases bind_eq_error_iff.1 h with hdraft | ⟨d, -, hpure⟩
    · obtain ⟨d, b, -, hfail⟩ := exists_of_foldlM_eq_error hdraft
      exact Draft.exists_of_add_eq_error hfail
    · cases hpure

end ChatWire.Anthropic
