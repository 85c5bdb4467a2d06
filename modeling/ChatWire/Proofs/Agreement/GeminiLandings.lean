import ChatWire.Proofs.Agreement.GeminiChunks

/-!
# Where the parts of a stream land

Merging puts the block of a part behind the others or into the last of them. The index at which it
lands (`Gemini.landing`) does not change when more parts come, and what kind of block stands there
is the kind of the part's own (`Gemini.getElem?_landing`): parts of different kinds never land
together, and neither do parts that cannot be merged (`Gemini.landing_lt_of_whole`).
-/

namespace ChatWire.Gemini

/-! ## Merging -/

theorem join?_outline (a b : Block) : join? (outline a) (outline b) = (join? a b).map outline := by
  cases a with
  | text s => cases b <;> rfl
  | thinking t =>
    cases b with
    | thinking more =>
      show join? (.thinking t) (.thinking more) = _
      rw [join?]
      split <;> rfl
    | _ => rfl
  | _ => cases b <;> rfl

theorem addMerged_outline (blocks : List Block) (b : Block) :
    addMerged (blocks.map outline) (outline b) = (addMerged blocks b).map outline := by
  rcases List.eq_nil_or_concat' blocks with rfl | ⟨before, last, rfl⟩
  · rfl
  · rw [List.map_append, List.map_singleton, addMerged_concat, addMerged_concat, join?_outline]
    cases join? last b <;> simp

/-- The outlines of merged blocks are the merged outlines. -/
theorem merged_map_outline (blocks : List Block) :
    merged (blocks.map outline) = (merged blocks).map outline := by
  induction blocks using List.reverseRecOn with
  | nil => rfl
  | append_singleton blocks b ih =>
    rw [List.map_append, List.map_singleton, merged_concat, merged_concat, ih, addMerged_outline]

theorem map_outline_merged_congr {blocks blocks' : List Block}
    (h : blocks.map outline = blocks'.map outline) :
    (merged blocks).map outline = (merged blocks').map outline := by
  rw [← merged_map_outline, h, merged_map_outline]

theorem length_merged_congr {blocks blocks' : List Block}
    (h : blocks.map outline = blocks'.map outline) :
    (merged blocks).length = (merged blocks').length := by
  simpa using congrArg List.length (map_outline_merged_congr h)

/-- Joining two blocks keeps what is asked of a block: only blocks that agree on it are joined. -/
def KeptByJoin (p : Block → Bool) : Prop := ∀ a b c, join? a b = some c → p a = p c ∧ p b = p c

theorem keptByJoin_isThinking : KeptByJoin Block.isThinking := by
  intro a b c h
  cases Joins.of_join? h <;> exact ⟨rfl, rfl⟩

theorem keptByJoin_not_isThinking : KeptByJoin fun b => !b.isThinking := by
  intro a b c h
  cases Joins.of_join? h <;> exact ⟨rfl, rfl⟩

theorem keptByJoin_isToolCall : KeptByJoin Block.isToolCall := by
  intro a b c h
  cases Joins.of_join? h <;> exact ⟨rfl, rfl⟩

theorem keptByJoin_isText : KeptByJoin fun b => b.text?.isSome := by
  intro a b c h
  cases Joins.of_join? h <;> exact ⟨rfl, rfl⟩

/-- A block is put behind the others, or joined with the last of them. -/
inductive Adds (b : Block) : List Block → List Block → Prop
  | behind (blocks : List Block) : Adds b blocks (blocks ++ [b])
  | joins (before : List Block) {last joined : Block} (h : join? last b = some joined) :
      Adds b (before ++ [last]) (before ++ [joined])

theorem adds_addMerged (blocks : List Block) (b : Block) : Adds b blocks (addMerged blocks b) := by
  rcases List.eq_nil_or_concat' blocks with rfl | ⟨before, last, rfl⟩
  · exact .behind []
  · rw [addMerged_concat]
    split
    case h_1 joined hjoined => exact .joins before hjoined
    case h_2 => exact .behind _

variable {b : Block} {blocks blocks' : List Block} {q : Block → Bool}

theorem Adds.kind (h : Adds b blocks blocks') (hq : KeptByJoin q) {i : Nat}
    (hi : i < blocks.length) : blocks'[i]?.map q = blocks[i]?.map q := by
  cases h with
  | behind blocks => rw [List.getElem?_append_left hi]
  | @joins before last joined hjoined =>
    rw [List.length_append, List.length_singleton] at hi
    rcases Nat.lt_succ_iff_lt_or_eq.1 hi with hlt | rfl
    · rw [List.getElem?_append_left hlt, List.getElem?_append_left hlt]
    · simp [(hq _ _ _ hjoined).1]

theorem Adds.last_kind (h : Adds b blocks blocks') (hq : KeptByJoin q) :
    blocks'[blocks'.length - 1]?.map q = some (q b) := by
  cases h with
  | behind blocks => simp
  | joins before hjoined => simp [(hq _ _ _ hjoined).2]

/-- A block of a kind that was not there yet is the first of its kind. -/
theorem Adds.findIdx? (h : Adds b blocks blocks') (hq : KeptByJoin q) :
    blocks'.findIdx? q
      = (blocks.findIdx? q).or (if q b then some (blocks'.length - 1) else none) := by
  cases h with
  | behind blocks =>
    rw [List.findIdx?_append]
    by_cases hb : q b <;> simp [hb]
  | joins before hjoined =>
    obtain ⟨hlast, hb⟩ := hq _ _ _ hjoined
    rw [List.findIdx?_append, List.findIdx?_append, Option.or_assoc]
    simp only [List.findIdx?_singleton, hlast, hb]
    split <;> simp

/-! ## Landings -/

/-- The block that a stream makes of a part: a result of a tool is passed over. -/
def streamed? (part : Json) : Option Block := (block? part).filter fun b => !b.isToolResult

/-- The blocks that a stream makes of the parts. -/
def streamedBlocks (ps : List Json) : List Block := merged (ps.filterMap streamed?)

/-- The index at which the block of a part lands, for a part without block that of the next one. -/
def landing (ps : List Json) (k : Nat) : Nat :=
  (streamedBlocks (ps.take (k + 1))).length - (ps[k]?.bind streamed?).toList.length

variable {ps : List Json} {p : Json} {j k : Nat}

theorem streamedBlocks_concat_none (h : streamed? p = none) (ps : List Json) :
    streamedBlocks (ps ++ [p]) = streamedBlocks ps := by
  simp [streamedBlocks, List.filterMap_append, h]

theorem adds_streamedBlocks (h : streamed? p = some b) (ps : List Json) :
    Adds b (streamedBlocks ps) (streamedBlocks (ps ++ [p])) := by
  have hmore : streamedBlocks (ps ++ [p]) = addMerged (streamedBlocks ps) b := by
    rw [streamedBlocks, List.filterMap_append, List.filterMap_cons_some h, List.filterMap_nil,
      merged_concat, streamedBlocks]
  rw [hmore]
  exact adds_addMerged _ b

/-- What comes behind a part does not change where it lands. -/
theorem landing_append (hk : k < ps.length) (more : List Json) :
    landing (ps ++ more) k = landing ps k := by
  rw [landing, List.take_append_of_le_length (Nat.succ_le_of_lt hk), List.getElem?_append_left hk,
    landing]

theorem landing_concat_length (ps : List Json) (p : Json) :
    landing (ps ++ [p]) ps.length
      = (streamedBlocks (ps ++ [p])).length - (streamed? p).toList.length := by
  rw [landing, List.take_of_length_le (by simp), List.getElem?_concat_length, Option.bind_some]

/-- Where a part lands stands a block of the kind of its own. -/
theorem getElem?_landing (hq : KeptByJoin q) (hp : ps[k]? = some p) (hb : streamed? p = some b) :
    (streamedBlocks ps)[landing ps k]?.map q = some (q b) := by
  -- From the end: a part behind it may make the block grow, but not change its kind.
  induction ps using List.reverseRecOn with
  | nil => cases hp
  | append_singleton ps last ih =>
    obtain ⟨hk, -⟩ := List.getElem?_eq_some_iff.1 hp
    rw [List.length_append, List.length_singleton] at hk
    rcases Nat.lt_succ_iff_lt_or_eq.1 hk with hlt | rfl
    · rw [List.getElem?_append_left hlt] at hp
      have hbefore := ih hp
      rw [landing_append hlt]
      cases hlast : streamed? last with
      | none => rwa [streamedBlocks_concat_none hlast]
      | some b' =>
        obtain ⟨c, hc, -⟩ := Option.map_eq_some_iff.1 hbefore
        rwa [(adds_streamedBlocks hlast ps).kind hq (List.getElem?_eq_some_iff.1 hc).1]
    · obtain rfl : last = p := by simpa using hp
      rw [landing_concat_length, hb]
      exact (adds_streamedBlocks hb ps).last_kind hq

theorem landing_lt_length (hp : ps[k]? = some p) (hb : streamed? p = some b) :
    landing ps k < (streamedBlocks ps).length := by
  obtain ⟨c, hc, -⟩ := Option.map_eq_some_iff.1 (getElem?_landing keptByJoin_isThinking hp hb)
  exact (List.getElem?_eq_some_iff.1 hc).1

/-- A block that cannot be merged lands behind all that came before it. -/
theorem landing_lt_of_whole {p' : Json} {b' : Block} (hj : ps[j]? = some p)
    (hb : streamed? p = some b) (hk : ps[k]? = some p') (hb' : streamed? p' = some b')
    (hwhole : ∀ last, join? last b' = none) (hjk : j < k) : landing ps j < landing ps k := by
  have htake : ps.take (k + 1) = ps.take k ++ [p'] := by
    rw [List.take_add_one, hk]
    rfl
  have hlength : (streamedBlocks (ps.take (k + 1))).length
      = (streamedBlocks (ps.take k)).length + 1 := by
    rw [htake, streamedBlocks, List.filterMap_append, List.filterMap_cons_some hb',
      List.filterMap_nil, merged_concat, addMerged_of_join?_eq_none hwhole]
    simp [streamedBlocks]
  have hbefore : landing ps j < (streamedBlocks (ps.take k)).length := by
    obtain ⟨hlt, -⟩ := List.getElem?_eq_some_iff.1 hk
    have hshorter : landing (ps.take k) j = landing ps j := by
      conv_rhs => rw [← List.take_append_drop k ps]
      rw [landing_append (by simp; omega)]
    rw [← hshorter]
    exact landing_lt_length (by rwa [List.getElem?_take_of_lt hjk]) hb
  rw [landing.eq_1 ps k, hlength, hk, Option.bind_some, hb']
  exact hbefore

end ChatWire.Gemini
