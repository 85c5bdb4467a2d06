import ChatWire.Proofs.Agreement.Blocks
import ChatWire.Proofs.Stream.Success

/-!
# What chunks in the chat-completions format say together

The pieces of a text and of tool calls come scattered over the chunks of a stream. What they say
together is told without a state (`OpenAI.gather`): the texts joined, and the pieces of each
position joined, the positions in the order in which they first occur. A translation that takes the
chunks one by one has open blocks that hold just this (`OpenAI.StreamState.Tracks`), and the reply
is made of them (`OpenAI.readReply_of_chunks`).
-/

namespace ChatWire.OpenAI

open Transcript (stepsAt stepsAt_append stepsAt_stops)

/-! ## What one chunk says -/

/-- The first choice of a chunk, null where there is none. -/
def firstChoice (chunk : Json) : Json := (chunk.get "choices").first?.getD .null

/-- What the first choice grows by. -/
def delta (chunk : Json) : Json := (firstChoice chunk).get "delta"

/-- The pieces of tool calls in a chunk. -/
def pieces (chunk : Json) : List Json := ((delta chunk).get "tool_calls").elements?.getD []

/-- The position of the tool call that a piece belongs to. -/
def position? (piece : Json) : Option Nat := (piece.get "index").count?.map UInt64.toNat

/-- The position at which a piece is taken: a piece that does not say its own is taken at zero. -/
def place (piece : Json) : Nat := (piece.countOrZero "index").toNat

theorem place_of_position? {piece : Json} {p : Nat} (h : position? piece = some p) :
    place piece = p := by
  obtain ⟨n, hn, rfl⟩ := Option.map_eq_some_iff.1 h
  rw [place, Json.countOrZero, hn]
  rfl

/-- Whether a chunk has a word for why the message ends. -/
def hasFinish (chunk : Json) : Bool := ((firstChoice chunk).get "finish_reason").text?.isSome

/-! ## What pieces of tool calls say together -/

/-- The positions in the order in which they first occur. -/
def positions (ps : List Json) : List Nat := (ps.filterMap position?).eraseDups

/-- The first piece of a position. -/
def firstAt (ps : List Json) (p : Nat) : Json := (ps.find? (position? · = some p)).getD .null

/-- The text of the arguments in the pieces of a position. -/
def argumentsAt (ps : List Json) (p : Nat) : String :=
  String.join ((ps.filter (position? · = some p)).map fun piece =>
    (piece.get "function").textOrEmpty "arguments")

/-- The tool call of a position. -/
def callAt (ps : List Json) (p : Nat) : OpenBlock :=
  .toolCall ((firstAt ps p).textOrEmpty "id") (((firstAt ps p).get "function").textOrEmpty "name")
    (argumentsAt ps p)

section Positions

variable {ps : List Json} {piece : Json} {p : Nat}

/-- One more element, if it has not occurred. -/
theorem eraseDups_concat {α : Type} [BEq α] [LawfulBEq α] [DecidableEq α] (xs : List α) (x : α) :
    (xs ++ [x]).eraseDups = if x ∈ xs then xs.eraseDups else xs.eraseDups ++ [x] := by
  rw [List.eraseDups_append]
  by_cases hx : x ∈ xs
  · have hnone : [x].removeAll xs = [] :=
      List.filter_cons_of_neg (by rw [List.elem_eq_true_of_mem hx]; decide)
    rw [if_pos hx, hnone]
    exact List.append_nil _
  · have hone : [x].removeAll xs = [x] :=
      List.filter_cons_of_pos (by rw [List.elem_eq_mem, decide_eq_false hx]; rfl)
    rw [if_neg hx, hone]
    rfl

theorem positions_concat (h : position? piece = some p) :
    positions (ps ++ [piece])
      = if p ∈ positions ps then positions ps else positions ps ++ [p] := by
  have hlast : [piece].filterMap position? = [p] := by simp [h]
  simp only [positions, List.filterMap_append, hlast, eraseDups_concat, List.mem_eraseDups]

theorem nodup_positions (h : ∀ piece ∈ ps, (position? piece).isSome) : (positions ps).Nodup := by
  induction ps using List.reverseRecOn with
  | nil => exact List.nodup_nil
  | append_singleton ps piece ih =>
    obtain ⟨p, hp⟩ := Option.isSome_iff_exists.1 (h piece (by simp))
    have hps := ih fun x hx => h x (List.mem_append_left _ hx)
    rw [positions_concat hp]
    split
    case isTrue => exact hps
    case isFalse hnew =>
      refine List.nodup_append.2 ⟨hps, List.nodup_singleton p, fun x hx y hy => ?_⟩
      rintro rfl
      exact hnew (List.mem_singleton.1 hy ▸ hx)

theorem mem_positions_iff : p ∈ positions ps ↔ ∃ piece ∈ ps, position? piece = some p := by
  rw [positions, List.mem_eraseDups, List.mem_filterMap]

theorem argumentsAt_concat :
    argumentsAt (ps ++ [piece]) p = argumentsAt ps p ++
      if position? piece = some p then (piece.get "function").textOrEmpty "arguments" else "" := by
  rw [argumentsAt, List.filter_append, List.map_append, String.join_append]
  by_cases hp : position? piece = some p <;> simp [argumentsAt, hp]

theorem firstAt_of_mem (h : p ∈ positions ps) (more : List Json) :
    firstAt (ps ++ more) p = firstAt ps p := by
  have hsome : (ps.find? (position? · = some p)).isSome := by
    simpa [List.find?_isSome] using mem_positions_iff.1 h
  rw [firstAt, List.find?_append, Option.or_of_isSome hsome, firstAt]

theorem firstAt_of_notMem (h : p ∉ positions ps) (hpiece : position? piece = some p)
    (more : List Json) : firstAt (ps ++ piece :: more) p = piece := by
  have hnone : ps.find? (position? · = some p) = none := by
    refine List.find?_eq_none.2 fun x hx hxp => ?_
    exact h (mem_positions_iff.2 ⟨x, hx, by simpa using hxp⟩)
  rw [firstAt, List.find?_append, hnone, Option.none_or, List.find?_cons_of_pos (by simp [hpiece]),
    Option.getD_some]

theorem argumentsAt_of_notMem (h : p ∉ positions ps) : argumentsAt ps p = "" := by
  have hnone : ps.filter (position? · = some p) = [] := by
    refine List.filter_eq_nil_iff.2 fun x hx hxp => ?_
    exact h (mem_positions_iff.2 ⟨x, hx, by simpa using hxp⟩)
  rw [argumentsAt, hnone, List.map_nil]
  rfl

/-- A piece of another position does not change a tool call. -/
theorem callAt_concat_of_ne (h : p ∈ positions ps) (hne : position? piece ≠ some p) :
    callAt (ps ++ [piece]) p = callAt ps p := by
  rw [callAt, callAt, firstAt_of_mem h, argumentsAt_concat, if_neg hne, String.append_empty]

end Positions

/-! ## What chunks say together -/

/-- What has been said of a message. -/
structure Gathered where
  /-- The text. -/
  text : String := ""
  /-- The refusal. -/
  refusal : String := ""
  /-- The pieces of tool calls. -/
  pieces : List Json := []
  /-- The token counts. -/
  usage : TokenUsage := {}
  /-- Whether there is a word for why the message ends. -/
  ended : Bool := false

/-- What chunks say together; of several token counts the last. -/
def gather (chunks : List Json) : Gathered where
  text := String.join (chunks.map fun chunk => (delta chunk).textOrEmpty "content")
  refusal := String.join (chunks.map fun chunk => (delta chunk).textOrEmpty "refusal")
  pieces := chunks.flatMap OpenAI.pieces
  usage := ((chunks.filterMap (·.present? "usage")).getLast?.map decodeUsage).getD {}
  ended := chunks.any hasFinish

/-- The blocks as far as they have come. -/
def Gathered.blocks (g : Gathered) : List OpenBlock :=
  (if g.text = "" then [] else [.text g.text]) ++ (positions g.pieces).map (callAt g.pieces)

/-- The index of the first tool call. -/
def Gathered.firstCall (g : Gathered) : Nat := if g.text = "" then 0 else 1

/-- The index of a tool call. -/
def Gathered.callIndex? (g : Gathered) (p : Nat) : Option Nat :=
  if p ∈ positions g.pieces then some (g.firstCall + (positions g.pieces).idxOf p) else none

theorem gather_concat (chunks : List Json) (chunk : Json) :
    gather (chunks ++ [chunk]) = {
      text := (gather chunks).text ++ (delta chunk).textOrEmpty "content"
      refusal := (gather chunks).refusal ++ (delta chunk).textOrEmpty "refusal"
      pieces := (gather chunks).pieces ++ OpenAI.pieces chunk
      usage := ((chunk.present? "usage").map decodeUsage).getD (gather chunks).usage
      ended := (gather chunks).ended || hasFinish chunk } := by
  have husage : ((chunks ++ [chunk]).filterMap (·.present? "usage")).getLast?
      = (chunk.present? "usage").or ((chunks.filterMap (·.present? "usage")).getLast?) := by
    cases h : chunk.present? "usage" <;> simp [h]
  rw [gather, husage]
  simp only [gather, List.map_append, List.map_cons, List.map_nil, String.join_append,
    List.flatMap_append, List.any_append, List.any_cons, List.any_nil, Bool.or_false,
    List.flatMap_cons, List.flatMap_nil, List.append_nil]
  cases chunk.present? "usage" <;> simp

theorem text_gather_append (chunks more : List Json) :
    (gather (chunks ++ more)).text = (gather chunks).text ++ (gather more).text := by
  simp only [gather, List.map_append, String.join_append]

theorem pieces_gather_append (chunks more : List Json) :
    (gather (chunks ++ more)).pieces = (gather chunks).pieces ++ (gather more).pieces :=
  List.flatMap_append

/-- The chunks of a stream that tells a message: no errors, every piece of a tool call in its
place, text first if there is any, and a word for why the message ends. -/
structure IsStreamed (chunks : List Json) : Prop where
  errors : ∀ chunk ∈ chunks, chunk.present? "error" = none
  placed : ∀ piece ∈ (gather chunks).pieces, (position? piece).isSome
  /-- The first piece of a tool call has an id and a name. -/
  named : ∀ p ∈ positions (gather chunks).pieces,
    ((firstAt (gather chunks).pieces p).get "id").text?.isSome ∧
    (((firstAt (gather chunks).pieces p).get "function").get "name").text?.isSome
  arguments : ∀ p ∈ positions (gather chunks).pieces,
    argumentsAt (gather chunks).pieces p = "" ∨
    (Json.read? (argumentsAt (gather chunks).pieces p)).isSome
  /-- With a piece of a tool call there is text, in its chunk or before, or there is none at all. -/
  textFirst : ∀ before chunk after, chunks = before ++ chunk :: after → pieces chunk ≠ [] →
    (gather chunks).text = "" ∨ (gather (before ++ [chunk])).text ≠ ""
  ended : (gather chunks).ended = true

namespace IsStreamed

variable {before after : List Json} {chunk : Json}

/-- Text that comes behind a piece of a tool call is not the first. -/
theorem first_text (h : IsStreamed (before ++ chunk :: after)) (htext : (gather before).text = "") :
    (delta chunk).textOrEmpty "content" = "" ∨ (gather before).pieces = [] := by
  by_contra hnot
  obtain ⟨hmore, hpieces⟩ := not_or.1 hnot
  obtain ⟨piece, hpiece⟩ := List.exists_mem_of_ne_nil _ hpieces
  obtain ⟨first, hfirst, hmem⟩ := List.mem_flatMap.1 hpiece
  obtain ⟨early, late, rfl⟩ := List.append_of_mem hfirst
  have hsplit : (early ++ first :: late) ++ chunk :: after
      = early ++ first :: (late ++ chunk :: after) := by
    rw [List.append_assoc]
    rfl
  have hearly : early ++ first :: late = early ++ [first] ++ late := by
    rw [List.append_assoc]
    rfl
  rcases h.textFirst early first _ hsplit (List.ne_nil_of_mem hmem) with hnone | hsome
  · rw [text_gather_append, htext, String.empty_append, ← List.singleton_append,
      text_gather_append, String.append_eq_empty_iff] at hnone
    refine hmore ?_
    simpa [gather] using hnone.1
  · rw [hearly, text_gather_append, String.append_eq_empty_iff] at htext
    exact hsome htext.1

theorem placed_before (h : IsStreamed (before ++ chunk :: after)) :
    ∀ piece ∈ (gather before).pieces ++ pieces chunk, (position? piece).isSome := by
  intro piece hpiece
  refine h.placed piece ?_
  rw [pieces_gather_append, List.mem_append]
  refine (List.mem_append.1 hpiece).imp_right fun hmem => ?_
  exact List.mem_flatMap.2 ⟨chunk, List.mem_cons_self, hmem⟩

/-- A piece of a position that has not begun has an id. -/
theorem id_of_first (h : IsStreamed (before ++ chunk :: after)) {early late : List Json}
    {piece : Json} (hpieces : pieces chunk = early ++ piece :: late) {p : Nat}
    (hpiece : position? piece = some p)
    (hp : p ∉ positions ((gather before).pieces ++ early)) : (piece.get "id").text?.isSome := by
  have hall : (gather (before ++ chunk :: after)).pieces
      = ((gather before).pieces ++ early) ++ piece :: (late ++ (gather after).pieces) := by
    have hchunk : (gather (chunk :: after)).pieces = pieces chunk ++ (gather after).pieces :=
      List.flatMap_cons
    rw [pieces_gather_append, hchunk, hpieces]
    simp only [List.append_assoc, List.cons_append]
  have hmem : p ∈ positions (gather (before ++ chunk :: after)).pieces := by
    rw [hall]
    exact mem_positions_iff.2 ⟨piece, by simp, hpiece⟩
  have hnamed := (h.named p hmem).1
  rwa [hall, firstAt_of_notMem hp hpiece] at hnamed

end IsStreamed

/-! ### How the blocks grow -/

namespace Gathered

variable {g : Gathered} {piece : Json} {p : Nat}

/-- More text for a block that holds text. -/
theorem blocks_text (h : g.text ≠ "") (more : String) :
    { g with text := g.text ++ more }.blocks = g.blocks.set 0 (.text (g.text ++ more)) := by
  have hmore : g.text ++ more ≠ "" := by simp [h]
  simp only [blocks, if_neg h, if_neg hmore]
  rfl

/-- The first text, when no tool call has begun. -/
theorem blocks_first_text (h : g.text = "") (hpieces : g.pieces = []) {text : String}
    (htext : text ≠ "") : { g with text := g.text ++ text }.blocks = g.blocks ++ [.text text] := by
  have hmore : g.text ++ text ≠ "" := by simp [h, htext]
  have hnone : (positions g.pieces).map (callAt g.pieces) = [] := by rw [hpieces]; rfl
  rw [blocks, blocks, if_pos h, if_neg hmore, hnone, h, String.empty_append]
  rfl

theorem length_text (g : Gathered) :
    (if g.text = "" then [] else [OpenBlock.text g.text]).length = g.firstCall := by
  unfold firstCall
  split <;> rfl

theorem length_blocks (g : Gathered) :
    g.blocks.length = g.firstCall + (positions g.pieces).length := by
  rw [blocks, List.length_append, g.length_text, List.length_map]

/-- What the index of a tool call leads to. -/
theorem getElem?_of_callIndex? {i : Nat} (h : g.callIndex? p = some i) :
    g.blocks[i]? = some (callAt g.pieces p) := by
  unfold callIndex? at h
  split at h
  case isFalse => cases h
  case isTrue hp =>
    obtain rfl := Option.some.inj h
    have hlt := List.idxOf_lt_length_iff.2 hp
    have hbase := g.length_text
    rw [blocks, List.getElem?_append_right (by omega), hbase, Nat.add_sub_cancel_left,
      List.getElem?_map, List.getElem?_eq_getElem hlt, List.getElem_idxOf]
    rfl

/-- The tool call of the place at which its position stands is the only one that changes. -/
theorem map_set_idxOf {β : Type} {f f' : Nat → β} {ps : List Nat} (hnodup : ps.Nodup) (hp : p ∈ ps)
    (h : ∀ q ∈ ps, q ≠ p → f' q = f q) :
    (ps.map f).set (ps.idxOf p) (f' p) = ps.map f' := by
  induction ps with
  | nil => cases hp
  | cons q rest ih =>
    obtain ⟨hq, hrest⟩ := List.nodup_cons.1 hnodup
    by_cases hqp : q = p
    · subst hqp
      have hsame : rest.map f = rest.map f' := List.map_congr_left fun r hr =>
        (h r (List.mem_cons_of_mem q hr) fun hrq => hq (hrq ▸ hr)).symm
      rw [List.idxOf_cons_self, List.map_cons, List.set_cons_zero, hsame, List.map_cons]
    · have hmem : p ∈ rest := (List.mem_cons.1 hp).resolve_left (Ne.symm hqp)
      rw [List.idxOf_cons_ne rest hqp, List.map_cons, List.set_cons_succ,
        ih hrest hmem fun r hr => h r (List.mem_cons_of_mem q hr), List.map_cons,
        h q List.mem_cons_self hqp]

/-- One more piece of a tool call that has begun. -/
theorem blocks_piece (hg : ∀ piece ∈ g.pieces, (position? piece).isSome)
    (hpiece : position? piece = some p) (hp : p ∈ positions g.pieces) :
    { g with pieces := g.pieces ++ [piece] }.blocks
      = g.blocks.set (g.firstCall + (positions g.pieces).idxOf p)
          (callAt (g.pieces ++ [piece]) p) := by
  have hbase := g.length_text
  have hcalls : ((positions g.pieces).map (callAt g.pieces)).set
        ((positions g.pieces).idxOf p) (callAt (g.pieces ++ [piece]) p)
      = (positions g.pieces).map (callAt (g.pieces ++ [piece])) := by
    refine map_set_idxOf (nodup_positions hg) hp fun q hq hqp => callAt_concat_of_ne hq ?_
    rw [hpiece]
    exact fun h => hqp (Option.some.inj h).symm
  rw [blocks, blocks, positions_concat hpiece, if_pos hp, List.set_append_right _ _ (by omega),
    hbase, Nat.add_sub_cancel_left, hcalls]

/-- The first piece of a tool call. -/
theorem blocks_first_piece (hpiece : position? piece = some p) (hp : p ∉ positions g.pieces) :
    { g with pieces := g.pieces ++ [piece] }.blocks
      = g.blocks ++ [.toolCall (piece.textOrEmpty "id")
          ((piece.get "function").textOrEmpty "name")
          ((piece.get "function").textOrEmpty "arguments")] := by
  have hcall : callAt (g.pieces ++ [piece]) p = .toolCall (piece.textOrEmpty "id")
      ((piece.get "function").textOrEmpty "name")
      ((piece.get "function").textOrEmpty "arguments") := by
    rw [callAt, firstAt_of_notMem hp hpiece, argumentsAt_concat, argumentsAt_of_notMem hp,
      if_pos hpiece, String.empty_append]
  have hcalls : (positions g.pieces).map (callAt (g.pieces ++ [piece]))
      = (positions g.pieces).map (callAt g.pieces) := by
    refine List.map_congr_left fun q hq => callAt_concat_of_ne hq ?_
    rw [hpiece]
    exact fun h => hp (Option.some.inj h ▸ hq)
  rw [blocks, positions_concat hpiece, if_neg hp, List.map_append, hcalls, ← List.append_assoc,
    List.map_singleton, hcall, blocks]

/-- A position that has begun keeps its index. -/
theorem callIndex?_concat (hpiece : position? piece = some p) (q : Nat) :
    { g with pieces := g.pieces ++ [piece] }.callIndex? q
      = if q = p ∧ p ∉ positions g.pieces then some g.blocks.length else g.callIndex? q := by
  have hfirst : { g with pieces := g.pieces ++ [piece] }.firstCall = g.firstCall := rfl
  rw [callIndex?, callIndex?, hfirst]
  by_cases hp : p ∈ positions g.pieces
  · have hseen : ¬ (q = p ∧ p ∉ positions g.pieces) := fun h => h.2 hp
    rw [if_neg hseen, positions_concat hpiece, if_pos hp]
  · rw [positions_concat hpiece, if_neg hp, List.idxOf_append]
    by_cases hq : q = p
    · subst hq
      have hlast : q ∈ positions g.pieces ++ [q] := by simp
      rw [if_pos hlast, if_neg hp, if_pos ⟨rfl, hp⟩, g.length_blocks, List.idxOf_cons_self,
        Nat.zero_add]
    · have hmem : q ∈ positions g.pieces ++ [p] ↔ q ∈ positions g.pieces := by simp [hq]
      have hother : ¬ (q = p ∧ p ∉ positions g.pieces) := fun h => hq h.1
      rw [if_neg hother]
      by_cases hold : q ∈ positions g.pieces
      · rw [if_pos (hmem.2 hold), if_pos hold, if_pos hold]
      · rw [if_neg (mt hmem.1 hold), if_neg hold]

end Gathered

/-! ## The open blocks of an envelope -/

/-- All blocks are open, and they have come as far as the given ones. -/
structure Holds (e : Envelope) (events : List Event) (blocks : List OpenBlock) : Prop where
  ledger : ∃ history, e.Ledger .openai events history ∧ ∀ i block, blocks[i]? = some block →
    ∃ o fs, history i = .opened o fs ∧ o.grown fs = block
  next : e.next = blocks.length

namespace Holds

variable {e : Envelope} {events : List Event} {blocks : List OpenBlock}

theorem envelope (h : Holds e events blocks) : e.Holds .openai events blocks := by
  obtain ⟨⟨history, hledger, hblocks⟩, hnext⟩ := h
  refine ⟨⟨history, hledger, fun i => ?_⟩, hnext⟩
  cases hi : blocks[i]? with
  | none =>
    rw [hledger.fresh i (hnext ▸ List.getElem?_eq_none_iff.1 hi)]
    rfl
  | some block =>
    obtain ⟨o, fs, hopened, rfl⟩ := hblocks i block hi
    rw [hopened]
    rfl

theorem mem_opened (h : Holds e events blocks) {i : Nat} (hi : i < blocks.length) :
    i ∈ e.opened := by
  obtain ⟨⟨history, hledger, hblocks⟩, -⟩ := h
  obtain ⟨o, fs, hopened, -⟩ := hblocks i blocks[i] (List.getElem?_eq_getElem hi)
  rw [← hledger.opened, hopened]
  trivial

/-- Blocks of an envelope that are all open. -/
theorem of_envelope (h : e.Holds .openai events blocks)
    (hopen : ∀ i < blocks.length, i ∈ e.opened) : Holds e events blocks := by
  refine ⟨?_, h.next⟩
  obtain ⟨⟨history, hledger, hblocks⟩, -⟩ := h
  refine ⟨history, hledger, fun i block hi => ?_⟩
  have hmem := hopen i (List.getElem?_eq_some_iff.1 hi).1
  rw [← hledger.opened] at hmem
  have htrace := hblocks i
  rw [hi] at htrace
  cases hhistory : history i with
  | unopened =>
    rw [hhistory] at hmem
    cases hmem
  | stopped o fs =>
    rw [hhistory] at hmem
    cases hmem
  | opened o fs =>
    rw [hhistory] at htrace
    exact ⟨o, fs, rfl, Option.some.inj htrace⟩

theorem congr (h : Holds e events blocks) {e' : Envelope} (hsame : e'.SameBlocks e) :
    Holds e' events blocks := by
  refine of_envelope (h.envelope.congr hsame) fun i hi => ?_
  rw [hsame.opened]
  exact h.mem_opened hi

theorem openBlock (h : Holds e events blocks) (hstarted : e.started = true) (o : Opening) :
    Holds (e.openBlock o).1 (events ++ (e.openBlock o).2) (blocks ++ [.ofOpening o]) := by
  refine of_envelope (h.envelope.openBlock hstarted o) fun i hi => ?_
  rw [List.length_append, List.length_singleton] at hi
  by_cases hlast : i < blocks.length
  · exact List.mem_append_left _ (h.mem_opened hlast)
  · have hnew : i = e.next := by
      rw [h.next]
      omega
    exact List.mem_append_right _ (List.mem_singleton.2 hnew)

/-- A block grows by a fragment that it takes. -/
theorem grow (h : Holds e events blocks) {i : Nat} {block block' : OpenBlock} {f : Fragment}
    (hi : blocks[i]? = some block) (hf : block.grow? f = some block') :
    Holds e (events ++ [.blockDelta i f]) (blocks.set i block') := by
  have hopen := h.mem_opened (List.getElem?_eq_some_iff.1 hi).1
  refine of_envelope (h.envelope.grow hopen hi hf) fun j hj => ?_
  rw [List.length_set] at hj
  exact h.mem_opened hj

/-- The arguments of a tool call grow; without more text there is no event. -/
theorem growArguments (h : Holds e events blocks) {i : Nat} {id name text : String}
    (hi : blocks[i]? = some (.toolCall id name text)) (more : String) :
    Holds e (events ++ if more.isEmpty then [] else [.blockDelta i (.arguments more)])
      (blocks.set i (.toolCall id name (text ++ more))) := by
  split
  case isTrue hempty =>
    obtain rfl := String.isEmpty_iff.1 hempty
    obtain ⟨hlt, hget⟩ := List.getElem?_eq_some_iff.1 hi
    rw [String.append_empty, ← hget, List.set_getElem_self, List.append_nil]
    exact h
  case isFalse => exact h.grow hi rfl

end Holds

/-! ## The state of the translation -/

namespace StreamState

open Step

/-- The state has taken what has been said and not more. -/
structure Tracks (g : Gathered) (events : List Event) (s : StreamState) : Prop where
  started : s.envelope.started = true
  blocks : Holds s.envelope events g.blocks
  /-- But for the beginning of the message all events are about blocks. -/
  framed : ∃ inner, events = .messageStart .assistant {} :: inner ∧ ∀ e ∈ inner, e.index?.isSome
  textBlock : s.textBlock = if g.text = "" then none else some 0
  callBlocks : ∀ p, s.callBlocks.find? p = g.callIndex? p
  refusal : s.refusal = g.refusal
  usage : s.envelope.usage = g.usage
  ended : s.envelope.terminal = g.ended

variable {g : Gathered}

theorem noteUsage_brings (chunk : Json) :
    Brings (Tracks g)
      (Tracks { g with usage := ((chunk.present? "usage").map decodeUsage).getD g.usage })
      (noteUsage chunk) := by
  unfold noteUsage
  split
  case h_1 usage husage =>
    refine brings_update fun events s h => ?_
    rw [husage]
    exact ⟨h.started, h.blocks.congr (.of_eq rfl rfl rfl rfl), h.framed, h.textBlock, h.callBlocks,
      h.refusal, rfl, h.ended⟩
  case h_2 husage =>
    refine brings_skip fun events s h => ?_
    rw [husage]
    exact h

/-- The first text opens a block and grows it at once, when no tool call has begun. -/
theorem Tracks.openText {events : List Event} {s : StreamState} (hs : Tracks g events s)
    (htext : g.text = "") (hpieces : g.pieces = []) {text : String} (hne : text ≠ "") :
    Tracks { g with text := g.text ++ text }
      (events ++ ((s.envelope.openBlock (.text "")).2
        ++ [.blockDelta s.envelope.next (.text text)]))
      { s with
        envelope := (s.envelope.openBlock (.text "")).1
        textBlock := some s.envelope.next } := by
  have hmore : g.text ++ text ≠ "" := by simp [hne]
  have hnone : g.blocks = [] := by simp [Gathered.blocks, htext, hpieces, positions]
  have hnext : s.envelope.next = 0 := by
    rw [hs.blocks.next, hnone]
    rfl
  have hopened := hs.blocks.openBlock hs.started (.text "")
  rw [hnone] at hopened
  have hgrown := hopened.grow (i := 0) (f := .text text) rfl rfl
  rw [hnext]
  refine ⟨hs.started, ?_, ?_, ?_, fun p => ?_, hs.refusal, hs.usage, hs.ended⟩
  · rw [Gathered.blocks_first_text htext hpieces hne, hnone, ← List.append_assoc]
    simpa using hgrown
  · refine Transcript.IsAboutBlocks.append hs.framed fun e he => ?_
    rcases List.mem_append.1 he with he | he
    · rw [List.mem_singleton.1 he]
      rfl
    · rw [List.mem_singleton.1 he]
      rfl
  · rw [if_neg hmore]
  · have hnocall : ∀ g : Gathered, g.pieces = [] → g.callIndex? p = none := by
      intro g hg
      rw [Gathered.callIndex?, hg]
      rfl
    exact ((hs.callBlocks p).trans (hnocall g hpieces)).trans
      (hnocall { g with text := g.text ++ text } hpieces).symm

/-- More text grows the block that holds text. -/
theorem Tracks.growText {events : List Event} {s : StreamState} (hs : Tracks g events s)
    (htext : g.text ≠ "") (text : String) :
    Tracks { g with text := g.text ++ text } (events ++ [.blockDelta 0 (.text text)]) s := by
  have hmore : g.text ++ text ≠ "" := by simp [htext]
  have hfirst : g.blocks[0]? = some (.text g.text) := by
    rw [Gathered.blocks, if_neg htext]
    rfl
  have hgrown := hs.blocks.grow hfirst (f := .text text) rfl
  have hframed : Transcript.IsAboutBlocks (events ++ [.blockDelta 0 (.text text)]) :=
    .append hs.framed (by simp [Event.index?])
  refine ⟨hs.started, ?_, hframed, ?_, fun p => ?_, hs.refusal, hs.usage, hs.ended⟩
  · rw [Gathered.blocks_text htext]
    exact hgrown
  · rw [hs.textBlock, if_neg htext, if_neg hmore]
  · have hcall : { g with text := g.text ++ text }.firstCall = g.firstCall := by
      rw [Gathered.firstCall, Gathered.firstCall, if_neg hmore, if_neg htext]
    rw [hs.callBlocks, Gathered.callIndex?, Gathered.callIndex?, hcall]

theorem addText_brings (text : String) (h : g.text = "" → text = "" ∨ g.pieces = []) :
    Brings (Tracks g) (Tracks { g with text := g.text ++ text }) (addText text) := by
  unfold addText
  split
  case isTrue hempty =>
    obtain rfl := String.isEmpty_iff.1 hempty
    rw [String.append_empty]
    exact brings_skip fun events s hs => hs
  case isFalse hempty =>
    have hne : text ≠ "" := mt String.isEmpty_iff.2 hempty
    refine brings_emit fun events s hs => ?_
    by_cases htext : g.text = ""
    · have hblock : s.textBlock = none := by rw [hs.textBlock, if_pos htext]
      simp only [hblock]
      exact hs.openText htext ((h htext).resolve_left hne) hne
    · have hblock : s.textBlock = some 0 := by rw [hs.textBlock, if_neg htext]
      simp only [hblock]
      exact hs.growText htext text

theorem addRefusal_brings (text : String) :
    Brings (Tracks g) (Tracks { g with refusal := g.refusal ++ text }) (addRefusal text) := by
  refine brings_update fun events s h => ?_
  exact ⟨h.started, h.blocks, h.framed, h.textBlock, h.callBlocks, by rw [h.refusal], h.usage,
    h.ended⟩

/-- The events for more arguments, none if there are not any. -/
def argumentEvents (index : Nat) (text : String) : List Event :=
  if text.isEmpty then [] else [.blockDelta index (.arguments text)]

theorem index?_argumentEvents {index : Nat} {text : String} :
    ∀ e ∈ argumentEvents index text, e.index?.isSome := by
  unfold argumentEvents
  split <;> simp [Event.index?]

/-- A piece of a tool call that has begun. -/
theorem addCall_eq_of_some {piece : Json} {s : StreamState} {i : Nat}
    (hi : s.callBlocks.find? (place piece) = some i) :
    addCall piece s
      = (s, .ok (argumentEvents i ((piece.get "function").textOrEmpty "arguments"))) := by
  have hopen : openCall (place piece) piece s = (s, .ok []) := by
    rw [openCall, choose, hi]
    rfl
  have hadd : ∀ text, addArguments (place piece) text s = (s, .ok (argumentEvents i text)) := by
    intro text
    unfold addArguments argumentEvents
    split
    · rfl
    · rw [emit, hi]
  exact andThen_eq_ok hopen (hadd _)

/-- The first piece of a tool call. -/
theorem addCall_eq_of_none {piece : Json} {id : String} (hid : (piece.get "id").text? = some id)
    {s : StreamState} (hi : s.callBlocks.find? (place piece) = none) :
    addCall piece s
      = ({ s with
            envelope := (s.envelope.openBlock
              (.toolCall id ((piece.get "function").textOrEmpty "name"))).1
            callBlocks := s.callBlocks.insert (place piece) s.envelope.next },
          .ok ((s.envelope.openBlock (.toolCall id ((piece.get "function").textOrEmpty "name"))).2
            ++ argumentEvents s.envelope.next
              ((piece.get "function").textOrEmpty "arguments"))) := by
  have hopen : openCall (place piece) piece s
      = ({ s with
            envelope := (s.envelope.openBlock
              (.toolCall id ((piece.get "function").textOrEmpty "name"))).1
            callBlocks := s.callBlocks.insert (place piece) s.envelope.next },
          .ok (s.envelope.openBlock
            (.toolCall id ((piece.get "function").textOrEmpty "name"))).2) := by
    simp only [openCall, choose, hi, Option.isSome_none, Bool.false_eq_true, if_false, hid]
    rfl
  have hadd : ∀ (t : StreamState) (text : String),
      t.callBlocks.find? (place piece) = some s.envelope.next →
      addArguments (place piece) text t = (t, .ok (argumentEvents s.envelope.next text)) := by
    intro t text ht
    unfold addArguments argumentEvents
    split
    · rfl
    · rw [emit, ht]
  exact andThen_eq_ok hopen (hadd _ _ (Table.find?_insert_self _ _ _))

theorem exists_addCall_eq_error {piece : Json} (hid : (piece.get "id").text? = none)
    {s : StreamState} (hi : s.callBlocks.find? (place piece) = none) :
    ∃ err, addCall piece s = (s, .error err) := by
  have hopen : ∃ err, openCall (place piece) piece s = (s, .error err) := by
    simp only [openCall, choose, hi, Option.isSome_none, Bool.false_eq_true, if_false, hid]
    exact ⟨_, rfl⟩
  obtain ⟨err, herr⟩ := hopen
  refine ⟨err, ?_⟩
  change (openCall (place piece) piece).andThen _ s = _
  rw [andThen, herr]

/-- One more piece of a tool call that has begun. -/
theorem Tracks.growCall {events : List Event} {s : StreamState} (hs : Tracks g events s)
    {piece : Json} {p i : Nat} (hpiece : position? piece = some p)
    (hg : ∀ piece ∈ g.pieces, (position? piece).isSome) (hp : p ∈ positions g.pieces)
    (hindex : g.callIndex? p = some i) :
    Tracks { g with pieces := g.pieces ++ [piece] }
      (events ++ argumentEvents i ((piece.get "function").textOrEmpty "arguments")) s := by
  obtain rfl : g.firstCall + (positions g.pieces).idxOf p = i := by
    rw [Gathered.callIndex?, if_pos hp] at hindex
    exact Option.some.inj hindex
  refine ⟨hs.started, ?_, Transcript.IsAboutBlocks.append hs.framed index?_argumentEvents,
    hs.textBlock, fun q => ?_, hs.refusal, hs.usage, hs.ended⟩
  · have hgrown := hs.blocks.growArguments (Gathered.getElem?_of_callIndex? hindex)
      ((piece.get "function").textOrEmpty "arguments")
    have hcall : callAt (g.pieces ++ [piece]) p
        = .toolCall ((firstAt g.pieces p).textOrEmpty "id")
            (((firstAt g.pieces p).get "function").textOrEmpty "name")
            (argumentsAt g.pieces p ++ (piece.get "function").textOrEmpty "arguments") := by
      rw [callAt, firstAt_of_mem hp, argumentsAt_concat, if_pos hpiece]
    rw [Gathered.blocks_piece hg hpiece hp, hcall]
    exact hgrown
  · have hseen : ¬ (q = p ∧ p ∉ positions g.pieces) := fun h => h.2 hp
    rw [hs.callBlocks, Gathered.callIndex?_concat hpiece, if_neg hseen]

/-- The first piece of a tool call opens its block. -/
theorem Tracks.openCall {events : List Event} {s : StreamState} (hs : Tracks g events s)
    {piece : Json} {p : Nat} (hpiece : position? piece = some p) (hp : p ∉ positions g.pieces)
    {id : String} (hid : (piece.get "id").text? = some id) :
    Tracks { g with pieces := g.pieces ++ [piece] }
      (events ++ ((s.envelope.openBlock
          (.toolCall id ((piece.get "function").textOrEmpty "name"))).2
        ++ argumentEvents s.envelope.next ((piece.get "function").textOrEmpty "arguments")))
      { s with
        envelope := (s.envelope.openBlock
          (.toolCall id ((piece.get "function").textOrEmpty "name"))).1
        callBlocks := s.callBlocks.insert p s.envelope.next } := by
  have hidText : piece.textOrEmpty "id" = id := by
    rw [Json.textOrEmpty, hid]
    rfl
  refine ⟨hs.started, ?_, ?_, hs.textBlock, fun q => ?_, hs.refusal, hs.usage, hs.ended⟩
  · have hopened := hs.blocks.openBlock hs.started
      (.toolCall id ((piece.get "function").textOrEmpty "name"))
    have hlast : (g.blocks ++ [OpenBlock.ofOpening
          (.toolCall id ((piece.get "function").textOrEmpty "name"))])[s.envelope.next]?
        = some (.toolCall id ((piece.get "function").textOrEmpty "name") "") := by
      rw [hs.blocks.next, List.getElem?_concat_length]
      rfl
    have hgrown := hopened.growArguments hlast ((piece.get "function").textOrEmpty "arguments")
    rw [hs.blocks.next, List.set_append_right _ _ (Nat.le_refl _), Nat.sub_self,
      List.set_cons_zero, String.empty_append, ← hs.blocks.next] at hgrown
    rw [Gathered.blocks_first_piece hpiece hp, hidText, ← List.append_assoc]
    exact hgrown
  · refine Transcript.IsAboutBlocks.append hs.framed fun e he => ?_
    rcases List.mem_append.1 he with he | he
    · rw [List.mem_singleton.1 he]
      rfl
    · exact index?_argumentEvents e he
  · rw [Gathered.callIndex?_concat hpiece]
    by_cases hq : q = p
    · subst hq
      rw [if_pos ⟨rfl, hp⟩, ← hs.blocks.next]
      exact Table.find?_insert_self _ _ _
    · have hother : ¬ (q = p ∧ p ∉ positions g.pieces) := fun h => hq h.1
      rw [if_neg hother, ← hs.callBlocks]
      exact Table.find?_insert_of_ne _ hq _

theorem addCall_brings {piece : Json} {p : Nat} (hpiece : position? piece = some p)
    (hg : ∀ piece ∈ g.pieces, (position? piece).isSome)
    (hid : p ∉ positions g.pieces → (piece.get "id").text?.isSome) :
    Brings (Tracks g) (Tracks { g with pieces := g.pieces ++ [piece] }) (addCall piece) := by
  obtain rfl := place_of_position? hpiece
  intro events s hs
  by_cases hp : place piece ∈ positions g.pieces
  · have hindex : g.callIndex? (place piece)
        = some (g.firstCall + (positions g.pieces).idxOf (place piece)) := if_pos hp
    have hi := (hs.callBlocks _).trans hindex
    exact ⟨_, _, addCall_eq_of_some hi, hs.growCall hpiece hg hp hindex⟩
  · obtain ⟨id, hid⟩ := Option.isSome_iff_exists.1 (hid hp)
    have hi : s.callBlocks.find? (place piece) = none := (hs.callBlocks _).trans (if_neg hp)
    exact ⟨_, _, addCall_eq_of_none hid hi, hs.openCall hpiece hp hid⟩

theorem noteFinish_brings (choice : Json) :
    Brings (Tracks g)
      (Tracks { g with ended := g.ended || (choice.get "finish_reason").text?.isSome })
      (noteFinish choice) := by
  unfold noteFinish
  split
  case h_1 reason hreason =>
    refine brings_update fun events s h => ?_
    rw [hreason]
    exact ⟨h.started, h.blocks.congr (.of_eq rfl rfl rfl rfl), h.framed, h.textBlock, h.callBlocks,
      h.refusal, h.usage, (Bool.or_true _).symm⟩
  case h_2 hreason =>
    refine brings_skip fun events s h => ?_
    rw [hreason]
    simpa using h

theorem addCalls_brings {ps : List Json}
    (hplaced : ∀ piece ∈ g.pieces ++ ps, (position? piece).isSome)
    (hid : ∀ early piece late p, ps = early ++ piece :: late → position? piece = some p →
      p ∉ positions (g.pieces ++ early) → (piece.get "id").text?.isSome) :
    Brings (Tracks g) (Tracks { g with pieces := g.pieces ++ ps }) (sequence (ps.map addCall)) := by
  let P : List Json → List Event → StreamState → Prop :=
    fun early => Tracks { g with pieces := g.pieces ++ early }
  have hsteps : Brings (P []) (P ps) (sequence (ps.map addCall)) := by
    refine brings_sequence_map fun early piece late hps => ?_
    have hmem : piece ∈ g.pieces ++ ps := by simp [hps]
    obtain ⟨p, hp⟩ := Option.isSome_iff_exists.1 (hplaced piece hmem)
    have hearly : ∀ piece ∈ g.pieces ++ early, (position? piece).isSome := by
      intro x hx
      refine hplaced x (List.mem_append.2 ((List.mem_append.1 hx).imp_right fun h => ?_))
      rw [hps]
      exact List.mem_append_left _ h
    have hcall := addCall_brings (g := { g with pieces := g.pieces ++ early }) hp hearly
      (hid early piece late p hps hp)
    simp only [List.append_assoc] at hcall
    exact hcall
  refine hsteps.strengthen fun events s hs => ?_
  have hnil : { g with pieces := g.pieces ++ [] } = g := by rw [List.append_nil]
  change Tracks { g with pieces := g.pieces ++ [] } events s
  rwa [hnil]

/-! ### Chunks -/

variable {before after : List Json} {chunk : Json}

theorem addChoice_brings (h : IsStreamed (before ++ chunk :: after)) (usage : TokenUsage) :
    Brings (Tracks { gather before with usage })
      (Tracks { gather (before ++ [chunk]) with usage }) (addChoice (firstChoice chunk)) := by
  rw [gather_concat]
  refine brings_sequence_cons (addText_brings _ fun htext => h.first_text htext) ?_
  refine brings_sequence_cons (addRefusal_brings _) ?_
  refine brings_sequence_cons (addCalls_brings h.placed_before
    fun early piece late p hps hp hnew => h.id_of_first hps hp hnew) ?_
  exact brings_sequence_cons (noteFinish_brings _) (brings_skip fun events s hs => hs)

/-- Before the first chunk nothing has happened. -/
def At (chunks : List Json) (events : List Event) (s : StreamState) : Prop :=
  (chunks = [] ∧ events = [] ∧ s = {}) ∨ Tracks (gather chunks) events s

theorem start_brings (chunks : List Json) :
    Brings (At chunks) (Tracks (gather chunks)) start := by
  refine brings_emit fun events s h => ?_
  rcases h with ⟨rfl, rfl, rfl⟩ | h
  · obtain ⟨hledger, hstarted⟩ := (Envelope.ledger_new .openai).start
    refine ⟨hstarted, ⟨⟨_, hledger, fun i block hi => ?_⟩, rfl⟩, ⟨[], rfl, by simp⟩, rfl,
      fun p => rfl, rfl, rfl, rfl⟩
    cases hi
  · have hstart : s.envelope.start = (s.envelope, []) := if_pos h.started
    simp only [hstart, List.append_nil]
    exact h

theorem addChunk_brings (h : IsStreamed (before ++ chunk :: after)) :
    Brings (At before) (At (before ++ [chunk])) (addChunk chunk) := by
  have herror : Chunk.failure? chunk = none := by
    rw [Chunk.failure?, h.errors chunk (by simp)]
  have husage : (gather (before ++ [chunk])).usage
      = ((chunk.present? "usage").map decodeUsage).getD (gather before).usage := by
    rw [gather_concat]
  have hchoice := addChoice_brings h (gather (before ++ [chunk])).usage
  rw [addChunk, herror]
  refine brings_sequence_cons (start_brings before) ?_
  refine brings_sequence_cons (noteUsage_brings chunk) ?_
  refine brings_sequence_cons (J := Tracks (gather (before ++ [chunk]))) ?_
    (brings_skip fun events s hs => .inr hs)
  rw [← husage]
  cases hfirst : (chunk.get "choices").first? with
  | some choice =>
    have heq : firstChoice chunk = choice := by rw [firstChoice, hfirst, Option.getD_some]
    rwa [heq] at hchoice
  | none =>
    have hnull : firstChoice chunk = .null := by rw [firstChoice, hfirst, Option.getD_none]
    have hdelta : delta chunk = .null := by
      rw [delta, hnull]
      rfl
    have hpieces : pieces chunk = [] := by
      rw [pieces, hdelta]
      rfl
    have hsame : gather (before ++ [chunk])
        = { gather before with usage := (gather (before ++ [chunk])).usage } := by
      rw [husage, gather_concat, hdelta, hpieces, hasFinish, hnull]
      simp [Json.textOrEmpty, Json.get, Json.get?, Json.text?]
    rw [← hsame]
    exact brings_skip fun events s hs => hs

/-- The chunk of a frame. -/
def chunkOf (frame : Frame) : Json := (Json.read? frame.data).getD .null

/-- The frames bear chunks. -/
def BearChunks (frames : List Frame) : Prop :=
  ∀ frame ∈ frames, isDone frame = false ∧ (Json.read? frame.data).isSome

theorem step_eq {frame : Frame} (hdone : isDone frame = false)
    (hread : (Json.read? frame.data).isSome) : step frame = addChunk (chunkOf frame) := by
  obtain ⟨chunk, hchunk⟩ := Option.isSome_iff_exists.1 hread
  rw [step, hdone, chunkOf, hchunk, Chunk.parse, hchunk]
  rfl

theorem steps_bring {frames : List Frame} (hframes : BearChunks frames)
    (h : IsStreamed (frames.map chunkOf)) :
    Brings (At []) (At (frames.map chunkOf)) (sequence (frames.map step)) := by
  let P : List Frame → List Event → StreamState → Prop := fun early => At (early.map chunkOf)
  have hsteps : Brings (P []) (P frames) (sequence (frames.map step)) := by
    refine brings_sequence_map fun early frame late hsplit => ?_
    obtain ⟨hdone, hread⟩ := hframes frame (by simp [hsplit])
    have hchunks : frames.map chunkOf
        = early.map chunkOf ++ chunkOf frame :: late.map chunkOf := by simp [hsplit]
    rw [hchunks] at h
    have hmore : (early ++ [frame]).map chunkOf = early.map chunkOf ++ [chunkOf frame] :=
      List.map_append
    change Brings (At (early.map chunkOf)) (At ((early ++ [frame]).map chunkOf)) (step frame)
    rw [step_eq hdone hread, hmore]
    exact addChunk_brings h
  exact hsteps

end StreamState

/-! ## The end of the message -/

/-- What is said of a refusal. -/
def refusalFields (refusal : String) : Fields :=
  if refusal = "" then .empty else Table.empty.insert "refusal" (.string refusal)

/-- The complete tool call of a position. -/
def toolCallAt (ps : List Json) (p : Nat) : ToolCall where
  id := (firstAt ps p).textOrEmpty "id"
  name := ((firstAt ps p).get "function").textOrEmpty "name"
  arguments := (OpenBlock.readArguments? (argumentsAt ps p)).getD Json.emptyObject

/-- The complete blocks. -/
def Gathered.finals (g : Gathered) : List Block :=
  (if g.text = "" then [] else [.text g.text]) ++
    ((positions g.pieces).map (toolCallAt g.pieces)).map .toolCall

/-- The arguments that a stream spells can be read. -/
theorem IsStreamed.readArguments? {chunks : List Json} (h : IsStreamed chunks) {p : Nat}
    (hp : p ∈ positions (gather chunks).pieces) :
    (OpenBlock.readArguments? (argumentsAt (gather chunks).pieces p)).isSome := by
  rcases h.arguments p hp with hempty | hread
  · rw [hempty]
    rfl
  · obtain ⟨v, hv⟩ := Option.isSome_iff_exists.1 hread
    rw [OpenBlock.readArguments?_of_read? hv]
    rfl

theorem IsStreamed.close_blocks {chunks : List Json} (h : IsStreamed chunks) :
    (gather chunks).blocks.map (OpenBlock.close .openai)
      = (gather chunks).finals.map fun b => .ok (some b) := by
  have hcalls : ∀ p ∈ positions (gather chunks).pieces,
      (callAt (gather chunks).pieces p).close .openai
        = .ok (some (.toolCall (toolCallAt (gather chunks).pieces p))) := by
    intro p hp
    obtain ⟨v, hv⟩ := Option.isSome_iff_exists.1 (h.readArguments? hp)
    rw [callAt, OpenBlock.close, toolCallAt, hv]
    rfl
  rw [Gathered.blocks, Gathered.finals, List.map_append, List.map_append, List.map_map,
    List.map_map, List.map_map]
  refine congrArg₂ (· ++ ·) ?_ (List.map_congr_left hcalls)
  split <;> rfl

/-- The events about a refusal. -/
def refusalEvents (refusal : String) : List Event :=
  if refusal = "" then [] else [.metadata "refusal" (.string refusal)]

/-- The events that end a message. -/
def endEvents (g : Gathered) (opened : List Nat) (reason : Option String) : List Event :=
  refusalEvents g.refusal ++ opened.map .blockStop ++ [.messageDelta reason none g.usage]

/-- What the events before the end of a message tell. -/
structure Tells (g : Gathered) (events : List Event) : Prop where
  framed : ∃ inner, events = .messageStart .assistant {} :: inner ∧ ∀ e ∈ inner, e.isInner
  usage : Transcript.usage events = g.usage
  metadata : Transcript.metadata events = refusalFields g.refusal
  stopSequence : Transcript.stopSequence? events = none
  bears : ∀ finals : List Block,
    g.blocks.map (OpenBlock.close .openai) = finals.map (fun b => .ok (some b)) →
    Transcript.Bears .openai events (finals.zipIdx.map fun b => (b.2, some b.1))

/-- An envelope that has the given blocks open ends the message with these events. -/
theorem append_endEvents (events : List Event) (g : Gathered) (opened : List Nat)
    (reason : Option String) :
    events ++ endEvents g opened reason = events ++ refusalEvents g.refusal
      ++ Envelope.endEvents { opened, stopReason := reason, usage := g.usage } := by
  rw [endEvents, Envelope.endEvents, List.append_assoc, List.append_assoc]

namespace StreamState

open Step

variable {g : Gathered} {events : List Event} {s : StreamState}

theorem isInner_of_index? {e : Event} (h : e.index?.isSome) : e.isInner := by
  cases e <;> first | rfl | simp [Event.index?] at h

theorem isInner_refusalEvents (refusal : String) : ∀ e ∈ refusalEvents refusal, e.isInner := by
  unfold refusalEvents
  split <;> simp [Event.isInner]

theorem isInner_endEvents {opened : List Nat} {reason : Option String} :
    ∀ e ∈ endEvents g opened reason, e.isInner := by
  intro e he
  rcases List.mem_append.1 he with he | he
  · rcases List.mem_append.1 he with he | he
    · exact isInner_refusalEvents _ e he
    · obtain ⟨i, -, rfl⟩ := List.mem_map.1 he
      rfl
  · rw [List.mem_singleton.1 he]
    rfl

theorem stepsAt_refusalEvents (i : Nat) (refusal : String) :
    stepsAt i (refusalEvents refusal) = [] := by
  unfold refusalEvents
  split <;> rfl

theorem Tracks.tells (h : Tracks g events s) (reason : Option String) :
    Tells g (events ++ endEvents g s.envelope.opened reason) := by
  have hread : ∀ {α : Type} {f : Event → Option α}, (∀ e : Event, e.index?.isSome → f e = none) →
      (events ++ endEvents g s.envelope.opened reason).filterMap f
        = (f (.messageStart .assistant {})).toList ++ (refusalEvents g.refusal).filterMap f
          ++ (f (.messageDelta reason none g.usage)).toList := by
    intro α f hf
    rw [append_endEvents]
    exact Transcript.filterMap_message hf h.framed _ _
  refine ⟨?_, ?_, ?_, ?_, fun finals hfinals => h.blocks.envelope.bears (fun i => ?_) hfinals⟩
  · obtain ⟨inner, hevents, hinner⟩ := h.framed
    refine ⟨inner ++ endEvents g s.envelope.opened reason, by rw [hevents]; rfl, fun e he => ?_⟩
    rcases List.mem_append.1 he with he | he
    · exact isInner_of_index? (hinner e he)
    · exact isInner_endEvents e he
  · have hrefusal : (refusalEvents g.refusal).filterMap Event.usage? = [] := by
      unfold refusalEvents
      split <;> rfl
    rw [Transcript.usage_eq_foldl, hread fun e he => (Event.reads_of_index? he).1, hrefusal]
    exact Draft.merge_default g.usage
  · rw [Transcript.metadata, hread fun e he => (Event.reads_of_index? he).2.1, refusalEvents,
      refusalFields]
    split <;> rfl
  · rw [Transcript.stopSequence?, hread fun e he => (Event.reads_of_index? he).2.2.2,
      refusalEvents]
    split <;> rfl
  · obtain ⟨⟨history, hledger, -⟩, -⟩ := h.blocks
    rw [endEvents, stepsAt_append, stepsAt_append, stepsAt_refusalEvents,
      stepsAt_stops hledger.nodup, List.nil_append]
    exact List.append_nil _

theorem finish_eq (h : s.envelope.isTruncated = false) {t : StreamState} {notes : List Event}
    (hnotes : giveRefusal s = (t, .ok notes)) :
    finish s = ({ t with envelope := t.envelope.conclude.1 },
      .ok (notes ++ t.envelope.conclude.2)) := by
  simp only [finish, choose, h, Bool.false_eq_true, if_false]
  refine andThen_eq_ok hnotes ?_
  rfl

/-- The refusal is given before the end of the message. -/
theorem exists_giveRefusal_eq (h : s.envelope.finished = false) :
    ∃ t, giveRefusal s = (t, .ok (refusalEvents s.refusal)) ∧ t.envelope = s.envelope := by
  by_cases hrefusal : s.refusal = ""
  · exact ⟨s, by simp [giveRefusal, emit, hrefusal, refusalEvents], rfl⟩
  · exact ⟨{ s with refusal := "" }, by simp [giveRefusal, emit, hrefusal, h, refusalEvents], rfl⟩

/-- A stream that has ended stays as it is. -/
theorem finish_of_finished (h : s.envelope.finished = true) : finish s = (s, .ok []) := by
  have htruncated : s.envelope.isTruncated = false := by simp [Envelope.isTruncated, h]
  have hrefusal : giveRefusal s = (s, .ok []) := by simp [giveRefusal, emit, h]
  have hconclude : s.envelope.conclude = (s.envelope, []) := by simp [Envelope.conclude, h]
  rw [finish_eq htruncated hrefusal, hconclude]
  rfl

/-- The message has ended, and its events tell what has been said. -/
def Over (g : Gathered) (events : List Event) (s : StreamState) : Prop :=
  s.envelope.finished = true ∧ ∃ early, events = early ++ [.messageStop] ∧ Tells g early

theorem finish_brings (hg : g.ended = true) : Brings (Tracks g) (Over g) finish := by
  intro events s h
  obtain ⟨⟨history, hledger, -⟩, -⟩ := h.blocks
  have hfinished := hledger.unfinished
  have htruncated : s.envelope.isTruncated = false := by
    simp [Envelope.isTruncated, h.ended, hg]
  obtain ⟨t, hgive, henvelope⟩ := exists_giveRefusal_eq hfinished
  rw [h.refusal] at hgive
  refine ⟨_, _, finish_eq htruncated hgive, ?_, _, ?_, h.tells s.envelope.stopReason⟩
  · simp [henvelope, Envelope.conclude, hfinished, h.started]
  · simp [henvelope, Envelope.conclude, hfinished, h.started, h.usage, endEvents]

theorem finish_brings_over : Brings (Over g) (Over g) finish := by
  intro events s h
  refine ⟨s, [], finish_of_finished h.1, ?_⟩
  rwa [List.append_nil]

/-- So does the end mark, also when no chunk has a word for why the message ends. -/
theorem step_brings_of_isDone {frame : Frame} (hdone : isDone frame = true) :
    Brings (Tracks g) (Over g) (step frame) := by
  have hmark : Brings (Tracks g) (Tracks { g with ended := true })
      (update fun s => { s with envelope := { s.envelope with terminal := true } }) := by
    refine brings_update fun events s h => ?_
    exact ⟨h.started, h.blocks.congr (.of_eq rfl rfl rfl rfl), h.framed, h.textBlock, h.callBlocks,
      h.refusal, h.usage, rfl⟩
  rw [step, if_pos hdone]
  refine (hmark.andThen (finish_brings rfl)).weaken fun events s h => ?_
  obtain ⟨hfinished, early, hevents, htells⟩ := h
  exact ⟨hfinished, early, hevents, htells.framed, htells.usage, htells.metadata,
    htells.stopSequence, htells.bears⟩

end StreamState

/-! ## The reply of a stream -/

/-- The frames of a stream that tells a message, with or without the end mark, lead to its end. -/
theorem StreamState.frames_bring {frames done : List Frame} (hframes : BearChunks frames)
    (hdone : done = [] ∨ ∃ frame, done = [frame] ∧ isDone frame = true)
    (h : IsStreamed (frames.map chunkOf)) :
    Step.Brings (At []) (Over (gather (frames.map chunkOf)))
      ((Step.sequence ((frames ++ done).map step)).andThen finish) := by
  have hchunks : Step.Brings (At []) (Tracks (gather (frames.map chunkOf)))
      (Step.sequence (frames.map step)) := by
    refine (steps_bring hframes h).weaken fun events s hs => hs.resolve_left ?_
    rintro ⟨hnil, -⟩
    have hended := h.ended
    rw [hnil] at hended
    cases hended
  rw [List.map_append]
  rcases hdone with rfl | ⟨frame, rfl, hmark⟩
  · exact (hchunks.append (Step.brings_skip fun events s hs => hs)).andThen (finish_brings h.ended)
  · have hlast : Step.Brings (Tracks (gather (frames.map chunkOf)))
        (Over (gather (frames.map chunkOf))) (Step.sequence [step frame]) :=
      Step.brings_sequence_cons (step_brings_of_isDone hmark)
        (Step.brings_skip fun events s hs => hs)
    exact (hchunks.append hlast).andThen finish_brings_over

/-- The reply that is read from such frames. -/
theorem readReply_of_chunks (ids : CallIds) {frames done : List Frame}
    (hframes : StreamState.BearChunks frames)
    (hdone : done = [] ∨ ∃ frame, done = [frame] ∧ StreamState.isDone frame = true)
    (h : IsStreamed (frames.map StreamState.chunkOf)) :
    ∃ events, readReply .openai ids ((frames ++ done).map .ok)
        = .ok (Transcript.reply .openai events) ∧
      streamEvents .openai ids ((frames ++ done).map .ok)
        = (events ++ [Event.messageStop]).map .ok ∧
      Tells (gather (frames.map StreamState.chunkOf)) events := by
  obtain ⟨s, events, hsteps, -, early, hevents, htells⟩ :=
    StreamState.frames_bring hframes hdone h [] {} (.inl ⟨rfl, rfl, rfl⟩)
  have hstream : streamEvents .openai ids ((frames ++ done).map .ok)
      = (early ++ [Event.messageStop]).map .ok := by
    rw [List.nil_append] at hevents
    rw [streamEvents_of_steps Translation.openai rfl (fun _ _ => rfl) (fun _ => rfl) hsteps,
      hevents]
  obtain ⟨inner, hframed, hinner⟩ := htells.framed
  have hquiet : Transcript.quiet early
      = .messageStart .assistant {} :: inner.filter (· ≠ .ping) := by
    rw [hframed]
    rfl
  exact ⟨early, readReply_of_bears (hstream.trans List.map_append)
    ⟨_, _, _, hquiet, fun e he => hinner e (List.mem_filter.1 he).1⟩
    (htells.bears _ h.close_blocks), hstream, htells⟩

end ChatWire.OpenAI
