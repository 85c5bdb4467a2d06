import ChatWire.Proofs.Agreement.OpenAIChunks
import Mathlib.Data.List.ReduceOption

/-!
# Pieces of tool calls, wherever they are taken

`OpenAI.gather` says what the chunks of an orderly stream say together. This module asks for no
order: the pieces of tool calls may leave out their positions, and bear any ids. The place at which
a piece is taken is all that tells the calls apart, and at every place there is one call, with the
id and the name of the first piece and the arguments of all of them
(`OpenAI.StreamState.Gathers`).
-/

namespace ChatWire.OpenAI

/-! ## Pieces and their places -/

/-- The id that a piece bears. -/
def pieceId? (piece : Json) : Option String := (piece.get "id").text?

/-- The name that a piece bears. -/
def pieceName (piece : Json) : String := (piece.get "function").textOrEmpty "name"

/-- The piece of the arguments. -/
def pieceArguments (piece : Json) : String := (piece.get "function").textOrEmpty "arguments"

/-- The places in the order in which they first occur. -/
def places (ps : List Json) : List Nat := (ps.map place).eraseDups

/-- The pieces that are taken at a place. -/
def piecesAt (ps : List Json) (p : Nat) : List Json := ps.filter (place · = p)

/-- The id of the first piece at a place. -/
def firstId? (ps : List Json) (p : Nat) : Option String := (piecesAt ps p).head?.bind pieceId?

/-- The call is made of the pieces at a place: the first has its id and its name, and all of them
together have its arguments. -/
structure IsMadeAt (ps : List Json) (p : Nat) (call : ToolCall) : Prop where
  id : firstId? ps p = some call.id
  name : (piecesAt ps p).head?.map pieceName = some call.name
  arguments : OpenBlock.readArguments? (String.join ((piecesAt ps p).map pieceArguments))
    = some call.arguments

section Places

variable {ps : List Json} {piece : Json} {p : Nat}

theorem places_concat (ps : List Json) (piece : Json) :
    places (ps ++ [piece])
      = if place piece ∈ places ps then places ps else places ps ++ [place piece] := by
  simp only [places, List.map_append, List.map_cons, List.map_nil, eraseDups_concat,
    List.mem_eraseDups]

theorem mem_places_iff : p ∈ places ps ↔ ∃ piece ∈ ps, place piece = p := by
  rw [places, List.mem_eraseDups, List.mem_map]

theorem piecesAt_concat_self (ps : List Json) (piece : Json) :
    piecesAt (ps ++ [piece]) (place piece) = piecesAt ps (place piece) ++ [piece] := by
  simp [piecesAt]

theorem piecesAt_concat_of_ne (h : p ≠ place piece) :
    piecesAt (ps ++ [piece]) p = piecesAt ps p := by
  simp [piecesAt, Ne.symm h]

theorem piecesAt_eq_nil_iff : piecesAt ps p = [] ↔ p ∉ places ps := by
  simp [piecesAt, mem_places_iff, List.filter_eq_nil_iff]

end Places

/-! ## Blocks and whom they belong to -/

/-- What has been said of the block that belongs to the text, or to the call at a place. -/
def Spells (ps : List Json) : Option Nat → OpenBlock → Prop
  | none, block => ∃ text, block = .text text
  | some p, block => ∃ id name, firstId? ps p = some id ∧
    (piecesAt ps p).head?.map pieceName = some name ∧
    block = .toolCall id name (String.join ((piecesAt ps p).map pieceArguments))

namespace Spells

variable {ps : List Json} {piece : Json} {block : OpenBlock}

theorem concat_of_ne {owner : Option Nat} (h : Spells ps owner block)
    (hne : owner ≠ some (place piece)) : Spells (ps ++ [piece]) owner block := by
  cases owner with
  | none => exact h
  | some p =>
    have hp : p ≠ place piece := fun hp => hne (congrArg some hp)
    rwa [Spells, firstId?, piecesAt_concat_of_ne hp]

theorem first {id : String} (hid : pieceId? piece = some id) (hnew : place piece ∉ places ps) :
    Spells (ps ++ [piece]) (some (place piece))
      (.toolCall id (pieceName piece) (pieceArguments piece)) := by
  have hat : piecesAt (ps ++ [piece]) (place piece) = [piece] := by
    rw [piecesAt_concat_self, piecesAt_eq_nil_iff.2 hnew, List.nil_append]
  refine ⟨id, pieceName piece, ?_, ?_, ?_⟩
  · rw [firstId?, hat]
    exact hid
  · rw [hat]
    rfl
  · rw [hat, List.map_singleton]
    simp [String.join]

/-- One more piece adds to the arguments. -/
theorem exists_of_concat (h : Spells ps (some (place piece)) block) :
    ∃ id name text, block = .toolCall id name text ∧ Spells (ps ++ [piece]) (some (place piece))
      (.toolCall id name (text ++ pieceArguments piece)) := by
  obtain ⟨id, name, hid, hname, rfl⟩ := h
  refine ⟨id, name, _, rfl, id, name, ?_, ?_, ?_⟩
  · obtain ⟨first, hfirst, hsome⟩ := Option.bind_eq_some_iff.1 hid
    rw [firstId?, piecesAt_concat_self, List.head?_append, hfirst]
    exact hsome
  · obtain ⟨first, hfirst, hsome⟩ := Option.map_eq_some_iff.1 hname
    rw [piecesAt_concat_self, List.head?_append, hfirst]
    exact congrArg some hsome
  · rw [piecesAt_concat_self, List.map_append, String.join_append, List.map_singleton]
    simp [String.join]

/-- One block is replaced, or comes behind the others. -/
theorem update {owners owners' : List (Option Nat)} {made : Option Nat → OpenBlock}
    {owner : Option Nat} (howners : ∀ x ∈ owners', x ∈ owners ∨ x = owner)
    (hothers : ∀ x ∈ owners, x ≠ owner → Spells ps x (made x)) (h : Spells ps owner block) :
    ∀ x ∈ owners', Spells ps x (Function.update made owner block x) := by
  intro x hx
  by_cases hxo : x = owner
  · subst hxo
    rwa [Function.update_self]
  · rw [Function.update_of_ne hxo]
    exact hothers x ((howners x hx).resolve_right hxo) hxo

end Spells

theorem getElem?_concat_eq_some_iff {α : Type} (xs : List α) (x y : α) (i : Nat) :
    (xs ++ [x])[i]? = some y ↔ xs[i]? = some y ∨ i = xs.length ∧ x = y := by
  grind

/-- The value at an element that occurs at one place only. -/
theorem map_update_eq_set {α β : Type} [DecidableEq α] {xs : List α} {x : α} {i : Nat}
    (hi : ∀ j, xs[j]? = some x ↔ i = j) (f : α → β) (y : β) :
    xs.map (Function.update f x y) = (xs.map f).set i y := by
  refine List.ext_getElem? fun j => ?_
  rw [List.getElem?_map, List.getElem?_set]
  by_cases hij : i = j
  · subst hij
    have hx := (hi i).2 rfl
    have hlt := (List.getElem?_eq_some_iff.1 hx).1
    rw [hx, if_pos rfl, if_pos (by rwa [List.length_map]), Option.map_some, Function.update_self]
  · have hne : ∀ z, xs[j]? = some z → z ≠ x := fun z hz hzx => hij ((hi j).1 (hzx ▸ hz))
    rw [if_neg hij, List.getElem?_map]
    exact Option.map_congr fun z hz => Function.update_of_ne (hne z hz) _ _

namespace StreamState

open Step

/-- The block that belongs to the text, or to the call at a place. -/
def index? (s : StreamState) : Option Nat → Option Nat
  | none => s.textBlock
  | some p => s.callBlocks.find? p

theorem index?_insert (s : StreamState) (e : Envelope) (p i : Nat) :
    index? { s with envelope := e, callBlocks := s.callBlocks.insert p i }
      = Function.update s.index? (some p) (some i) := by
  funext owner
  cases owner with
  | none => rfl
  | some q =>
    by_cases hq : q = p
    · subst hq
      rw [Function.update_self]
      exact Table.find?_insert_self _ _ _
    · rw [Function.update_of_ne (by simpa using hq)]
      exact Table.find?_insert_of_ne _ hq _

/-- All blocks are open and as far as they are said to be, and the state knows whom they belong to.
-/
structure Owns (owners : List (Option Nat)) (made : Option Nat → OpenBlock) (events : List Event)
    (s : StreamState) : Prop where
  started : s.envelope.started = true
  blocks : Holds s.envelope events (owners.map made)
  index : ∀ owner i, s.index? owner = some i ↔ owners[i]? = some owner

namespace Owns

variable {owners : List (Option Nat)} {made : Option Nat → OpenBlock} {events : List Event}
  {s t : StreamState} {owner : Option Nat} {i : Nat}

theorem mem_iff (h : Owns owners made events s) : owner ∈ owners ↔ (s.index? owner).isSome := by
  simp only [List.mem_iff_getElem?, Option.isSome_iff_exists, h.index]

theorem congr (h : Owns owners made events s) (hsame : t.envelope.SameBlocks s.envelope)
    (hindex : t.index? = s.index?) : Owns owners made events t :=
  ⟨hsame.started.trans h.started, h.blocks.congr hsame, by rw [hindex]; exact h.index⟩

theorem openBlock (h : Owns owners made events s) (owner : Option Nat)
    (hnew : s.index? owner = none) (o : Opening)
    (henvelope : t.envelope = (s.envelope.openBlock o).1)
    (hindex : t.index? = Function.update s.index? owner (some s.envelope.next)) :
    Owns (owners ++ [owner]) (Function.update made owner (.ofOpening o))
      (events ++ (s.envelope.openBlock o).2) t := by
  have hnext : s.envelope.next = owners.length := by rw [h.blocks.next, List.length_map]
  have hnot : owner ∉ owners := by simp [h.mem_iff, hnew]
  refine ⟨?_, ?_, fun x i => ?_⟩
  · rw [henvelope]
    exact h.started
  · have hsame : owners.map (Function.update made owner (.ofOpening o)) = owners.map made :=
      List.map_congr_left fun x hx =>
        Function.update_of_ne (ne_of_mem_of_not_mem hx hnot) _ _
    rw [henvelope, List.map_append, hsame, List.map_singleton, Function.update_self]
    exact h.blocks.openBlock h.started o
  · rw [hindex, getElem?_concat_eq_some_iff, ← h.index, ← hnext]
    by_cases hx : x = owner
    · subst hx
      simp [hnew, eq_comm]
    · simp [Function.update_of_ne hx, Ne.symm hx]

theorem grow (h : Owns owners made events s) (owner : Option Nat)
    (hi : s.index? owner = some i) {f : Fragment} {block : OpenBlock}
    (hf : (made owner).grow? f = some block) :
    Owns owners (Function.update made owner block) (events ++ [.blockDelta i f]) s := by
  have hown : owners[i]? = some owner := (h.index owner i).1 hi
  have honly : ∀ j, owners[j]? = some owner ↔ i = j := fun j => by
    rw [← h.index, hi, Option.some.injEq]
  refine ⟨h.started, ?_, h.index⟩
  rw [map_update_eq_set honly]
  exact h.blocks.grow (by rw [List.getElem?_map, hown]; rfl) hf

/-- The arguments of a call grow; without more text there is no event. -/
theorem growArguments (h : Owns owners made events s) (owner : Option Nat)
    (hi : s.index? owner = some i) {id name text : String}
    (hmade : made owner = .toolCall id name text) (more : String) :
    Owns owners (Function.update made owner (.toolCall id name (text ++ more)))
      (events ++ argumentEvents i more) s := by
  unfold argumentEvents
  split
  case isTrue hempty =>
    obtain rfl := String.isEmpty_iff.1 hempty
    rw [String.append_empty, ← hmade, Function.update_eq_self, List.append_nil]
    exact h
  case isFalse => exact h.grow owner hi (by rw [hmade]; rfl)

end Owns

/-- The blocks so far are those of a text and of the calls that the pieces make. -/
def Gathers (ps : List Json) (events : List Event) (s : StreamState) : Prop :=
  ∃ owners made, Owns owners made events s ∧ owners.reduceOption = places ps ∧
    ∀ owner ∈ owners, Spells ps owner (made owner)

variable {ps : List Json} {events : List Event} {s s' : StreamState}

theorem Gathers.congr (h : Gathers ps events s) (hsame : s'.envelope.SameBlocks s.envelope)
    (hindex : s'.index? = s.index?) : Gathers ps events s' := by
  obtain ⟨owners, made, howns, hgathered⟩ := h
  exact ⟨owners, made, howns.congr hsame hindex, hgathered⟩

theorem addText_gathers (text : String) : Keeps (Gathers ps) (addText text) := by
  unfold addText
  split
  · exact leads_skip fun _ _ h => h
  · refine leads_emit fun events s hgathers => ?_
    obtain ⟨owners, made, howns, hplaces, hspells⟩ := hgathers
    have hothers : ∀ x ∈ owners, x ≠ none → Spells ps x (made x) := fun x hx _ => hspells x hx
    cases hblock : s.textBlock with
    | some i =>
      have hmem : none ∈ owners := howns.mem_iff.2 (by rw [index?, hblock]; rfl)
      obtain ⟨early, hmade⟩ := hspells none hmem
      exact ⟨owners, _, howns.grow none hblock (f := .text text) (by rw [hmade]; rfl), hplaces,
        Spells.update (fun _ => .inl) hothers ⟨_, rfl⟩⟩
    | none =>
      have hopened := howns.openBlock none hblock (.text "")
        (t := { s with
          envelope := (s.envelope.openBlock (.text "")).1, textBlock := some s.envelope.next })
        rfl (funext fun owner => by cases owner <;> rfl)
      have hgrown := hopened.grow none (i := s.envelope.next) (f := .text text) rfl
        (by rw [Function.update_self]; rfl)
      rw [Function.update_idem, List.append_assoc] at hgrown
      refine ⟨_, _, hgrown, ?_, Spells.update (by simp) hothers ⟨_, rfl⟩⟩
      rw [List.reduceOption_append, hplaces]
      exact List.append_nil _

theorem addCall_gathers (piece : Json) :
    Leads (Gathers ps) (Gathers (ps ++ [piece])) (addCall piece) := by
  intro events s s' more hgathers hs
  obtain ⟨owners, made, howns, hplaces, hspells⟩ := hgathers
  have hothers : ∀ x ∈ owners, x ≠ some (place piece) → Spells (ps ++ [piece]) x (made x) :=
    fun x hx hne => (hspells x hx).concat_of_ne hne
  have hmem : some (place piece) ∈ owners ↔ place piece ∈ places ps := by
    rw [← hplaces, List.reduceOption_mem_iff]
  cases hcall : s.callBlocks.find? (place piece) with
  | some i =>
    -- the id of this piece is not looked at: it may be any
    obtain ⟨rfl, hmore⟩ := Prod.mk.inj ((addCall_eq_of_some hcall).symm.trans hs)
    obtain rfl := Except.ok.inj hmore
    have hold : some (place piece) ∈ owners := howns.mem_iff.2 (by rw [index?, hcall]; rfl)
    obtain ⟨id, name, text, hmade, hspelled⟩ := (hspells _ hold).exists_of_concat
    refine ⟨owners, _, howns.growArguments (some (place piece)) hcall hmade _, ?_,
      Spells.update (fun _ => .inl) hothers hspelled⟩
    rw [places_concat, if_pos (hmem.1 hold), hplaces]
  | none =>
    have hnew : place piece ∉ places ps := by
      rw [← hmem, howns.mem_iff, index?, hcall]
      simp
    cases hid : pieceId? piece with
    | none =>
      obtain ⟨err, herr⟩ := exists_addCall_eq_error hid hcall
      cases (Prod.mk.inj (herr.symm.trans hs)).2
    | some id =>
      -- the block begins without arguments, and those of the piece are added at once
      obtain ⟨rfl, hmore⟩ := Prod.mk.inj ((addCall_eq_of_none hid hcall).symm.trans hs)
      obtain rfl := Except.ok.inj hmore
      have hopened := howns.openBlock (some (place piece)) hcall
        (.toolCall id (pieceName piece))
        (t := { s with
          envelope := (s.envelope.openBlock (.toolCall id (pieceName piece))).1
          callBlocks := s.callBlocks.insert (place piece) s.envelope.next })
        rfl (index?_insert s _ _ _)
      have hgrown := hopened.growArguments (some (place piece)) (i := s.envelope.next)
        (Table.find?_insert_self _ _ _) (Function.update_self ..) (pieceArguments piece)
      rw [Function.update_idem, List.append_assoc, String.empty_append] at hgrown
      refine ⟨_, _, hgrown, ?_, Spells.update (by simp) hothers (.first hid hnew)⟩
      rw [List.reduceOption_append, hplaces, places_concat, if_neg hnew]
      rfl

/-! ## Chunks -/

theorem noteUsage_gathers (chunk : Json) : Keeps (Gathers ps) (noteUsage chunk) := by
  unfold noteUsage
  split
  · exact leads_update fun _ _ h => h.congr (.of_eq rfl rfl rfl rfl) rfl
  · exact leads_skip fun _ _ h => h

theorem noteFinish_gathers (choice : Json) : Keeps (Gathers ps) (noteFinish choice) := by
  unfold noteFinish
  split
  · exact leads_update fun _ _ h => h.congr (.of_eq rfl rfl rfl rfl) rfl
  · exact leads_skip fun _ _ h => h

theorem addRefusal_gathers (text : String) : Keeps (Gathers ps) (addRefusal text) :=
  leads_update fun _ _ h => h.congr (.of_eq rfl rfl rfl rfl) rfl

theorem addCalls_gather (more : List Json) :
    Leads (Gathers ps) (Gathers (ps ++ more)) (sequence (more.map addCall)) := by
  have hpieces := leads_sequence_map (f := addCall) (P := fun before => Gathers (ps ++ before))
    fun before piece after (_ : more = before ++ piece :: after) => by
      rw [← List.append_assoc]
      exact addCall_gathers piece
  rwa [List.append_nil] at hpieces

/-- Nothing but end marks has come. -/
def Idle (events : List Event) (s : StreamState) : Prop :=
  events = [] ∧ ∃ terminal, s = { envelope := { terminal } }

/-- The pieces have been gathered; before the first chunk nothing has happened. -/
def Taken (ps : List Json) (events : List Event) (s : StreamState) : Prop :=
  (ps = [] ∧ Idle events s) ∨ Gathers ps events s

theorem start_gathers : Leads (Taken ps) (Gathers ps) start := by
  refine leads_emit fun events s h => ?_
  rcases h with ⟨rfl, rfl, terminal, rfl⟩ | ⟨owners, made, howns, hgathered⟩
  · obtain ⟨hholds, hstarted⟩ := (Envelope.holds_new .openai).start
    refine ⟨[], fun _ => .text "", ⟨rfl, ?_, fun owner i => ?_⟩, rfl, by simp⟩
    · exact (Holds.of_envelope hholds nofun).congr (.of_eq rfl rfl rfl rfl)
    · cases owner <;> simp [index?, Table.find?, Table.empty]
  · have hstart : s.envelope.start = (s.envelope, []) := if_pos howns.started
    simp only [hstart, List.append_nil]
    exact ⟨owners, made, howns, hgathered⟩

theorem addChunk_gathers {chunk : Json} (hfailure : Chunk.failure? chunk = none) :
    Leads (Taken ps) (Gathers (ps ++ pieces chunk)) (addChunk chunk) := by
  rw [addChunk, hfailure]
  refine leads_sequence_cons start_gathers (leads_sequence_cons (noteUsage_gathers chunk)
    (leads_sequence_cons (J := Gathers (ps ++ pieces chunk)) ?_ (leads_skip fun _ _ h => h)))
  split
  case h_1 choice hchoice =>
    have hgiven : ((choice.get "delta").get "tool_calls").elements?.getD [] = pieces chunk := by
      rw [pieces, delta, firstChoice, hchoice]
      rfl
    rw [← hgiven]
    exact leads_sequence_cons (addText_gathers _) (leads_sequence_cons (addRefusal_gathers _)
      (leads_sequence_cons (addCalls_gather _) (leads_sequence_cons (noteFinish_gathers choice)
        (leads_skip fun _ _ h => h))))
  case h_2 hnone =>
    have hempty : pieces chunk = [] := by
      rw [pieces, delta, firstChoice, hnone]
      rfl
    rw [hempty, List.append_nil]
    exact leads_skip fun _ _ h => h

end StreamState

end ChatWire.OpenAI
