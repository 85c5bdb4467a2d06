import ChatWire.Dialect.Gemini

/-!
# Parts in the Gemini format

What kind of block a part gives is told by its members (`Gemini.Gives`). The id for a call that
comes without one is the only other thing that a part is read with, and it changes nothing but the
id: the outline of the block is the part's own (`Gemini.map_outline_decodePart`).
-/

namespace ChatWire.Gemini

open Dialect (argumentsOf requireText)

/-! ## The block of a part -/

/-- The block of a part, if it has one. -/
def block? (part : Json) : Option Block := (decodePart "" part).toOption.join

/-- The part gives the block: a text, which may be reasoning, or else media, a call or a result. -/
inductive Gives (freshId : String) (part : Json) : Block → Prop
  | text (s : String) (h : part.get? "text" = some (.string s))
      (hthought : isThought part = false) : Gives freshId part (.text s)
  | thinking (s : String) (h : part.get? "text" = some (.string s))
      (hthought : isThought part = true) :
      Gives freshId part (.thinking ⟨s, (signature? part).getD ""⟩)
  | attachment (a : Attachment) (h : part.get? "text" = none) : Gives freshId part (.attachment a)
  | toolCall (call : Json) (c : ToolCall) (h : part.get? "text" = none)
      (hcall : field? part "function_call" "functionCall" = some call)
      (hc : decodeCall freshId call = .ok c) : Gives freshId part (.toolCall c)
  | toolResult (r : ToolResult) (h : part.get? "text" = none) : Gives freshId part (.toolResult r)

theorem exists_of_map_ok {α : Type} {x : Except Error α} {f : α → Block} {b : Option Block}
    (h : (do return some (f (← x))) = Except.ok b) : ∃ a, x = .ok a ∧ b = some (f a) := by
  cases x with
  | error e => cases h
  | ok a => exact ⟨a, rfl, (Except.ok.inj h).symm⟩

/-- The blocks that a part can give. -/
theorem Gives.of_decodePart {freshId : String} {part : Json} {b : Block}
    (h : decodePart freshId part = .ok (some b)) : Gives freshId part b := by
  unfold decodePart at h
  split at h
  case h_1 s htext =>
    split at h
    case isTrue hthought =>
      obtain rfl := Option.some.inj (Except.ok.inj h)
      exact .thinking s htext hthought
    case isFalse hthought =>
      obtain rfl := Option.some.inj (Except.ok.inj h)
      exact .text s htext (by simpa using hthought)
  case h_2 => cases h
  case h_3 htext =>
    split at h
    case h_1 inline _ =>
      obtain ⟨a, -, hb⟩ := exists_of_map_ok h
      obtain rfl := Option.some.inj hb
      exact .attachment a htext
    case h_2 =>
      split at h
      case h_1 file _ =>
        obtain ⟨a, -, hb⟩ := exists_of_map_ok h
        obtain rfl := Option.some.inj hb
        exact .attachment a htext
      case h_2 =>
        split at h
        case h_1 call hcall =>
          obtain ⟨c, hc, hb⟩ := exists_of_map_ok h
          obtain rfl := Option.some.inj hb
          exact .toolCall call c htext hcall hc
        case h_2 =>
          split at h
          case h_1 response _ =>
            obtain ⟨r, -, hb⟩ := exists_of_map_ok h
            obtain rfl := Option.some.inj hb
            exact .toolResult r htext
          case h_2 => cases Except.ok.inj h

theorem arguments_of_decodeCall {freshId : String} {call : Json} {c : ToolCall}
    (h : decodeCall freshId call = .ok c) : c.arguments = argumentsOf (call.get "args") := by
  unfold decodeCall at h
  cases hname : requireText .gemini call "name" with
  | error e =>
    rw [hname] at h
    cases h
  | ok name =>
    rw [hname] at h
    obtain rfl := Except.ok.inj h
    rfl

/-- The id for a call without one is the only thing that a part is read with. -/
theorem decodePart_congr {freshId freshId' : String} {part : Json} {block : Option Block}
    (h : decodePart freshId part = .ok block)
    (hcall : ∀ call c, field? part "function_call" "functionCall" = some call →
      block = some (.toolCall c) → decodeCall freshId' call = .ok c) :
    decodePart freshId' part = .ok block := by
  unfold decodePart at h ⊢
  cases htext : part.get? "text" with
  | some text =>
    rw [htext] at h
    cases text with
    | string s => exact h
    | _ => cases h
  | none =>
    rw [htext] at h
    cases hinline : field? part "inline_data" "inlineData" with
    | some inline => rwa [hinline] at h
    | none =>
      rw [hinline] at h
      cases hfile : field? part "file_data" "fileData" with
      | some file => rwa [hfile] at h
      | none =>
        rw [hfile] at h
        cases hfound : field? part "function_call" "functionCall" with
        | none => rwa [hfound] at h
        | some call =>
          rw [hfound] at h
          obtain ⟨c, -, hblock⟩ := exists_of_map_ok h
          simp only [hcall call c hfound hblock, hblock]
          rfl

/-! ## Outlines -/

/-- A block without what a stream or a reader may give a call: its id, and its arguments as they are
spelled. -/
def outline : Block → Block
  | .toolCall c => .toolCall ⟨"", c.name, .null⟩
  | b => b

@[simp] theorem isThinking_outline (b : Block) : (outline b).isThinking = b.isThinking := by
  cases b <;> rfl

@[simp] theorem isToolCall_outline (b : Block) : (outline b).isToolCall = b.isToolCall := by
  cases b <;> rfl

/-- Only a call has an outline other than itself. -/
theorem outline_of_not_isToolCall {b : Block} (h : b.isToolCall = false) : outline b = b := by
  cases b with
  | toolCall c => cases h
  | _ => rfl

theorem eq_of_outline_eq {b b' : Block} (h : outline b = outline b')
    (hcall : b.isToolCall = false) : b = b' := by
  have hcall' : b'.isToolCall = false := by
    rw [← isToolCall_outline, ← h, isToolCall_outline, hcall]
  rwa [outline_of_not_isToolCall hcall, outline_of_not_isToolCall hcall'] at h

/-- With another id for a call a part still gives a block of the same outline. -/
theorem map_outline_decodePart (freshId freshId' : String) (part : Json) :
    (decodePart freshId part).map (Option.map outline)
      = (decodePart freshId' part).map (Option.map outline) := by
  have hcall (call : Json) :
      (do return some (Block.toolCall (← decodeCall freshId call))).map (Option.map outline)
        = (do return some (Block.toolCall (← decodeCall freshId' call))).map
            (Option.map outline) := by
    unfold decodeCall
    cases requireText .gemini call "name" <;> rfl
  unfold decodePart
  cases part.get? "text" with
  | some text => cases text <;> rfl
  | none =>
    cases field? part "inline_data" "inlineData" with
    | some inline => rfl
    | none =>
      cases field? part "file_data" "fileData" with
      | some file => rfl
      | none =>
        cases field? part "function_call" "functionCall" with
        | none => rfl
        | some call => exact hcall call

/-- A part that can be read is read as its own block, but for the id of a call. -/
theorem decodePart_block? {freshId : String} {part : Json} {block : Option Block}
    (h : decodePart freshId part = .ok block) : decodePart "" part = .ok (block? part) := by
  have hsame := map_outline_decodePart freshId "" part
  rw [h] at hsame
  cases hown : decodePart "" part with
  | error e =>
    rw [hown] at hsame
    cases hsame
  | ok own =>
    rw [block?, hown]
    rfl

/-- Whatever id a part was read with, the block has the outline of the part's own. -/
theorem map_outline_block? {freshId : String} {part : Json} {block : Option Block}
    (h : decodePart freshId part = .ok block) :
    (block? part).map outline = block.map outline := by
  have hsame := map_outline_decodePart freshId "" part
  rw [h, decodePart_block? h] at hsame
  exact (Except.ok.inj hsame).symm

theorem Gives.of_block? {part : Json} {b : Block} (h : block? part = some b) : Gives "" part b := by
  refine .of_decodePart ?_
  cases hown : decodePart "" part with
  | error e =>
    rw [block?, hown] at h
    cases h
  | ok own =>
    rw [block?, hown] at h
    exact congrArg Except.ok h

/-- Reasoning with a text gives reasoning, sealed with the part's own signature. -/
theorem block?_of_isThought {freshId : String} {part : Json} {block : Option Block}
    (h : decodePart freshId part = .ok block) (hthought : isThought part = true)
    (htext : (part.get? "text").isSome) :
    ∃ s, part.get? "text" = some (.string s) ∧
      block? part = some (.thinking ⟨s, (signature? part).getD ""⟩) := by
  have hown := decodePart_block? h
  obtain ⟨text, htext⟩ := Option.isSome_iff_exists.1 htext
  rw [decodePart, htext] at hown
  cases text with
  | string s =>
    rw [hthought] at hown
    exact ⟨s, htext, (Except.ok.inj hown).symm⟩
  | _ => cases hown

/-- A part gives reasoning exactly if it is reasoning and has a text. -/
theorem Gives.isThinking_iff {freshId : String} {part : Json} {b : Block}
    (h : Gives freshId part b) : b.isThinking ↔ isThought part ∧ (part.get? "text").isSome := by
  cases h with
  | text s h hthought => simp [Block.isThinking, hthought]
  | thinking s h hthought => simp [Block.isThinking, h, hthought]
  | _ => simp [Block.isThinking, *]

/-- The reasoning of a part is sealed with the part's own signature. -/
theorem Gives.signature_eq {freshId : String} {part : Json} {t : Thinking}
    (h : Gives freshId part (.thinking t)) :
    isThought part = true ∧ (part.get? "text").isSome ∧
      t.signature = (signature? part).getD "" := by
  cases h with
  | thinking s h hthought => exact ⟨hthought, by simp [h], rfl⟩

end ChatWire.Gemini
