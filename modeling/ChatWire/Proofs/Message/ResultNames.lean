import ChatWire.Message.ResultNames
import ChatWire.Proofs.Lists

/-!
# Names of tool results

Naming the results in messages changes nothing but names of results (`isNamed_nameResultsIn`), and a
name that is given is that of the last call before the result with its id (`find?_nameResultsIn`,
`find?_namesAfter`). So what becomes of a block is told by the calls before it alone
(`nameResults_by_last_call`).
-/

namespace ChatWire

/-! ## Calls and results in a message -/

theorem mem_filterMap_toolCall? {content : List Block} {call : ToolCall} :
    call ∈ content.filterMap Block.toolCall? ↔ .toolCall call ∈ content := by
  rw [List.mem_filterMap]
  constructor
  · rintro ⟨b, hb, hcall⟩
    cases b with
    | toolCall c =>
      obtain rfl := Option.some.inj hcall
      exact hb
    | _ => cases hcall
  · intro h
    exact ⟨_, h, rfl⟩

theorem Message.mem_toolCalls {m : Message} {call : ToolCall} :
    call ∈ m.toolCalls ↔ .toolCall call ∈ m.content := mem_filterMap_toolCall?

theorem Message.mem_toolResults {m : Message} {r : ToolResult} :
    r ∈ m.toolResults ↔ .toolResult r ∈ m.content := by
  rw [toolResults, List.mem_filterMap]
  constructor
  · rintro ⟨b, hb, hresult⟩
    cases b with
    | toolResult r =>
      obtain rfl := Option.some.inj hresult
      exact hb
    | _ => cases hresult
  · intro h
    exact ⟨_, h, rfl⟩

/-! ## Blocks with names -/

/-- A block and the same with a name in it, if it is a result. -/
inductive IsNamed : Block → Block → Prop
  | same (b : Block) : IsNamed b b
  | result (r : ToolResult) (name : String) :
      IsNamed (.toolResult r) (.toolResult { r with name })

theorem isNamed_nameResult (names : CallNames) (b : Block) : IsNamed b (nameResult names b).2 := by
  cases b with
  | toolResult r =>
    rw [nameResult]
    split
    · exact .result r _
    · exact .same _
  | _ => exact .same _

theorem isNamed_nameResultsIn (names : CallNames) (content : List Block) :
    List.Forall₂ IsNamed content (nameResultsIn names content).2 := by
  induction content generalizing names with
  | nil => exact .nil
  | cons b rest ih => exact .cons (isNamed_nameResult names b) (ih _)

/-- Only results are named. -/
theorem nameResultsIn_of_notMem (names : CallNames) {content : List Block}
    (h : ∀ r, .toolResult r ∉ content) : (nameResultsIn names content).2 = content := by
  induction content generalizing names with
  | nil => rfl
  | cons b rest ih =>
    have hrest : ∀ r, .toolResult r ∉ rest := fun r hr => h r (List.mem_cons_of_mem _ hr)
    have hb : (nameResult names b).2 = b := by
      cases b with
      | toolResult r => exact absurd List.mem_cons_self (h r)
      | _ => rfl
    rw [nameResultsIn]
    exact congrArg₂ List.cons hb (ih _ hrest)

theorem mem_of_mem_nameResultsIn {names : CallNames} {content : List Block} {b : Block}
    (h : b ∈ (nameResultsIn names content).2) : ∃ c ∈ content, IsNamed c b :=
  exists_mem_of_forall₂ (isNamed_nameResultsIn names content).flip h

theorem mem_nameResultsIn_of_mem {names : CallNames} {content : List Block} {b : Block}
    (h : b ∈ content) : ∃ c ∈ (nameResultsIn names content).2, IsNamed b c :=
  exists_mem_of_forall₂ (isNamed_nameResultsIn names content) h

/-- Blocks that are no results are the same with and without names. -/
theorem mem_nameResultsIn_iff {names : CallNames} {content : List Block} {b : Block}
    (hb : b.isToolResult = false) : b ∈ (nameResultsIn names content).2 ↔ b ∈ content := by
  constructor
  · intro h
    obtain ⟨c, hc, hnamed⟩ := mem_of_mem_nameResultsIn h
    cases hnamed with
    | same => exact hc
    | result r name => cases hb
  · intro h
    obtain ⟨c, hc, hnamed⟩ := mem_nameResultsIn_of_mem h
    cases hnamed with
    | same => exact hc
    | result r name => cases hb

/-- The names of the tools that messages have called. -/
def namesAfter (names : CallNames) (messages : List Message) : CallNames :=
  messages.foldl (fun names m => (nameResultsIn names m.content).1) names

theorem nameResultsFrom_append (names : CallNames) (earlier later : List Message) :
    nameResultsFrom names (earlier ++ later)
      = nameResultsFrom names earlier ++ nameResultsFrom (namesAfter names earlier) later := by
  induction earlier generalizing names with
  | nil => rfl
  | cons m rest ih => exact congrArg (List.cons _) (ih _)

/-! ## The last call with an id -/

/-- The last of some calls that has an id. -/
def lastCall? (calls : List ToolCall) (id : String) : Option ToolCall :=
  (calls.filter fun c => c.id = id).getLast?

theorem lastCall?_append (earlier later : List ToolCall) (id : String) :
    lastCall? (earlier ++ later) id = (lastCall? later id).or (lastCall? earlier id) := by
  rw [lastCall?, List.filter_append, List.getLast?_append]
  rfl

theorem lastCall?_eq_some_iff {calls : List ToolCall} {id : String} {c : ToolCall} :
    lastCall? calls id = some c ↔
      ∃ before after, calls = before ++ c :: after ∧ c.id = id ∧ ∀ d ∈ after, d.id ≠ id := by
  constructor
  · intro h
    obtain ⟨front, hfront⟩ := List.getLast?_eq_some_iff.1 h
    obtain ⟨before, after, hcalls, -, hid, hafter⟩ := filter_eq_append_cons hfront
    refine ⟨before, after, hcalls, of_decide_eq_true hid, fun d hd heq => ?_⟩
    have hnone := List.filter_eq_nil_iff.1 hafter d hd
    exact hnone (decide_eq_true heq)
  · rintro ⟨before, after, rfl, hid, hafter⟩
    have hnone : after.filter (fun d => d.id = id) = [] :=
      List.filter_eq_nil_iff.2 fun d hd => by simpa using hafter d hd
    rw [lastCall?, List.filter_append, List.filter_cons_of_pos (by simpa using hid), hnone,
      List.getLast?_concat]

theorem lastCall?_eq_none_iff {calls : List ToolCall} {id : String} :
    lastCall? calls id = none ↔ ∀ c ∈ calls, c.id ≠ id := by
  rw [lastCall?, List.getLast?_eq_none_iff, List.filter_eq_nil_iff]
  simp

theorem find?_nameResult (names : CallNames) (b : Block) (id : String) :
    (nameResult names b).1.find? id
      = ((lastCall? b.toolCall?.toList id).map ToolCall.name).or (names.find? id) := by
  cases b with
  | toolCall c =>
    show (names.insert c.id c.name).find? id = _
    by_cases hid : c.id = id
    · subst hid
      rw [Table.find?_insert_self]
      simp [lastCall?, Block.toolCall?]
    · rw [Table.find?_insert_of_ne names (Ne.symm hid)]
      simp [lastCall?, Block.toolCall?, hid]
  | toolResult r =>
    rw [nameResult]
    split <;> rfl
  | _ => rfl

/-- The name that is noted for an id behind some blocks is that of the last call among them, or else
the one that was noted before. -/
theorem find?_nameResultsIn (names : CallNames) (content : List Block) (id : String) :
    (nameResultsIn names content).1.find? id
      = ((lastCall? (content.filterMap Block.toolCall?) id).map ToolCall.name).or
          (names.find? id) := by
  induction content generalizing names with
  | nil => rfl
  | cons b rest ih =>
    have hcalls : (b :: rest).filterMap Block.toolCall?
        = b.toolCall?.toList ++ rest.filterMap Block.toolCall? := by
      cases h : b.toolCall? <;> simp [h]
    rw [nameResultsIn, hcalls, lastCall?_append, Option.map_or, Option.or_assoc,
      ← find?_nameResult]
    exact ih _

theorem find?_namesAfter (names : CallNames) (messages : List Message) (id : String) :
    (namesAfter names messages).find? id
      = ((lastCall? (messages.flatMap Message.toolCalls) id).map ToolCall.name).or
          (names.find? id) := by
  induction messages generalizing names with
  | nil => rfl
  | cons m rest ih =>
    rw [List.flatMap_cons, lastCall?_append, Option.map_or, Option.or_assoc, Message.toolCalls,
      ← find?_nameResultsIn]
    exact ih _

/-! ## What stands at each place -/

theorem length_nameResultsFrom (names : CallNames) (messages : List Message) :
    (nameResultsFrom names messages).length = messages.length := by
  induction messages generalizing names with
  | nil => rfl
  | cons m rest ih => exact congrArg Nat.succ (ih _)

theorem nameResultsIn_append (names : CallNames) (front back : List Block) :
    (nameResultsIn names (front ++ back)).2
      = (nameResultsIn names front).2
        ++ (nameResultsIn (nameResultsIn names front).1 back).2 := by
  induction front generalizing names with
  | nil => rfl
  | cons b rest ih => exact congrArg (List.cons _) (ih _)

/-- What becomes of a block with some calls before it. -/
inductive IsNamedBehind (calls : List ToolCall) : Block → Block → Prop
  /-- Anything but a result without a name is kept. -/
  | kept {b : Block} (h : ∀ r, b = .toolResult r → r.name ≠ "") : IsNamedBehind calls b b
  /-- The last call with the result's id has the name. -/
  | called {r : ToolResult} {before after : List ToolCall} {c : ToolCall} (hname : r.name = "")
      (hcalls : calls = before ++ c :: after) (hid : c.id = r.id)
      (hlast : ∀ d ∈ after, d.id ≠ r.id) :
      IsNamedBehind calls (.toolResult r) (.toolResult { r with name := c.name })
  /-- There is no call with the result's id. -/
  | uncalled {r : ToolResult} (hname : r.name = "") (hnone : ∀ c ∈ calls, c.id ≠ r.id) :
      IsNamedBehind calls (.toolResult r) (.toolResult r)

theorem isNamedBehind_nameResult {names : CallNames} {calls : List ToolCall}
    (hnames : ∀ id, names.find? id = (lastCall? calls id).map ToolCall.name) (b : Block) :
    IsNamedBehind calls b (nameResult names b).2 := by
  cases b with
  | toolResult r =>
    rw [nameResult]
    split
    case isTrue hempty =>
      have hname : r.name = "" := String.isEmpty_iff.1 hempty
      rw [hnames]
      cases hlast : lastCall? calls r.id with
      | none =>
        exact .uncalled hname (lastCall?_eq_none_iff.1 hlast)
      | some c =>
        obtain ⟨before, after, hcalls, hid, hafter⟩ := lastCall?_eq_some_iff.1 hlast
        exact .called hname hcalls hid hafter
    case isFalse hnamed =>
      refine .kept fun r' hr' hname => hnamed ?_
      obtain rfl := Block.toolResult.inj hr'
      rw [hname]
      rfl
  | _ => exact .kept fun r hr => nomatch hr

/-- The calls that stand before a place in a message, of which the blocks in front are given, and
the messages before it. -/
def callsBefore (earlier : List Message) (front : List Block) : List ToolCall :=
  earlier.flatMap Message.toolCalls ++ front.filterMap Block.toolCall?

theorem find?_namesBefore (earlier : List Message) (front : List Block) (id : String) :
    (nameResultsIn (namesAfter .empty earlier) front).1.find? id
      = (lastCall? (callsBefore earlier front) id).map ToolCall.name := by
  have hempty : (Table.empty : CallNames).find? id = none := rfl
  rw [find?_nameResultsIn, find?_namesAfter, hempty, Option.or_none, callsBefore,
    lastCall?_append, Option.map_or]

/-- A message is kept but for the names in it. -/
theorem getElem?_nameResults {messages : List Message} {i : Nat} {m : Message}
    (h : messages[i]? = some m) :
    (nameResults messages)[i]? = some { m with
      content := (nameResultsIn (namesAfter .empty (messages.take i)) m.content).2 } := by
  obtain ⟨hlength, back, hsplit⟩ := exists_append_cons_of_getElem? h
  have hnamed : nameResults messages = nameResultsFrom .empty (messages.take i)
      ++ nameResultsFrom (namesAfter .empty (messages.take i)) (m :: back) := by
    rw [← nameResultsFrom_append, ← hsplit, nameResults]
  rw [hnamed]
  exact getElem?_append_cons ((length_nameResultsFrom _ _).trans hlength)

/-- What a block becomes depends on the calls before it. -/
theorem exists_getElem?_nameResultsIn (earlier : List Message) {content : List Block} {j : Nat}
    {b : Block} (h : content[j]? = some b) :
    ∃ b', (nameResultsIn (namesAfter .empty earlier) content).2[j]? = some b' ∧
      IsNamedBehind (callsBefore earlier (content.take j)) b b' := by
  obtain ⟨hlength, back, hsplit⟩ := exists_append_cons_of_getElem? h
  have hnamed := nameResultsIn_append (namesAfter .empty earlier) (content.take j) (b :: back)
  rw [← hsplit] at hnamed
  rw [hnamed]
  exact ⟨_, getElem?_append_cons ((isNamed_nameResultsIn _ _).length_eq.symm.trans hlength),
    isNamedBehind_nameResult (find?_namesBefore earlier (content.take j)) b⟩

/-- Whatever stands in a message with names was made of the block in its place. -/
theorem exists_of_getElem?_nameResults {messages : List Message} {i j : Nat} {m' : Message}
    {b' : Block} (hm' : (nameResults messages)[i]? = some m') (hb' : m'.content[j]? = some b') :
    ∃ earlier m later front b back, messages = earlier ++ m :: later ∧ earlier.length = i ∧
      m.content = front ++ b :: back ∧ front.length = j ∧
      IsNamedBehind (callsBefore earlier front) b b' := by
  obtain ⟨hbound, -⟩ := List.getElem?_eq_some_iff.1 hm'
  rw [nameResults, length_nameResultsFrom] at hbound
  have hm := List.getElem?_eq_getElem hbound
  obtain ⟨hi, later, hmessages⟩ := exists_append_cons_of_getElem? hm
  rw [getElem?_nameResults hm] at hm'
  obtain rfl := Option.some.inj hm'
  obtain ⟨hplace, -⟩ := List.getElem?_eq_some_iff.1 hb'
  rw [← (isNamed_nameResultsIn _ _).length_eq] at hplace
  have hb := List.getElem?_eq_getElem hplace
  obtain ⟨hj, back, hcontent⟩ := exists_append_cons_of_getElem? hb
  obtain ⟨b'', hb'', hnamed⟩ := exists_getElem?_nameResultsIn (messages.take i) hb
  obtain rfl := Option.some.inj (hb'.symm.trans hb'')
  exact ⟨_, _, later, _, _, back, hmessages, hi, hcontent, hj, hnamed⟩

/-! ## Naming twice -/

theorem nameResult_nameResult (names : CallNames) (b : Block) :
    nameResult names (nameResult names b).2 = nameResult names b := by
  cases b with
  | toolResult r =>
    by_cases hempty : r.name.isEmpty
    · rw [nameResult, if_pos hempty, nameResult]
      split
      case isTrue hstill =>
        -- no name is found for the id, or an empty one; either is found again
        have hsame : (names.find? r.id).getD ((names.find? r.id).getD r.name)
            = (names.find? r.id).getD r.name := by
          cases names.find? r.id <;> rfl
        simp only [hsame]
      case isFalse => rfl
    · rw [nameResult, if_neg hempty, nameResult, if_neg hempty]
  | _ => rfl

theorem nameResultsIn_nameResultsIn (names : CallNames) (content : List Block) :
    nameResultsIn names (nameResultsIn names content).2 = nameResultsIn names content := by
  induction content generalizing names with
  | nil => rfl
  | cons b rest ih =>
    simp only [nameResultsIn, nameResult_nameResult, ih]

theorem nameResultsFrom_nameResultsFrom (names : CallNames) (messages : List Message) :
    nameResultsFrom names (nameResultsFrom names messages) = nameResultsFrom names messages := by
  induction messages generalizing names with
  | nil => rfl
  | cons m rest ih =>
    simp only [nameResultsFrom, nameResultsIn_nameResultsIn, ih]

/-- Naming keeps every message but for the names of results without one. Such a result gets the name
of the last call with its id among the calls before it, those of earlier messages and those in front
of it in its own, and stays without a name if there is no such call. Naming once more changes
nothing. -/
theorem nameResults_by_last_call (messages : List Message) :
    (nameResults messages).length = messages.length ∧
    (∀ i m, messages[i]? = some m → ∃ content,
      (nameResults messages)[i]? = some { m with content } ∧ content.length = m.content.length ∧
      ∀ j b, m.content[j]? = some b → ∃ b', content[j]? = some b' ∧
        IsNamedBehind (callsBefore (messages.take i) (m.content.take j)) b b') ∧
    nameResults (nameResults messages) = nameResults messages := by
  refine ⟨length_nameResultsFrom .empty messages, fun i m hm => ?_,
    nameResultsFrom_nameResultsFrom .empty messages⟩
  refine ⟨_, getElem?_nameResults hm, (isNamed_nameResultsIn _ m.content).length_eq.symm, ?_⟩
  intro j b hb
  exact exists_getElem?_nameResultsIn (messages.take i) hb

/-- An id that is used again stands for the later call from there on. -/
example :
    nameResults [
      { role := .assistant, content := [.toolResult ⟨"c", "", "0", false⟩,
          .toolCall ⟨"c", "sun", .emptyObject⟩, .toolResult ⟨"c", "", "1", false⟩] },
      { role := .assistant, content := [.toolCall ⟨"c", "rain", .emptyObject⟩] },
      .ofToolResult ⟨"c", "", "2", false⟩]
    = [
      { role := .assistant, content := [.toolResult ⟨"c", "", "0", false⟩,
          .toolCall ⟨"c", "sun", .emptyObject⟩, .toolResult ⟨"c", "sun", "1", false⟩] },
      { role := .assistant, content := [.toolCall ⟨"c", "rain", .emptyObject⟩] },
      .ofToolResult ⟨"c", "rain", "2", false⟩] := by
  decide

end ChatWire
