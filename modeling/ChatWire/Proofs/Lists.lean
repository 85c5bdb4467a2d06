import Mathlib.Data.List.Forall2

/-!
# Lists

Where a list is cut, and what lists have in common whose elements stand in a relation one by one.
-/

namespace ChatWire

variable {α β : Type*}

/-- A list is cut at one of its places. -/
theorem exists_append_cons_of_getElem? {xs : List α} {i : Nat} {x : α}
    (h : xs[i]? = some x) : (xs.take i).length = i ∧ ∃ back, xs = xs.take i ++ x :: back := by
  obtain ⟨hlength, rfl⟩ := List.getElem?_eq_some_iff.1 h
  refine ⟨List.length_take_of_le (Nat.le_of_lt hlength), xs.drop (i + 1), ?_⟩
  rw [← List.drop_eq_getElem_cons hlength, List.take_append_drop]

theorem getElem?_append_cons {front back : List α} {x : α} {i : Nat}
    (h : front.length = i) : (front ++ x :: back)[i]? = some x := by
  simp [← h]

/-- A list is cut where a list of some of its elements is. -/
theorem filter_eq_append_cons {p : α → Bool} {xs front back : List α} {x : α}
    (h : xs.filter p = front ++ x :: back) :
    ∃ before after, xs = before ++ x :: after ∧ before.filter p = front ∧ p x = true ∧
      after.filter p = back := by
  obtain ⟨before, rest, rfl, hfront, hrest⟩ := List.filter_eq_append_iff.1 h
  obtain ⟨skipped, after, rfl, hskipped, hx, hback⟩ := List.filter_eq_cons_iff.1 hrest
  refine ⟨before ++ skipped, after, (List.append_assoc ..).symm, ?_, hx, hback⟩
  rw [List.filter_append, hfront, List.filter_eq_nil_iff.2 hskipped, List.append_nil]

/-- An element of one of two related lists is related to one of the other. -/
theorem exists_mem_of_forall₂ {R : α → β → Prop} {xs : List α} {ys : List β}
    (h : List.Forall₂ R xs ys) {x : α} (hx : x ∈ xs) : ∃ y ∈ ys, R x y := by
  induction h with
  | nil => cases hx
  | cons hxy _ ih =>
    rcases List.mem_cons.1 hx with rfl | hx
    · exact ⟨_, List.mem_cons_self, hxy⟩
    · obtain ⟨y, hy, hxy⟩ := ih hx
      exact ⟨y, List.mem_cons_of_mem _ hy, hxy⟩

end ChatWire
