import ChatWire.Table
import Mathlib.Data.Finset.Sort

/-!
# What a table lists

The entries of a table are told by its look-ups: an entry is listed exactly if a look-up finds it,
and since the keys increase, the order in which the entries are listed is told as well. So a table
can be built from its entries in any order. In the table of a list with several values under one key
the last of them counts (`Table.find?_ofList_concat`).
-/

namespace ChatWire.Table

universe u v

section Lookup

variable {κ : Type u} {α : Type v} [Ord κ] [Std.LawfulEqOrd κ]

omit [Std.LawfulEqOrd κ] in
/-- A look-up finds nothing in the empty table. -/
@[simp] theorem find?_empty (key : κ) : (empty : Table κ α).find? key = none := rfl

/-- What a look-up finds is listed under the key. -/
theorem mem_entries_of_find? {t : Table κ α} {key : κ} {value : α} (h : t.find? key = some value) :
    (key, value) ∈ t.entries := by
  obtain ⟨e, he, rfl⟩ := Option.map_eq_some_iff.1 h
  have hkey : compare key e.1 = .eq := by simpa using List.find?_some he
  rw [Std.LawfulEqCmp.eq_of_compare hkey]
  exact List.mem_of_find?_eq_some he

/-- What is listed is found: no other entry has the same key. -/
theorem find?_of_mem_entries {t : Table κ α} {key : κ} {value : α} (h : (key, value) ∈ t.entries) :
    t.find? key = some value := by
  obtain ⟨entries, sorted⟩ := t
  simp only [find?]
  induction entries with
  | nil => simp at h
  | cons head rest ih =>
    have hhead := (List.pairwise_cons.1 sorted).1
    rcases List.mem_cons.1 h with rfl | h
    · simp
    · have hne : compare key head.1 ≠ .eq := by
        intro heq
        have hlt := hhead _ h
        rw [Std.LawfulEqCmp.eq_of_compare heq] at hlt
        simp at hlt
      rw [List.find?_cons_of_neg (by simpa using hne)]
      exact ih (List.pairwise_cons.1 sorted).2 h

theorem mem_entries_iff {t : Table κ α} {key : κ} {value : α} :
    (key, value) ∈ t.entries ↔ t.find? key = some value :=
  ⟨find?_of_mem_entries, mem_entries_of_find?⟩

/-- What is picked from the entries is picked key by key. -/
theorem filterMap_entries {β : Type*} (t : Table κ α) (pick : α → Option β) :
    t.entries.filterMap (fun e => pick e.2)
      = (t.entries.map Prod.fst).filterMap fun key => (t.find? key).bind pick := by
  rw [List.filterMap_map]
  refine List.filterMap_congr fun e he => ?_
  have hfind : t.find? e.1 = some e.2 := find?_of_mem_entries he
  simp [hfind]

end Lookup

/-- The keys are listed in ascending order, each once. -/
theorem keys_eq_sort {α : Type v} (t : Table Nat α) (keys : Finset Nat)
    (h : ∀ i, i ∈ keys ↔ t.find? i ≠ none) : t.entries.map Prod.fst = keys.sort := by
  have hlt : (t.entries.map Prod.fst).Pairwise (· < ·) := by
    rw [List.pairwise_map]
    exact t.sorted.imp fun hab => Nat.compare_eq_lt.1 hab
  have hkeys : (t.entries.map Prod.fst).toFinset = keys := by
    ext i
    rw [List.mem_toFinset, List.mem_map, h]
    constructor
    · rintro ⟨⟨j, value⟩, he, rfl⟩
      simp [find?_of_mem_entries he]
    · intro hi
      obtain ⟨value, hvalue⟩ := Option.ne_none_iff_exists'.1 hi
      exact ⟨_, mem_entries_of_find? hvalue, rfl⟩
  rw [← hkeys]
  exact ((List.toFinset_sort _ (hlt.imp ne_of_lt)).2 (hlt.imp le_of_lt)).symm

section Listing

variable {κ : Type u} {α : Type v} [Ord κ] [Std.LawfulEqOrd κ]

/-- A new entry is listed beside the old ones. -/
theorem perm_insertEntry {key : κ} {entries : List (κ × α)} (h : key ∉ entries.map Prod.fst)
    (value : α) : (insertEntry key value entries).Perm ((key, value) :: entries) := by
  induction entries with
  | nil => rfl
  | cons head rest ih =>
    obtain ⟨hhead, hrest⟩ := List.ne_and_not_mem_of_not_mem_cons h
    simp only [insertEntry]
    split
    case h_1 => rfl
    case h_2 heq => exact absurd (Std.LawfulEqCmp.eq_of_compare heq) hhead
    case h_3 => exact ((ih hrest).cons head).trans (List.Perm.swap _ _ _)

theorem nodup_keys (t : Table κ α) : (t.entries.map Prod.fst).Nodup := by
  rw [List.Nodup, List.pairwise_map]
  refine t.sorted.imp fun {a b} hlt heq => ?_
  have hself : compare b.1 b.1 = .eq := Std.ReflCmp.compare_self
  rw [heq, hself] at hlt
  cases hlt

variable [Std.TransOrd κ]

theorem perm_insertAll (t : Table κ α) {entries : List (κ × α)}
    (h : ((t.entries ++ entries).map Prod.fst).Nodup) :
    (t.insertAll entries).entries.Perm (t.entries ++ entries) := by
  induction entries generalizing t with
  | nil => rw [List.append_nil]; rfl
  | cons head rest ih =>
    have hfresh : head.1 ∉ t.entries.map Prod.fst := by
      rw [List.map_append, List.map_cons] at h
      exact fun hmem => List.disjoint_of_nodup_append h hmem List.mem_cons_self
    have hhead : (t.insert head.1 head.2).entries.Perm (head :: t.entries) :=
      perm_insertEntry hfresh head.2
    have hmoved : ((t.insert head.1 head.2).entries ++ rest).Perm (t.entries ++ head :: rest) :=
      (hhead.append_right rest).trans List.perm_middle.symm
    exact (ih _ ((hmoved.map Prod.fst).nodup_iff.2 h)).trans hmoved

/-- A table is told by its entries in any order. -/
theorem ofList_of_perm {t : Table κ α} {entries : List (κ × α)} (h : entries.Perm t.entries) :
    ofList entries = t := by
  have hlisted : (ofList entries).entries.Perm t.entries :=
    (perm_insertAll empty ((h.map Prod.fst).nodup_iff.2 t.nodup_keys)).trans h
  -- Both lists increase, and increasing lists of the same entries are equal.
  refine ext (hlisted.eq_of_pairwise (fun a b _ _ hab hba => ?_) (ofList entries).sorted t.sorted)
  have hself : compare a.1 a.1 = .eq := Std.ReflCmp.compare_self
  rw [Std.TransCmp.lt_trans hab hba] at hself
  cases hself

end Listing

section Lists

variable {κ : Type u} {α : Type v} [Ord κ] [Std.TransOrd κ] [Std.LawfulEqOrd κ]

theorem ofList_concat (entries : List (κ × α)) (e : κ × α) :
    ofList (entries ++ [e]) = (ofList entries).insert e.1 e.2 := by
  simp [ofList, insertAll]

/-- Of several values under one key the last counts. -/
theorem find?_ofList_concat [DecidableEq κ] (entries : List (κ × α)) (e : κ × α) (key : κ) :
    (ofList (entries ++ [e])).find? key
      = if e.1 = key then some e.2 else (ofList entries).find? key := by
  rw [ofList_concat]
  split
  case isTrue hkey => rw [hkey, find?_insert_self]
  case isFalse hkey => exact find?_insert_of_ne _ (Ne.symm hkey) _

/-- What is found in the table of a list stands in the list. -/
theorem mem_of_find?_ofList {entries : List (κ × α)} {key : κ} {value : α}
    (h : (ofList entries).find? key = some value) : (key, value) ∈ entries := by
  classical
  induction entries using List.reverseRecOn with
  | nil => cases h
  | append_singleton entries e ih =>
    rw [find?_ofList_concat] at h
    split at h
    case isTrue hkey =>
      rw [← hkey, ← Option.some.inj h]
      exact List.mem_append_right _ (List.mem_singleton_self _)
    case isFalse => exact List.mem_append_left _ (ih h)

theorem find?_ofList_eq_none {entries : List (κ × α)} {key : κ}
    (h : ∀ e ∈ entries, e.1 ≠ key) : (ofList entries).find? key = none := by
  rw [Option.eq_none_iff_forall_ne_some]
  intro value hvalue
  exact h _ (mem_of_find?_ofList hvalue) rfl

/-- An entry that no other one with its key contradicts is found. -/
theorem find?_ofList_of_mem {entries : List (κ × α)} {key : κ} {value : α}
    (h : (key, value) ∈ entries) (hall : ∀ e ∈ entries, e.1 = key → e.2 = value) :
    (ofList entries).find? key = some value := by
  classical
  induction entries using List.reverseRecOn with
  | nil => cases h
  | append_singleton entries e ih =>
    rw [find?_ofList_concat]
    split
    case isTrue hkey => rw [hall e (by simp) hkey]
    case isFalse hkey =>
      have hbefore : (key, value) ∈ entries := by
        rcases List.mem_append.1 h with hmem | hmem
        · exact hmem
        · exact absurd (congrArg Prod.fst (List.mem_singleton.1 hmem)).symm hkey
      exact ih hbefore fun e he => hall e (List.mem_append_left _ he)

end Lists

end ChatWire.Table
