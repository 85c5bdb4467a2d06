/-!
# Sorted tables

A `Table` assigns values to finitely many keys. Its entries stand in increasing key order and no key
occurs twice, so two tables that answer every look-up alike are equal, and listing a table lists it
in key order. Setting a key again replaces its value.

* `Table.find?_insert_self`, `Table.find?_insert_of_ne`: what a look-up finds after `insert`.
* `Table.ofList_entries`: building a table from its own entries gives the table back.
-/

namespace ChatWire

universe u v

variable {κ : Type u} {α : Type v} [Ord κ]

/-- Puts a value under a key into a list of entries that increases by key, in front of the first
greater key; a value that the key had is replaced. -/
def insertEntry (key : κ) (value : α) : List (κ × α) → List (κ × α)
  | [] => [(key, value)]
  | entry :: rest =>
    match compare key entry.1 with
    | .lt => (key, value) :: entry :: rest
    | .eq => (key, value) :: rest
    | .gt => entry :: insertEntry key value rest

/-- Entries increase strictly by key. -/
def SortedEntries (entries : List (κ × α)) : Prop :=
  entries.Pairwise fun a b => compare a.1 b.1 = .lt

/-- A key of the extended list is the new one or an old one. -/
theorem mem_insertEntry {key : κ} {value : α} {entries : List (κ × α)} {entry : κ × α}
    (h : entry ∈ insertEntry key value entries) : entry = (key, value) ∨ entry ∈ entries := by
  induction entries with
  | nil => simpa [insertEntry] using h
  | cons head rest ih =>
    simp only [insertEntry] at h
    split at h
    · simpa using h
    · rcases List.mem_cons.1 h with h | h
      · exact .inl h
      · exact .inr (List.mem_cons_of_mem _ h)
    · rcases List.mem_cons.1 h with h | h
      · exact .inr (h ▸ List.mem_cons_self)
      · exact (ih h).imp_right (List.mem_cons_of_mem _)

/-- Inserting keeps the entries sorted. -/
theorem SortedEntries.insertEntry [Std.TransOrd κ] [Std.LawfulEqOrd κ] {entries : List (κ × α)}
    (h : SortedEntries entries) (key : κ) (value : α) :
    SortedEntries (insertEntry key value entries) := by
  induction entries with
  | nil => simp [ChatWire.insertEntry, SortedEntries]
  | cons head rest ih =>
    have hrest : SortedEntries rest := (List.pairwise_cons.1 h).2
    have hhead := (List.pairwise_cons.1 h).1
    simp only [ChatWire.insertEntry]
    split
    · next hlt =>
      refine List.pairwise_cons.2 ⟨fun e he => ?_, h⟩
      rcases List.mem_cons.1 he with rfl | he
      · exact hlt
      · exact Std.TransCmp.lt_trans hlt (hhead e he)
    · next heq =>
      have hkey : key = head.1 := Std.LawfulEqCmp.eq_of_compare heq
      exact List.pairwise_cons.2 ⟨fun e he => by simpa [hkey] using hhead e he, hrest⟩
    · next hgt =>
      refine List.pairwise_cons.2 ⟨fun e he => ?_, ih hrest⟩
      rcases mem_insertEntry he with rfl | he
      · exact Std.OrientedCmp.gt_iff_lt.1 hgt
      · exact hhead e he

/-- Finitely many keys with a value each, sorted by key. -/
structure Table (κ : Type u) (α : Type v) [Ord κ] where
  /-- The keys with their values. -/
  entries : List (κ × α) := []
  /-- Keys increase, so none occurs twice. -/
  sorted : SortedEntries entries := by exact List.Pairwise.nil

namespace Table

/-- The table without entries. -/
def empty : Table κ α := {}

/-- Tables with the same entries are equal. -/
theorem ext {s t : Table κ α} (h : s.entries = t.entries) : s = t := by
  cases s; cases t; cases h; rfl

instance [DecidableEq κ] [DecidableEq α] : DecidableEq (Table κ α) := fun s t =>
  if h : s.entries = t.entries then .isTrue (ext h) else .isFalse fun e => h (e ▸ rfl)

/-- Whether the table has no entry. -/
def isEmpty (t : Table κ α) : Bool := t.entries.isEmpty

/-- The value under a key. -/
def find? (t : Table κ α) (key : κ) : Option α :=
  (t.entries.find? fun e => compare key e.1 = .eq).map Prod.snd

variable [Std.TransOrd κ] [Std.LawfulEqOrd κ]

/-- Puts a value under a key; a value that the key had is replaced. -/
def insert (t : Table κ α) (key : κ) (value : α) : Table κ α :=
  ⟨insertEntry key value t.entries, t.sorted.insertEntry key value⟩

/-- Puts the entries of a list into the table one after the other, so that the last value of a key
stays. -/
def insertAll (t : Table κ α) (entries : List (κ × α)) : Table κ α :=
  entries.foldl (fun t e => t.insert e.1 e.2) t

/-- The table of a list of entries; of several values under one key the last counts. -/
def ofList (entries : List (κ × α)) : Table κ α := empty.insertAll entries

omit [Std.TransOrd κ] in
/-- Among the entries after an insertion the new one is found under its key. -/
theorem find?_insertEntry_self (key : κ) (value : α) (entries : List (κ × α)) :
    ((insertEntry key value entries).find? fun e => compare key e.1 = .eq) = some (key, value) := by
  induction entries with
  | nil => simp [insertEntry]
  | cons head rest ih =>
    simp only [insertEntry]
    split <;> simp_all

omit [Std.TransOrd κ] in
/-- Under another key the same entry is found as before. -/
theorem find?_insertEntry_of_ne {key key' : κ} (h : key ≠ key') (value : α)
    (entries : List (κ × α)) :
    ((insertEntry key' value entries).find? fun e => compare key e.1 = .eq)
      = entries.find? fun e => compare key e.1 = .eq := by
  induction entries with
  | nil => simp [insertEntry, h]
  | cons head rest ih =>
    simp only [insertEntry]
    split
    · simp [h]
    · next heq =>
      have hkey : key' = head.1 := Std.LawfulEqCmp.eq_of_compare heq
      simp [← hkey, h]
    · simp only [List.find?_cons, ih]

/-- A key just set has its new value. -/
theorem find?_insert_self (t : Table κ α) (key : κ) (value : α) :
    (t.insert key value).find? key = some value := by
  simp [find?, insert, find?_insertEntry_self]

/-- Setting a key leaves all others alone. -/
theorem find?_insert_of_ne (t : Table κ α) {key key' : κ} (h : key ≠ key') (value : α) :
    (t.insert key' value).find? key = t.find? key := by
  simp [find?, insert, find?_insertEntry_of_ne h]

/-- Entries that follow all others in order are appended as they stand. -/
theorem entries_insertAll_of_sorted (s : Table κ α) (entries : List (κ × α))
    (hs : SortedEntries (s.entries ++ entries)) :
    (s.insertAll entries).entries = s.entries ++ entries := by
  induction entries generalizing s with
  | nil => simp [insertAll]
  | cons head rest ih =>
    have hlast : (s.insert head.1 head.2).entries = s.entries ++ [head] := by
      have hlt : ∀ e ∈ s.entries, compare e.1 head.1 = .lt := fun e he =>
        (List.pairwise_append.1 hs).2.2 e he head List.mem_cons_self
      show insertEntry head.1 head.2 s.entries = _
      generalize s.entries = es at hlt
      induction es with
      | nil => rfl
      | cons x xs ihx =>
        have hx : compare head.1 x.1 = .gt :=
          Std.OrientedCmp.gt_iff_lt.2 (hlt x List.mem_cons_self)
        simp [insertEntry, hx, ihx fun e he => hlt e (List.mem_cons_of_mem _ he)]
    have hs' : SortedEntries ((s.insert head.1 head.2).entries ++ rest) := by
      rw [hlast]; simpa using hs
    have := ih (s.insert head.1 head.2) hs'
    rw [hlast] at this
    simpa [insertAll] using this

/-- A table is rebuilt from its own entries. -/
theorem ofList_entries (t : Table κ α) : ofList t.entries = t :=
  ext (by simpa [ofList, empty] using entries_insertAll_of_sorted empty t.entries (by
    simpa [empty] using t.sorted))

end Table

end ChatWire
