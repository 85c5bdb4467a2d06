import ChatWire.Json.Parser

/-!
# How deeply values nest

What is read nests no deeper than the reader allows (`Json.depth_le_of_read?`), and neither does
anything that is found inside of it.
-/

namespace ChatWire.Json

mutual

/-- How many arrays and objects stand around the innermost part of a value. -/
def depth : Json → Nat
  | .array elements => depthOfElements elements + 1
  | .object members => depthOfMembers members + 1
  | _ => 0

/-- The greatest depth of an element. -/
def depthOfElements : List Json → Nat
  | [] => 0
  | element :: rest => max element.depth (depthOfElements rest)

/-- The greatest depth of a member's value. -/
def depthOfMembers : List (String × Json) → Nat
  | [] => 0
  | (_, value) :: rest => max value.depth (depthOfMembers rest)

end

theorem depthOfElements_le_iff {elements : List Json} {d : Nat} :
    depthOfElements elements ≤ d ↔ ∀ v ∈ elements, v.depth ≤ d := by
  induction elements with
  | nil => simp [depthOfElements]
  | cons v rest ih => rw [depthOfElements, Nat.max_le, ih, List.forall_mem_cons]

theorem depthOfMembers_le_iff {members : List (String × Json)} {d : Nat} :
    depthOfMembers members ≤ d ↔ ∀ m ∈ members, m.2.depth ≤ d := by
  induction members with
  | nil => simp [depthOfMembers]
  | cons m rest ih => rw [depthOfMembers, Nat.max_le, ih, List.forall_mem_cons]

/-! ## Parts of a value -/

variable {v w : Json}

theorem depth_le_of_get? {key : String} (h : v.get? key = some w) : w.depth ≤ v.depth := by
  unfold get? at h
  split at h
  case h_1 members =>
    obtain ⟨m, hm, rfl⟩ := Option.map_eq_some_iff.1 h
    have hle := depthOfMembers_le_iff.1 (Nat.le_refl (depthOfMembers members)) m
      (List.mem_of_find?_eq_some hm)
    rw [depth]
    omega
  case h_2 => cases h

theorem depth_get_le (v : Json) (key : String) : (v.get key).depth ≤ v.depth := by
  rw [get]
  cases h : v.get? key with
  | none => exact Nat.zero_le _
  | some w => exact depth_le_of_get? h

theorem depth_le_of_first? (h : v.first? = some w) : w.depth ≤ v.depth := by
  unfold first? at h
  split at h
  case h_1 element rest =>
    obtain rfl := Option.some.inj h
    rw [depth, depthOfElements]
    omega
  case h_2 => cases h

theorem depth_le_of_mem_elements? (h : w ∈ v.elements?.getD []) : w.depth ≤ v.depth := by
  cases v with
  | array elements =>
    have hle := depthOfElements_le_iff.1 (Nat.le_refl (depthOfElements elements)) w h
    rw [depth]
    omega
  | _ => simp [elements?] at h

/-! ## Canonical forms -/

theorem mem_insertAll {t : Fields} {entries : List (String × Json)} {e : String × Json}
    (h : e ∈ (t.insertAll entries).entries) : e ∈ t.entries ∨ e ∈ entries := by
  induction entries generalizing t with
  | nil => exact .inl h
  | cons head rest ih =>
    rcases ih h with he | he
    · rcases mem_insertEntry he with rfl | he
      · exact .inr List.mem_cons_self
      · exact .inl he
    · exact .inr (List.mem_cons_of_mem _ he)

mutual

theorem depth_canonical_le (v : Json) : v.canonical.depth ≤ v.depth := by
  cases v with
  | array elements =>
    have hle := depthOfElements_canonical_le elements
    simp only [canonical, depth]
    omega
  | object members =>
    have hle := depthOfMembers_canonical_le members
    have hsub : depthOfMembers (Table.ofList (canonicalMembers members)).entries
        ≤ depthOfMembers (canonicalMembers members) := by
      refine depthOfMembers_le_iff.2 fun m hm => ?_
      have hmem : m ∈ canonicalMembers members := by simpa [Table.empty] using mem_insertAll hm
      exact depthOfMembers_le_iff.1 (Nat.le_refl _) m hmem
    simp only [canonical, depth]
    omega
  | _ => exact Nat.le_refl _

theorem depthOfElements_canonical_le (elements : List Json) :
    depthOfElements (canonicalElements elements) ≤ depthOfElements elements := by
  cases elements with
  | nil => exact Nat.le_refl _
  | cons v rest =>
    have hv := depth_canonical_le v
    have hrest := depthOfElements_canonical_le rest
    simp only [canonicalElements, depthOfElements]
    omega

theorem depthOfMembers_canonical_le (members : List (String × Json)) :
    depthOfMembers (canonicalMembers members) ≤ depthOfMembers members := by
  cases members with
  | nil => exact Nat.le_refl _
  | cons m rest =>
    obtain ⟨key, v⟩ := m
    have hv := depth_canonical_le v
    have hrest := depthOfMembers_canonical_le rest
    simp only [canonicalMembers, depthOfMembers]
    omega

end

/-! ## Values that were read -/

/-- The readers give back nothing that nests deeper than they were told. -/
theorem depth_le_of_readers (fuel : Nat) :
    (∀ d cs v rest, value fuel d cs = some (v, rest) → v.depth ≤ d) ∧
    (∀ d cs vs rest, elements fuel d cs = some (vs, rest) → depthOfElements vs ≤ d) ∧
    ∀ d cs ms rest, members fuel d cs = some (ms, rest) → depthOfMembers ms ≤ d := by
  induction fuel with
  | zero => simp [value, elements, members]
  | succ fuel ih =>
    obtain ⟨hvalue, helements, hmembers⟩ := ih
    refine ⟨?_, ?_, ?_⟩
    · intro d cs v rest h
      cases cs with
      | nil => simp [value] at h
      | cons c cs =>
        rw [value.eq_def] at h
        simp only at h
        split at h
        case h_5 =>
          split at h
          · cases h
          · split at h
            · obtain ⟨rfl, rfl⟩ := Prod.mk.inj (Option.some.inj h)
              simp [depth, depthOfElements]
            · obtain ⟨⟨vs, behind⟩, hvs, h⟩ := Option.bind_eq_some_iff.1 h
              obtain ⟨rfl, rfl⟩ := Prod.mk.inj (Option.some.inj h)
              exact Nat.succ_le_succ (helements _ _ _ _ hvs)
        case h_6 =>
          split at h
          · cases h
          · split at h
            · obtain ⟨rfl, rfl⟩ := Prod.mk.inj (Option.some.inj h)
              simp [depth, depthOfMembers]
            · obtain ⟨⟨ms, behind⟩, hms, h⟩ := Option.bind_eq_some_iff.1 h
              obtain ⟨rfl, rfl⟩ := Prod.mk.inj (Option.some.inj h)
              exact Nat.succ_le_succ (hmembers _ _ _ _ hms)
        -- Everything else has no parts.
        all_goals
          obtain ⟨_, -, h⟩ := Option.bind_eq_some_iff.1 h
          obtain ⟨rfl, rfl⟩ := Prod.mk.inj (Option.some.inj h)
          exact Nat.zero_le _
    · intro d cs vs rest h
      rw [elements] at h
      obtain ⟨⟨v, behind⟩, hv, h⟩ := Option.bind_eq_some_iff.1 h
      simp only at h
      split at h
      · obtain ⟨rfl, rfl⟩ := Prod.mk.inj (Option.some.inj h)
        simpa [depthOfElements] using hvalue _ _ _ _ hv
      · obtain ⟨⟨more, last⟩, hmore, h⟩ := Option.bind_eq_some_iff.1 h
        obtain ⟨rfl, rfl⟩ := Prod.mk.inj (Option.some.inj h)
        rw [depthOfElements, Nat.max_le]
        exact ⟨hvalue _ _ _ _ hv, helements _ _ _ _ hmore⟩
      · cases h
    · intro d cs ms rest h
      rw [members] at h
      split at h
      · obtain ⟨⟨key, colon⟩, -, h⟩ := Option.bind_eq_some_iff.1 h
        simp only at h
        split at h
        · obtain ⟨⟨v, behind⟩, hv, h⟩ := Option.bind_eq_some_iff.1 h
          simp only at h
          split at h
          · obtain ⟨rfl, rfl⟩ := Prod.mk.inj (Option.some.inj h)
            simpa [depthOfMembers] using hvalue _ _ _ _ hv
          · obtain ⟨⟨more, last⟩, hmore, h⟩ := Option.bind_eq_some_iff.1 h
            obtain ⟨rfl, rfl⟩ := Prod.mk.inj (Option.some.inj h)
            rw [depthOfMembers, Nat.max_le]
            exact ⟨hvalue _ _ _ _ hv, hmembers _ _ _ _ hmore⟩
          · cases h
        · cases h
      · cases h

/-- What is read as it is written nests no deeper than the reader allows. -/
theorem depth_le_of_treeWithin? {d : Nat} {text : String} {v : Json}
    (h : treeWithin? d text = some v) : v.depth ≤ d := by
  obtain ⟨⟨w, rest⟩, hw, h⟩ := Option.bind_eq_some_iff.1 h
  simp only at h
  split at h
  · obtain rfl := Option.some.inj h
    exact (depth_le_of_readers _).1 _ _ _ _ hw
  · cases h

/-- What is read in canonical form nests no deeper than the reader allows. -/
theorem depth_le_of_read? {text : String} {v : Json} (h : read? text = some v) :
    v.depth ≤ maxDepth := by
  obtain ⟨w, hw, rfl⟩ := Option.map_eq_some_iff.1 h
  exact Nat.le_trans (depth_canonical_le w) (depth_le_of_treeWithin? hw)

end ChatWire.Json
