/-!
# Maps from names

Finite maps whose keys are names, as the list of their entries in ascending order of the names by
code point. The order makes the list unique, so that two maps are equal exactly when they hold the
same value under every name.

* `get?_insert`: an insertion sets the value of one name and leaves the others.
* `ext_get?`: maps that agree at every name are equal.
-/

namespace ScopeScript

/-- A finite map from names. -/
structure NameMap (α : Type) where
  /-- The names with their values, in ascending order of the names. -/
  entries : List (String × α)
  /-- The names ascend, so no name occurs twice. -/
  ascending : (entries.map Prod.fst).Pairwise (· < ·)

namespace NameMap

variable {α : Type}

instance [DecidableEq α] : DecidableEq (NameMap α) := fun m n =>
  decidable_of_iff (m.entries = n.entries) (by cases m; cases n; simp)

/-! ### Operations -/

/-- The map that holds no name. -/
def empty : NameMap α :=
  ⟨[], .nil⟩

instance : Inhabited (NameMap α) := ⟨empty⟩

/-- The value under a name in a list of entries. -/
def valueAt (name : String) : List (String × α) → Option α
  | [] => none
  | (k, v) :: rest => if name = k then some v else valueAt name rest

/-- The value under a name. -/
def get? (m : NameMap α) (name : String) : Option α :=
  valueAt name m.entries

/-- The names, in ascending order. -/
def names (m : NameMap α) : List String :=
  m.entries.map Prod.fst

/-- Ascending entries with the value under one name set. -/
def insertEntry (name : String) (value : α) : List (String × α) → List (String × α)
  | [] => [(name, value)]
  | (k, v) :: rest =>
    -- The entry goes before the first greater name.
    if name < k then (name, value) :: (k, v) :: rest
    else if name = k then (name, value) :: rest
    else (k, v) :: insertEntry name value rest

/-- The names after an insertion are the inserted one and those before. -/
theorem mem_map_insertEntry {name : String} {value : α} {k : String} :
    ∀ {es : List (String × α)}, k ∈ (insertEntry name value es).map Prod.fst →
      k = name ∨ k ∈ es.map Prod.fst
  | [], h => by simpa [insertEntry] using h
  | (k', v') :: rest, h => by
    unfold insertEntry at h
    split at h
    · simpa using h
    · split at h
      · next e => subst e; simpa using h
      · rcases List.mem_cons.1 h with h | h
        · exact .inr (by simp_all)
        · rcases mem_map_insertEntry h with h | h
          · exact .inl h
          · exact .inr (by simp_all)

/-- An insertion keeps the names ascending. -/
theorem pairwise_insertEntry {name : String} {value : α} :
    ∀ {es : List (String × α)}, (es.map Prod.fst).Pairwise (· < ·) →
      ((insertEntry name value es).map Prod.fst).Pairwise (· < ·)
  | [], _ => by simp [insertEntry]
  | (k, v) :: rest, h => by
    obtain ⟨hk, hrest⟩ := List.pairwise_cons.1 h
    unfold insertEntry
    split
    · next hlt =>
      refine List.pairwise_cons.2 ⟨fun k' hk' => ?_, h⟩
      rcases List.mem_cons.1 hk' with rfl | hk'
      · exact hlt
      · exact String.lt_trans hlt (hk k' hk')
    · split
      · next e => subst e; exact h
      · next hlt hne =>
        refine List.pairwise_cons.2 ⟨fun k' hk' => ?_, pairwise_insertEntry hrest⟩
        rcases mem_map_insertEntry hk' with rfl | hk'
        · rcases Std.lt_trichotomy k k' with hl | he | hg
          · exact hl
          · exact absurd he.symm hne
          · exact absurd hg hlt
        · exact hk k' hk'

/-- The map with the value under one name set. -/
def insert (m : NameMap α) (name : String) (value : α) : NameMap α :=
  ⟨insertEntry name value m.entries, pairwise_insertEntry m.ascending⟩

/-- The map of several pairs; of two pairs with one name the later counts. -/
def ofList (pairs : List (String × α)) : NameMap α :=
  pairs.foldl (fun m p => m.insert p.1 p.2) empty

/-! ### Laws -/

/-- The empty map holds no name. -/
@[simp]
theorem get?_empty (name : String) : (empty : NameMap α).get? name = none := rfl

/-- Looking up a name in entries after an insertion. -/
theorem valueAt_insertEntry (name : String) (value : α) (k : String) (es : List (String × α)) :
    valueAt k (insertEntry name value es) = if k = name then some value else valueAt k es := by
  induction es with
  | nil => simp [insertEntry, valueAt]
  | cons e es ih =>
    obtain ⟨k', v'⟩ := e
    unfold insertEntry
    split
    · simp [valueAt]
    · split
      · next e =>
        subst e
        by_cases h : k = name <;> simp [valueAt, h]
      · next hne =>
        by_cases h : k = k'
        · subst h
          simp [valueAt, Ne.symm hne]
        · simp [valueAt, h, ih]

/-- An insertion sets the value of one name and leaves the others. -/
theorem get?_insert (m : NameMap α) (name : String) (value : α) (k : String) :
    (m.insert name value).get? k = if k = name then some value else m.get? k :=
  valueAt_insertEntry name value k m.entries

/-- A name that was set has the value it was set to. -/
@[simp]
theorem get?_insert_self (m : NameMap α) (name : String) (value : α) :
    (m.insert name value).get? name = some value := by
  simp [get?_insert]

/-- Setting one name leaves the others. -/
theorem get?_insert_of_ne (m : NameMap α) {name k : String} (value : α) (h : k ≠ name) :
    (m.insert name value).get? k = m.get? k := by
  simp [get?_insert, h]

/-- A name has a value exactly when it is among the names. -/
theorem isSome_get?_iff {m : NameMap α} {name : String} :
    (m.get? name).isSome = true ↔ name ∈ m.names := by
  unfold get? names
  induction m.entries with
  | nil => simp [valueAt]
  | cons e es ih =>
    obtain ⟨k, v⟩ := e
    by_cases h : name = k
    · simp [valueAt, h]
    · simp only [valueAt, h, if_false, ih, List.map_cons, List.mem_cons, false_or]

/-- A name before all names of the entries has no value there. -/
theorem valueAt_eq_none_of_lt {name : String} {es : List (String × α)}
    (h : ∀ k ∈ es.map Prod.fst, name < k) : valueAt name es = none := by
  induction es with
  | nil => rfl
  | cons e es ih =>
    obtain ⟨k, v⟩ := e
    have hk : name < k := h k List.mem_cons_self
    have hne : name ≠ k := by
      rintro rfl
      exact String.lt_irrefl _ hk
    rw [valueAt, if_neg hne]
    exact ih fun k' hk' => h k' (List.mem_cons_of_mem _ hk')

/-- The first name of ascending entries is before all names of other ascending entries that start
with a later name. -/
theorem valueAt_eq_none_of_lt_head {name k : String} {v : α} {es : List (String × α)}
    (h : ∀ k' ∈ es.map Prod.fst, k < k') (hlt : name < k) : valueAt name ((k, v) :: es) = none := by
  refine valueAt_eq_none_of_lt fun k' hk' => ?_
  rcases List.mem_cons.1 hk' with rfl | hk'
  · exact hlt
  · exact String.lt_trans hlt (h k' hk')

/-- Ascending entries that agree at every name are the same. -/
theorem entries_ext : ∀ {es fs : List (String × α)}, (es.map Prod.fst).Pairwise (· < ·) →
    (fs.map Prod.fst).Pairwise (· < ·) → (∀ k, valueAt k es = valueAt k fs) → es = fs
  | [], [], _, _, _ => rfl
  | [], (k, v) :: fs, _, _, h => by simpa [valueAt] using h k
  | (k, v) :: es, [], _, _, h => by simpa [valueAt] using h k
  | (k, v) :: es, (k', v') :: fs, he, hf, h => by
    obtain ⟨hk, hes⟩ := List.pairwise_cons.1 he
    obtain ⟨hk', hfs⟩ := List.pairwise_cons.1 hf
    -- The lesser of two first names would have a value on one side alone.
    have hkk : k = k' := by
      rcases Std.lt_trichotomy k k' with hl | he | hg
      · have := h k
        rw [valueAt_eq_none_of_lt_head hk' hl] at this
        simp [valueAt] at this
      · exact he
      · have := h k'
        rw [valueAt_eq_none_of_lt_head hk hg] at this
        simp [valueAt] at this
    subst hkk
    have hv : v = v' := by simpa [valueAt] using h k
    subst hv
    have hrest : es = fs := entries_ext hes hfs fun n => by
      by_cases hn : n = k
      · subst hn
        rw [valueAt_eq_none_of_lt hk, valueAt_eq_none_of_lt hk']
      · simpa [valueAt, hn] using h n
    rw [hrest]

/-- Maps that agree at every name are equal. -/
theorem ext_get? {m n : NameMap α} (h : ∀ name, m.get? name = n.get? name) : m = n := by
  cases m with
  | mk es he =>
    cases n with
    | mk fs hf =>
      have : es = fs := entries_ext he hf h
      subst this
      rfl

end NameMap

end ScopeScript
