/-!
# Maps from names

A `NameMap` holds one value per name, its entries in strictly ascending order of the names (by code
point). Macro tables and the attributes of an element are such maps.

* `find?_insert`, `find?_erase`: what a change does to each lookup;
* `find?_ofList_eq_some_iff`: of two pairs with one name the later counts;
* `mem_entries_iff`, `mem_names_iff`: the entries are what lookups find.
-/

namespace Selectors

/-- One value per name, in strictly ascending order of the names. -/
structure NameMap (α : Type) where
  entries : List (String × α)
  sorted : entries.Pairwise fun a b => a.1 < b.1
  deriving DecidableEq

namespace NameMap

variable {α β : Type}

/-! ## Sorted entries -/

/-- The value of the first entry of that name. -/
def lookupIn (name : String) : List (String × α) → Option α
  | [] => none
  | entry :: rest => if name = entry.1 then some entry.2 else lookupIn name rest

/-- Put `value` under `name`, in place of an entry of that name or before the first greater one. -/
def insertEntry (name : String) (value : α) : List (String × α) → List (String × α)
  | [] => [(name, value)]
  | entry :: rest =>
    if name = entry.1 then (name, value) :: rest
    else if name < entry.1 then (name, value) :: entry :: rest
    else entry :: insertEntry name value rest

theorem mem_insertEntry {name : String} {value : α} {l : List (String × α)} {e : String × α}
    (h : e ∈ insertEntry name value l) : e = (name, value) ∨ e ∈ l := by
  induction l with
  | nil => exact .inl (List.mem_singleton.mp h)
  | cons entry rest ih =>
    rw [insertEntry] at h
    split at h
    · exact (List.mem_cons.mp h).imp_right (List.mem_cons_of_mem _)
    · split at h
      · exact List.mem_cons.mp h
      · rcases List.mem_cons.mp h with rfl | h
        · exact .inr List.mem_cons_self
        · exact (ih h).imp_right (List.mem_cons_of_mem _)

theorem insertEntry_sorted (name : String) (value : α) {l : List (String × α)}
    (h : l.Pairwise fun a b => a.1 < b.1) :
    (insertEntry name value l).Pairwise fun a b => a.1 < b.1 := by
  induction l with
  | nil => exact List.pairwise_singleton _ _
  | cons entry rest ih =>
    obtain ⟨hlt, hrest⟩ := List.pairwise_cons.mp h
    rw [insertEntry]
    split
    · rename_i he
      exact List.pairwise_cons.mpr ⟨fun a ha => he ▸ hlt a ha, hrest⟩
    · split
      · rename_i hne hn
        refine List.pairwise_cons.mpr ⟨fun a ha => ?_, h⟩
        rcases List.mem_cons.mp ha with rfl | ha
        · exact hn
        · exact String.lt_trans hn (hlt a ha)
      · rename_i hne hn
        refine List.pairwise_cons.mpr ⟨fun a ha => ?_, ih hrest⟩
        rcases mem_insertEntry ha with rfl | ha
        · exact Std.lt_of_le_of_ne (String.not_lt.mp hn) (Ne.symm hne)
        · exact hlt a ha

/-- Of two values that are put under one name the later counts. -/
theorem insertEntry_insertEntry (name : String) (value other : α) (l : List (String × α)) :
    insertEntry name other (insertEntry name value l) = insertEntry name other l := by
  induction l with
  | nil => simp [insertEntry]
  | cons entry rest ih =>
    rw [insertEntry, insertEntry]
    split
    · simp [insertEntry]
    · rename_i hne
      split
      · simp [insertEntry]
      · rename_i hlt
        rw [insertEntry, if_neg hne, if_neg hlt, ih]

/-! ## Maps -/

/-- The map without entries. -/
def empty : NameMap α := ⟨[], .nil⟩

/-- The value under `name`. -/
def find? (m : NameMap α) (name : String) : Option α := lookupIn name m.entries

/-- The map with `value` under `name`. -/
def insert (m : NameMap α) (name : String) (value : α) : NameMap α :=
  ⟨insertEntry name value m.entries, insertEntry_sorted name value m.sorted⟩

/-- The map without an entry for `name`. -/
def erase (m : NameMap α) (name : String) : NameMap α :=
  ⟨m.entries.filter (·.1 ≠ name), m.sorted.sublist List.filter_sublist⟩

/-- The map of the pairs; of two pairs with one name the later counts. -/
def ofList (pairs : List (String × α)) : NameMap α :=
  pairs.foldl (fun m p => m.insert p.1 p.2) empty

/-- How many names have a value. -/
def size (m : NameMap α) : Nat := m.entries.length

/-- The names with a value, ascending. -/
def names (m : NameMap α) : List String := m.entries.map (·.1)

/-! ## Lookups -/

@[simp] theorem find?_empty (name : String) : (empty : NameMap α).find? name = none := rfl

theorem lookupIn_insertEntry (name other : String) (value : α) (l : List (String × α)) :
    lookupIn other (insertEntry name value l) =
      if other = name then some value else lookupIn other l := by
  induction l with
  | nil => rfl
  | cons entry rest ih =>
    rw [insertEntry]
    split
    · grind [lookupIn]
    · split <;> grind [lookupIn]

theorem find?_insert (m : NameMap α) (name other : String) (value : α) :
    (m.insert name value).find? other = if other = name then some value else m.find? other :=
  lookupIn_insertEntry name other value m.entries

@[simp] theorem find?_insert_self (m : NameMap α) (name : String) (value : α) :
    (m.insert name value).find? name = some value := by rw [find?_insert, if_pos rfl]

theorem find?_insert_ne (m : NameMap α) {name other : String} (h : other ≠ name) (value : α) :
    (m.insert name value).find? other = m.find? other := by rw [find?_insert, if_neg h]

theorem find?_erase (m : NameMap α) (name other : String) :
    (m.erase name).find? other = if other = name then none else m.find? other := by
  simp only [find?, erase]
  induction m.entries with
  | nil => simp [lookupIn]
  | cons entry rest ih => rw [List.filter_cons]; split <;> grind [lookupIn]

theorem ofList_concat (pairs : List (String × α)) (p : String × α) :
    ofList (pairs ++ [p]) = (ofList pairs).insert p.1 p.2 := by
  rw [ofList, List.foldl_append]
  rfl

theorem find?_ofList (pairs : List (String × α)) (name : String) :
    (ofList pairs).find? name = (pairs.reverse.find? (·.1 = name)).map (·.2) := by
  generalize h : pairs.reverse = l
  obtain rfl : pairs = l.reverse := by rw [← h, List.reverse_reverse]
  clear h
  induction l with
  | nil => rfl
  | cons p l ih =>
    rw [List.reverse_cons, ofList_concat, find?_insert, List.find?_cons, ih]
    by_cases hp : p.1 = name
    · rw [if_pos hp.symm, decide_eq_true hp]; rfl
    · rw [if_neg (Ne.symm hp), decide_eq_false hp]

/-- A name has the value of the last pair with this name. -/
theorem find?_ofList_eq_some_iff {pairs : List (String × α)} {name : String} {value : α} :
    (ofList pairs).find? name = some value ↔
      ∃ before behind, pairs = before ++ (name, value) :: behind ∧ ∀ p ∈ behind, p.1 ≠ name := by
  rw [find?_ofList, Option.map_eq_some_iff]
  simp only [List.find?_eq_some_iff_append, decide_eq_true_eq, Bool.not_eq_true',
    decide_eq_false_iff_not]
  constructor
  · rintro ⟨p, ⟨rfl, as, bs, hl, h⟩, rfl⟩
    refine ⟨bs.reverse, as.reverse, ?_, fun p hp => h p (List.mem_reverse.mp hp)⟩
    rw [← List.reverse_reverse pairs, hl]
    simp
  · rintro ⟨before, behind, rfl, h⟩
    exact ⟨(name, value), ⟨rfl, behind.reverse, before.reverse, by simp,
      fun p hp => h p (List.mem_reverse.mp hp)⟩, rfl⟩

/-- Pairs with different names all count. -/
theorem find?_ofList_of_nodup {pairs : List (String × α)} (h : (pairs.map (·.1)).Nodup)
    {name : String} {value : α} :
    (ofList pairs).find? name = some value ↔ (name, value) ∈ pairs := by
  rw [find?_ofList_eq_some_iff, List.mem_iff_append]
  constructor
  · rintro ⟨before, behind, heq, -⟩
    exact ⟨before, behind, heq⟩
  · rintro ⟨before, behind, rfl⟩
    rw [List.map_append, List.map_cons, List.nodup_append, List.nodup_cons] at h
    exact ⟨before, behind, rfl, fun p hp he => h.2.1.1 (List.mem_map.mpr ⟨p, hp, he⟩)⟩

theorem mem_entries_iff {m : NameMap α} {name : String} {value : α} :
    (name, value) ∈ m.entries ↔ m.find? name = some value := by
  obtain ⟨l, h⟩ := m
  simp only [find?]
  induction l with
  | nil => simp [lookupIn]
  | cons entry rest ih =>
    obtain ⟨hlt, hrest⟩ := List.pairwise_cons.mp h
    rw [List.mem_cons, lookupIn, ih hrest]
    split
    · rename_i hn
      subst hn
      simp only [Prod.ext_iff, true_and, Option.some.injEq]
      refine ⟨fun h => h.elim Eq.symm fun h => ?_, fun h => .inl h.symm⟩
      exact absurd (hlt _ ((ih hrest).mpr h)) (String.lt_irrefl _)
    · rename_i hn
      simp [Prod.ext_iff, hn]

theorem mem_names_iff {m : NameMap α} {name : String} :
    name ∈ m.names ↔ (m.find? name).isSome := by
  rw [Option.isSome_iff_exists, names, List.mem_map]
  constructor
  · rintro ⟨e, he, rfl⟩
    exact ⟨e.2, mem_entries_iff.mp he⟩
  · rintro ⟨value, h⟩
    exact ⟨(name, value), mem_entries_iff.mpr h, rfl⟩

theorem nodup_names (m : NameMap α) : m.names.Nodup := by
  refine List.pairwise_map.mpr (m.sorted.imp fun {a b} h he => ?_)
  exact String.lt_irrefl b.1 (he ▸ h)

theorem ext_entries {m n : NameMap α} (h : m.entries = n.entries) : m = n := by
  cases m; cases n; cases h; rfl

@[simp] theorem insert_insert_self (m : NameMap α) (name : String) (value other : α) :
    (m.insert name value).insert name other = m.insert name other :=
  ext_entries (insertEntry_insertEntry name value other m.entries)

end NameMap

end Selectors
