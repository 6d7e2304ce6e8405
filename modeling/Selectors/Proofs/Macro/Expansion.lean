import Mathlib.Data.List.Forall2
import Selectors.Proofs.Macro.Reachable

/-!
# Why a fragment cannot be expanded

An expansion goes along the references of a fragment and of the definitions they lead to. It fails only
because of a fault met on the way, so what refers to the macros of a sound table can be expanded. The
expanded table has the same names.

* **`exists_meetsFault_of_expand`**: the fault behind a failure; `Sound.exists_expand`;
* **`get?_expandAll`**: the definitions of an expanded table; `Sound.exists_expandAll`.
-/

namespace Selectors.MacroTable

open Macro

variable {t literal : MacroTable} {name : String} {fragment definition text : Fragment} {depth : Nat}
  {active : List String} {e : MacroError}

theorem mem_references {cs : List Char} : name ∈ references cs ↔ .reference name ∈ pieces cs := by
  unfold references
  rw [List.mem_filterMap]
  constructor
  · rintro ⟨piece, hpiece, hname⟩
    cases piece with
    | text => cases hname
    | reference name' => cases hname; exact hpiece
  · exact fun h => ⟨_, h, rfl⟩

/-! ## Failures -/

theorem exists_reference_of_joinPieces {resolve : String → Except MacroError Fragment}
    {ps : List Piece} (h : joinPieces resolve ps = .error e) :
    ∃ name, .reference name ∈ ps ∧ resolve name = .error e := by
  induction ps with
  | nil => cases h
  | cons piece ps ih =>
    have hrest : joinPieces resolve ps = .error e → ∃ name, .reference name ∈ piece :: ps ∧
        resolve name = .error e := by
      intro h
      obtain ⟨name, hname, hresolve⟩ := ih h
      exact ⟨name, List.mem_cons_of_mem _ hname, hresolve⟩
    cases piece with
    | text cs =>
      cases htail : joinPieces resolve ps with
      | error e' => rw [joinPieces, htail] at h; exact hrest (htail.trans h)
      | ok tail => rw [joinPieces, htail] at h; cases h
    | reference name =>
      cases hname : resolve name with
      | error e' =>
        rw [joinPieces, hname] at h
        exact ⟨name, List.mem_cons_self, hname.trans h⟩
      | ok middle =>
        rw [joinPieces, hname] at h
        cases htail : joinPieces resolve ps with
        | error e' => rw [htail] at h; exact hrest (htail.trans h)
        | ok tail => rw [htail] at h; cases h

theorem resolve_of_none (active : List String) (h : t.get? name = none) :
    t.resolve depth active name = .error (.undefined name) := by
  cases depth <;> simp [resolve, h]

theorem resolve_of_active (hdef : t.get? name = some definition) (h : name ∈ active) :
    t.resolve depth active name = .error (.cyclic name) := by
  cases depth <;> simp [resolve, hdef, h]

theorem resolve_succ (hdef : t.get? name = some definition) (h : name ∉ active) :
    t.resolve (depth + 1) active name =
      joinPieces (t.resolve depth (name :: active)) (pieces definition) := by
  rw [resolve, hdef]
  exact if_neg h

theorem meetsFault_of_inner (hinner : ∀ definition, t.get? name = some definition → name ∉ active →
      t.MeetsFault name e) (hactive : ∀ a ∈ active, t.Reaches a name)
    (h : t.resolve depth active name = .error e) : t.MeetsFault name e := by
  cases hdef : t.get? name with
  | none =>
    rw [resolve_of_none active hdef] at h
    obtain rfl := Except.error.inj h
    exact ⟨.refl, not_defined_of_get? hdef⟩
  | some definition =>
    by_cases hmem : name ∈ active
    · rw [resolve_of_active hdef hmem] at h
      obtain rfl := Except.error.inj h
      exact ⟨.refl, hactive name hmem⟩
    · exact hinner definition hdef hmem

/-- **A reference cannot be resolved because of a fault met from its macro**, if all active macros reach
that macro. -/
theorem meetsFault_of_resolve (hw : t.Within depth active) (hactive : ∀ a ∈ active, t.Reaches a name)
    (h : t.resolve depth active name = .error e) : t.MeetsFault name e := by
  induction depth generalizing active name with
  | zero =>
    refine meetsFault_of_inner (fun definition hdef hmem => ?_) hactive h
    exact absurd (hw.mem_of_zero (defined_of_get? hdef)) hmem
  | succ depth ih =>
    refine meetsFault_of_inner (fun definition hdef hmem => ?_) hactive h
    rw [resolve_succ hdef hmem] at h
    obtain ⟨b, hb, hresolve⟩ := exists_reference_of_joinPieces h
    have hrefers : t.Refers name b := ⟨definition, hdef, mem_references.mpr hb⟩
    refine (ih (hw.push (defined_of_get? hdef) hmem) (fun a ha => ?_) hresolve).of_refers hrefers
    rcases List.mem_cons.mp ha with rfl | ha
    · exact .single hrefers
    · exact (hactive a ha).tail hrefers

/-- **A fragment cannot be expanded because of a fault** met from a macro that it refers to. -/
theorem exists_meetsFault_of_expand (h : t.expand fragment = .error e) :
    ∃ name ∈ references fragment, t.MeetsFault name e := by
  obtain ⟨name, hname, hresolve⟩ := exists_reference_of_joinPieces h
  exact ⟨name, mem_references.mpr hname,
    meetsFault_of_resolve (.start t) (fun _ ha => absurd ha List.not_mem_nil) hresolve⟩

theorem Sound.exists_expand (ht : t.Sound) (h : ∀ name ∈ references fragment, t.Defined name) :
    ∃ text, t.expand fragment = .ok text := by
  cases hexpand : t.expand fragment with
  | ok text => exact ⟨text, rfl⟩
  | error e =>
    obtain ⟨name, hname, hfault⟩ := exists_meetsFault_of_expand hexpand
    exact absurd hfault (ht.not_meetsFault (h name hname))

theorem Sound.exists_expand_definition (ht : t.Sound) (hdef : t.get? name = some definition) :
    ∃ text, t.expand definition = .ok text :=
  ht.exists_expand fun b hb => ht.closed name b ⟨definition, hdef, hb⟩

/-! ## The expanded table -/

/-- An entry with its definition expanded. -/
def expandedEntry (t : MacroTable) (entry : String × Fragment) :
    Except MacroError (String × Fragment) := (t.expand entry.2).map fun text => (entry.1, text)

theorem expandAll_eq (t : MacroTable) :
    t.expandAll = (t.entries.mapM t.expandedEntry).map fun entries => ⟨.ofList entries⟩ := by
  have hentry : (fun entry : String × Fragment => do
      let definition ← t.expand entry.2
      return (entry.1, definition)) = t.expandedEntry := by
    funext entry
    show (t.expand entry.2).bind _ = _
    unfold expandedEntry
    cases t.expand entry.2 <;> rfl
  unfold expandAll
  rw [hentry]
  cases t.entries.mapM t.expandedEntry <;> rfl

theorem mapM_eq_ok_iff {α β ε : Type} {f : α → Except ε β} {l : List α} {l' : List β} :
    l.mapM f = .ok l' ↔ List.Forall₂ (fun a b => f a = .ok b) l l' := by
  induction l generalizing l' with
  | nil =>
    rw [List.mapM_nil, List.forall₂_nil_left_iff]
    exact ⟨fun h => (Except.ok.inj h).symm, fun h => congrArg Except.ok h.symm⟩
  | cons a l ih =>
    rw [List.mapM_cons, List.forall₂_cons_left_iff]
    cases ha : f a with
    | error e => simp [bind, Except.bind]
    | ok b =>
      cases hl : l.mapM f with
      | error e => simp [bind, Except.bind, ← ih, hl]
      | ok bs => simp [bind, Except.bind, pure, Except.pure, ← ih, hl, eq_comm]

theorem exists_mapM {α β ε : Type} {f : α → Except ε β} {l : List α}
    (h : ∀ a ∈ l, ∃ b, f a = .ok b) : ∃ l', l.mapM f = .ok l' := by
  induction l with
  | nil => exact ⟨[], rfl⟩
  | cons a l ih =>
    obtain ⟨b, hb⟩ := h a List.mem_cons_self
    obtain ⟨bs, hbs⟩ := ih fun x hx => h x (List.mem_cons_of_mem a hx)
    exact ⟨b :: bs, by rw [List.mapM_cons, hb, hbs]; rfl⟩

theorem expandedEntry_eq_ok_iff {entry expanded : String × Fragment} :
    t.expandedEntry entry = .ok expanded ↔
      expanded.1 = entry.1 ∧ t.expand entry.2 = .ok expanded.2 := by
  unfold expandedEntry
  cases t.expand entry.2 with
  | error e => simp [Except.map]
  | ok text => simp [Except.map, Prod.ext_iff, eq_comm]

section

variable {entries expanded : List (String × Fragment)}
  (h : List.Forall₂ (fun a b => t.expandedEntry a = .ok b) entries expanded)
include h

theorem map_fst_expanded : expanded.map (·.1) = entries.map (·.1) := by
  induction h with
  | nil => rfl
  | cons hentry _ ih => rw [List.map_cons, List.map_cons, ih, (expandedEntry_eq_ok_iff.mp hentry).1]

theorem mem_expanded : (name, text) ∈ expanded ↔
    ∃ definition, (name, definition) ∈ entries ∧ t.expand definition = .ok text := by
  induction h with
  | nil => simp
  | @cons entry _ _ _ hentry _ ih =>
    obtain ⟨hname, hexpand⟩ := expandedEntry_eq_ok_iff.mp hentry
    rw [List.mem_cons, ih]
    constructor
    · rintro (rfl | ⟨definition, hdef, htext⟩)
      · exact ⟨entry.2, List.mem_cons.mpr (Or.inl (Prod.ext hname rfl)), hexpand⟩
      · exact ⟨definition, List.mem_cons_of_mem _ hdef, htext⟩
    · rintro ⟨definition, hdef, htext⟩
      rcases List.mem_cons.mp hdef with rfl | hdef
      · exact Or.inl (Prod.ext hname.symm (Except.ok.inj (htext.symm.trans hexpand)))
      · exact Or.inr ⟨definition, hdef, htext⟩

end

/-- **The definitions of an expanded table** are the expansions of the definitions. -/
theorem get?_expandAll (h : t.expandAll = .ok literal) : literal.get? name = some text ↔
    ∃ definition, t.get? name = some definition ∧ t.expand definition = .ok text := by
  rw [expandAll_eq] at h
  cases hmapM : t.entries.mapM t.expandedEntry with
  | error e => rw [hmapM] at h; cases h
  | ok expanded =>
    rw [hmapM] at h
    obtain rfl := Except.ok.inj h
    have hall := mapM_eq_ok_iff.mp hmapM
    have hnodup : (expanded.map (·.1)).Nodup := by
      rw [map_fst_expanded hall]
      exact t.definitions.nodup_names
    refine (NameMap.find?_ofList_of_nodup hnodup).trans ((mem_expanded hall).trans ?_)
    exact exists_congr fun definition => and_congr_left' NameMap.mem_entries_iff

theorem Sound.exists_expandAll (ht : t.Sound) : ∃ literal, t.expandAll = .ok literal := by
  have hentries : ∀ entry ∈ t.entries, ∃ expanded, t.expandedEntry entry = .ok expanded := by
    intro entry hentry
    obtain ⟨text, htext⟩ := ht.exists_expand_definition (NameMap.mem_entries_iff.mp hentry)
    exact ⟨(entry.1, text), expandedEntry_eq_ok_iff.mpr ⟨rfl, htext⟩⟩
  obtain ⟨expanded, hexpanded⟩ := exists_mapM hentries
  exact ⟨⟨.ofList expanded⟩, by rw [expandAll_eq, hexpanded]; rfl⟩

theorem Sound.defined_expandAll_iff (ht : t.Sound) (h : t.expandAll = .ok literal) :
    literal.Defined name ↔ t.Defined name := by
  rw [Defined, Defined, Option.isSome_iff_exists, Option.isSome_iff_exists]
  constructor
  · rintro ⟨text, htext⟩
    obtain ⟨definition, hdef, -⟩ := (get?_expandAll h).mp htext
    exact ⟨definition, hdef⟩
  · rintro ⟨definition, hdef⟩
    obtain ⟨text, htext⟩ := ht.exists_expand_definition hdef
    exact ⟨text, (get?_expandAll h).mpr ⟨definition, hdef, htext⟩⟩

end Selectors.MacroTable
