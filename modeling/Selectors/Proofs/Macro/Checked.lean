import Mathlib.Data.List.Basic
import Selectors.Proofs.Macro.Reachable

/-!
# Tables in which every macro can be expanded

A table is checked by a walk along the references, depth first. A macro is left out when its visit has
ended, and it is a fault when its visit has not. The macros whose visits have ended refer only to each
other, those that ended later to those that ended before; so none of them reaches itself.

* `Walk`: the walk without a bound on its nesting; **`walk_foldlM`**: the bound of `visit` is never met;
* `Ended`: the macros whose visits have ended; **`Walk.ended`**: what the walk preserves;
* `Walk.exists_meetsFault`: why it fails;
* **`ofList?_accepts_iff`**: the check accepts the sound tables.
-/

namespace Selectors.MacroTable

open Macro

/-! ## The walk -/

/-- **What comes of visiting `names` in turn**, inside of the visits of the macros in `active`, when the
visits of the macros in `done` have ended. -/
inductive Walk (t : MacroTable) :
    List String → List String → List String → Except MacroError (List String) → Prop
  /-- Nothing is left to visit. -/
  | nil {active done} : Walk t active done [] (.ok done)
  /-- The visit of the macro has ended before. -/
  | again {active done name names r} (h : name ∈ done) (next : Walk t active done names r) :
      Walk t active done (name :: names) r
  /-- There is no such macro. -/
  | undefined {active done name names} (hnew : name ∉ done) (h : t.get? name = none) :
      Walk t active done (name :: names) (.error (.undefined name))
  /-- The visit of the macro has not ended. -/
  | cyclic {active done name names definition} (hnew : name ∉ done)
      (hdef : t.get? name = some definition) (h : name ∈ active) :
      Walk t active done (name :: names) (.error (.cyclic name))
  /-- The visit of the macro fails. -/
  | fail {active done name names definition e} (hnew : name ∉ done)
      (hdef : t.get? name = some definition) (h : name ∉ active)
      (inner : Walk t (name :: active) done (references definition) (.error e)) :
      Walk t active done (name :: names) (.error e)
  /-- The visit of the macro ends. -/
  | pass {active done done' name names definition r} (hnew : name ∉ done)
      (hdef : t.get? name = some definition) (h : name ∉ active)
      (inner : Walk t (name :: active) done (references definition) (.ok done'))
      (next : Walk t active (name :: done') names r) : Walk t active done (name :: names) r

variable {t : MacroTable} {name : String} {definition : Fragment} {depth : Nat}
  {active done done' names : List String} {r : Except MacroError (List String)} {e : MacroError}

namespace Walk

theorem unique {r' : Except MacroError (List String)} (h : t.Walk active done names r)
    (h' : t.Walk active done names r') : r = r' := by
  induction h generalizing r' with
  | nil => cases h'; rfl
  | again hdone _ ih =>
    cases h' with
    | again _ next => exact ih next
    | undefined hnew | cyclic hnew | fail hnew | pass hnew => exact absurd hdone hnew
  | undefined hnew hnone =>
    cases h' with
    | again hdone => exact absurd hdone hnew
    | undefined => rfl
    | cyclic _ hdef | fail _ hdef | pass _ hdef => rw [hnone] at hdef; cases hdef
  | cyclic hnew hdef hactive =>
    cases h' with
    | again hdone => exact absurd hdone hnew
    | undefined _ hnone => rw [hnone] at hdef; cases hdef
    | cyclic => rfl
    | fail _ _ hopen | pass _ _ hopen => exact absurd hactive hopen
  | fail hnew hdef hopen _ ih =>
    cases h' with
    | again hdone => exact absurd hdone hnew
    | undefined _ hnone => rw [hnone] at hdef; cases hdef
    | cyclic _ _ hactive => exact absurd hactive hopen
    | fail _ hdef' _ inner' =>
      obtain rfl := Option.some.inj (hdef.symm.trans hdef')
      exact ih inner'
    | pass _ hdef' _ inner' =>
      obtain rfl := Option.some.inj (hdef.symm.trans hdef')
      cases ih inner'
  | pass hnew hdef hopen _ _ ih ih' =>
    cases h' with
    | again hdone => exact absurd hdone hnew
    | undefined _ hnone => rw [hnone] at hdef; cases hdef
    | cyclic _ _ hactive => exact absurd hactive hopen
    | fail _ hdef' _ inner' =>
      obtain rfl := Option.some.inj (hdef.symm.trans hdef')
      cases ih inner'
    | pass _ hdef' _ inner' next' =>
      obtain rfl := Option.some.inj (hdef.symm.trans hdef')
      obtain rfl := Except.ok.inj (ih inner')
      exact ih' next'

end Walk

/-! ## Nesting -/

theorem visit_of_mem (active : List String) (h : name ∈ done) :
    t.visit depth active done name = .ok done := by
  cases depth <;> simp [visit, h]

theorem visit_of_none (active : List String) (hnew : name ∉ done) (h : t.get? name = none) :
    t.visit depth active done name = .error (.undefined name) := by
  cases depth <;> simp [visit, hnew, h]

theorem visit_of_active (hnew : name ∉ done) (hdef : t.get? name = some definition)
    (h : name ∈ active) : t.visit depth active done name = .error (.cyclic name) := by
  cases depth <;> simp [visit, hnew, hdef, h]

theorem visit_succ (hnew : name ∉ done) (hdef : t.get? name = some definition) (h : name ∉ active) :
    t.visit (depth + 1) active done name =
      ((references definition).foldlM (t.visit depth (name :: active)) done).map (name :: ·) := by
  rw [visit, if_neg hnew, hdef]
  dsimp only
  rw [if_neg h]
  cases (references definition).foldlM (t.visit depth (name :: active)) done <;> rfl

theorem foldlM_of_ok {visit : List String → String → Except MacroError (List String)}
    (h : visit done name = .ok done') (names : List String) :
    (name :: names).foldlM visit done = names.foldlM visit done' := by
  rw [List.foldlM_cons, h]; rfl

theorem foldlM_of_error {visit : List String → String → Except MacroError (List String)}
    (h : visit done name = .error e) (names : List String) :
    (name :: names).foldlM visit done = .error e := by
  rw [List.foldlM_cons, h]; rfl

theorem walk_foldlM_of_inner (hinner : ∀ done name definition, name ∉ done →
      t.get? name = some definition → name ∉ active → ∃ r,
        t.Walk (name :: active) done (references definition) r ∧
          t.visit depth active done name = r.map (name :: ·)) (done names : List String) :
    t.Walk active done names (names.foldlM (t.visit depth active) done) := by
  induction names generalizing done with
  | nil => exact .nil
  | cons name names ih =>
    by_cases hdone : name ∈ done
    · rw [foldlM_of_ok (visit_of_mem active hdone)]
      exact .again hdone (ih done)
    · cases hdef : t.get? name with
      | none =>
        rw [foldlM_of_error (visit_of_none active hdone hdef)]
        exact .undefined hdone hdef
      | some definition =>
        by_cases hactive : name ∈ active
        · rw [foldlM_of_error (visit_of_active hdone hdef hactive)]
          exact .cyclic hdone hdef hactive
        · obtain ⟨r, hr, hvisit⟩ := hinner done name definition hdone hdef hactive
          cases r with
          | error e =>
            rw [foldlM_of_error hvisit]
            exact .fail hdone hdef hactive hr
          | ok done' =>
            rw [foldlM_of_ok hvisit]
            exact .pass hdone hdef hactive hr (ih _)

/-- **The bound on the nesting of visits is never met**: as long as it covers the macros that are not
active, visiting names in turn is the walk without a bound. -/
theorem walk_foldlM (hw : t.Within depth active) (done names : List String) :
    t.Walk active done names (names.foldlM (t.visit depth active) done) := by
  induction depth generalizing active done names with
  | zero =>
    refine walk_foldlM_of_inner (fun _ name definition _ hdef hactive => ?_) done names
    exact absurd (hw.mem_of_zero (defined_of_get? hdef)) hactive
  | succ depth ih =>
    refine walk_foldlM_of_inner (fun done name definition hnew hdef hactive => ?_) done names
    exact ⟨_, ih (hw.push (defined_of_get? hdef) hactive) done _, visit_succ hnew hdef hactive⟩

/-! ## Visits that have ended -/

/-- **Macros that refer only to those behind them**, all of them different. -/
inductive Ended (t : MacroTable) : List String → Prop
  | nil : Ended t []
  | cons {name : String} {definition : Fragment} {done : List String} (hnew : name ∉ done)
      (hdef : t.get? name = some definition) (hrefs : ∀ b ∈ references definition, b ∈ done)
      (h : Ended t done) : Ended t (name :: done)

namespace Ended

variable {a b : String}

theorem defined (h : t.Ended done) (ha : a ∈ done) : t.Defined a := by
  induction h with
  | nil => exact absurd ha List.not_mem_nil
  | cons _ hdef _ _ ih =>
    rcases List.mem_cons.mp ha with rfl | ha
    · exact defined_of_get? hdef
    · exact ih ha

theorem mem_of_refers (h : t.Ended done) (ha : a ∈ done) (hab : t.Refers a b) : b ∈ done := by
  induction h with
  | nil => exact absurd ha List.not_mem_nil
  | cons _ hdef hrefs _ ih =>
    refine List.mem_cons_of_mem _ ?_
    rcases List.mem_cons.mp ha with rfl | ha
    · obtain ⟨definition', hdef', hb⟩ := hab
      obtain rfl := Option.some.inj (hdef.symm.trans hdef')
      exact hrefs b hb
    · exact ih ha

theorem mem_of_reaches (h : t.Ended done) (ha : a ∈ done) (hab : t.Reaches a b) : b ∈ done := by
  induction hab with
  | single hb => exact h.mem_of_refers ha hb
  | tail _ hc hb => exact h.mem_of_refers hb hc

/-- None of them reaches itself: what a macro reaches lies behind it. -/
theorem not_reaches_self (h : t.Ended done) (ha : a ∈ done) : ¬ t.Reaches a a := by
  induction h with
  | nil => exact absurd ha List.not_mem_nil
  | @cons name definition done hnew hdef hrefs hdone ih =>
    rcases List.mem_cons.mp ha with rfl | ha
    · intro hreach
      obtain ⟨b, ⟨definition', hdef', hb⟩, hba⟩ := Relation.TransGen.head'_iff.mp hreach
      obtain rfl := Option.some.inj (hdef.symm.trans hdef')
      rcases Relation.reflTransGen_iff_eq_or_transGen.mp hba with rfl | hba
      · exact hnew (hrefs _ hb)
      · exact hnew (hdone.mem_of_reaches (hrefs b hb) hba)
    · exact ih ha

end Ended

namespace Walk

/-- **What a walk preserves**: the visits that have ended stay so, all names are among them in the end,
and no visit of an active macro ends. -/
theorem ended (h : t.Walk active done names r) (hr : r = .ok done') (hdone : t.Ended done) :
    t.Ended done' ∧ done ⊆ done' ∧ names ⊆ done' ∧ ∀ a ∈ done', a ∈ done ∨ a ∉ active := by
  induction h generalizing done' with
  | nil =>
    obtain rfl := Except.ok.inj hr
    exact ⟨hdone, fun _ h => h, List.nil_subset _, fun _ h => Or.inl h⟩
  | again hmem _ ih =>
    obtain ⟨hended, hsub, hnames, hactive⟩ := ih hr hdone
    exact ⟨hended, hsub, List.cons_subset.mpr ⟨hsub hmem, hnames⟩, hactive⟩
  | undefined | cyclic | fail => cases hr
  | @pass active done mid name names definition r hnew hdef hopen _ _ ih ih' =>
    obtain ⟨hmid, hsub, hrefs, hactive⟩ := ih rfl hdone
    have hname : name ∉ mid := by
      intro hm
      exact (hactive name hm).elim hnew fun h => h List.mem_cons_self
    obtain ⟨hended, hsub', hnames, hactive'⟩ := ih' hr (.cons hname hdef hrefs hmid)
    refine ⟨hended, fun a ha => hsub' (List.mem_cons_of_mem _ (hsub ha)),
      List.cons_subset.mpr ⟨hsub' List.mem_cons_self, hnames⟩, fun a ha => ?_⟩
    rcases hactive' a ha with hm | hm
    · rcases List.mem_cons.mp hm with rfl | hm
      · exact Or.inr hopen
      · exact (hactive a hm).imp_right fun h hm => h (List.mem_cons_of_mem _ hm)
    · exact Or.inr hm

/-- **A walk fails because of a fault met from one of the names**, if these are reached by all macros
that are active. -/
theorem exists_meetsFault (h : t.Walk active done names r) (hr : r = .error e)
    (hactive : ∀ a ∈ active, ∀ name ∈ names, t.Reaches a name) : ∃ name ∈ names, t.MeetsFault name e := by
  induction h with
  | nil => cases hr
  | again _ _ ih =>
    obtain ⟨name, hname, hfault⟩ := ih hr fun a ha name hn => hactive a ha name (List.mem_cons_of_mem _ hn)
    exact ⟨name, List.mem_cons_of_mem _ hname, hfault⟩
  | @undefined active done name names _ hnone =>
    obtain rfl := Except.error.inj hr
    exact ⟨name, List.mem_cons_self, .refl, not_defined_of_get? hnone⟩
  | @cyclic active done name names definition _ _ hmem =>
    obtain rfl := Except.error.inj hr
    exact ⟨name, List.mem_cons_self, .refl, hactive name hmem name List.mem_cons_self⟩
  | @fail active done name names definition e _ hdef _ _ ih =>
    have hrefs : ∀ b ∈ references definition, t.Refers name b := fun b hb => ⟨definition, hdef, hb⟩
    obtain ⟨b, hb, hfault⟩ := ih hr fun a ha b hb => by
      rcases List.mem_cons.mp ha with rfl | ha
      · exact .single (hrefs b hb)
      · exact (hactive a ha name List.mem_cons_self).tail (hrefs b hb)
    exact ⟨name, List.mem_cons_self, hfault.of_refers (hrefs b hb)⟩
  | pass _ _ _ _ _ _ ih' =>
    obtain ⟨name, hname, hfault⟩ := ih' hr fun a ha name hn => hactive a ha name (List.mem_cons_of_mem _ hn)
    exact ⟨name, List.mem_cons_of_mem _ hname, hfault⟩

end Walk

/-! ## The check -/

/-- The table of the pairs, of two pairs with one name the later, whether or not its macros can be
expanded. -/
def ofPairs (pairs : List (String × Fragment)) : MacroTable := ⟨.ofList pairs⟩

theorem get?_ofPairs {pairs : List (String × Fragment)} :
    (ofPairs pairs).get? name = some definition ↔ ∃ before behind,
      pairs = before ++ (name, definition) :: behind ∧ ∀ p ∈ behind, p.1 ≠ name :=
  NameMap.find?_ofList_eq_some_iff

theorem mem_names_iff : name ∈ t.definitions.names ↔ t.Defined name := NameMap.mem_names_iff

theorem Walk.sound (h : t.Walk [] [] t.definitions.names (.ok done)) : t.Sound := by
  obtain ⟨hended, -, hnames, -⟩ := h.ended rfl .nil
  have hmem : ∀ {a}, t.Defined a → a ∈ done := fun ha => hnames (mem_names_iff.mpr ha)
  exact ⟨fun a b hab => hended.defined (hended.mem_of_refers (hmem hab.defined) hab),
    fun a ha => hended.not_reaches_self (hmem ha)⟩

theorem Walk.exists_fault (h : t.Walk [] [] t.definitions.names (.error e)) :
    ∃ name, t.Defined name ∧ t.MeetsFault name e := by
  obtain ⟨name, hname, hfault⟩ := h.exists_meetsFault rfl fun _ ha => absurd ha List.not_mem_nil
  exact ⟨name, mem_names_iff.mp hname, hfault⟩

section

variable {pairs : List (String × Fragment)}

theorem exists_walk (pairs : List (String × Fragment)) :
    ∃ r, (ofPairs pairs).Walk [] [] (ofPairs pairs).definitions.names r ∧
      ofList? pairs = r.map fun _ => ofPairs pairs := by
  let t : MacroTable := ofPairs pairs
  refine ⟨t.definitions.names.foldlM (t.visit t.size []) [], walk_foldlM (.start t) [] _, ?_⟩
  show (discard (t.definitions.names.foldlM (t.visit t.size []) [])).bind (fun _ => .ok t) = _
  cases t.definitions.names.foldlM (t.visit t.size []) [] <;> rfl

theorem sound_of_ofList? (h : ofList? pairs = .ok t) : t = ofPairs pairs ∧ t.Sound := by
  obtain ⟨r, hwalk, hr⟩ := exists_walk pairs
  rw [h] at hr
  cases r with
  | error e => cases hr
  | ok done =>
    obtain rfl := Except.ok.inj hr
    exact ⟨rfl, hwalk.sound⟩

theorem exists_fault_of_ofList? (h : ofList? pairs = .error e) :
    ∃ name, (ofPairs pairs).Defined name ∧ (ofPairs pairs).MeetsFault name e := by
  obtain ⟨r, hwalk, hr⟩ := exists_walk pairs
  rw [h] at hr
  cases r with
  | ok done => cases hr
  | error e' =>
    obtain rfl := Except.error.inj hr
    exact hwalk.exists_fault

/-- **The check accepts the tables without faults**: all references are to macros of the table, and none
reaches itself. A failure names a macro that is referred to and not defined, or one that reaches itself.
The walk of the check ends in every table, whatever it refers to. -/
theorem ofList?_accepts_iff (pairs : List (String × Fragment)) :
    (∀ name definition, (ofPairs pairs).get? name = some definition ↔ ∃ before behind,
      pairs = before ++ (name, definition) :: behind ∧ ∀ p ∈ behind, p.1 ≠ name) ∧
    ((∃ t, ofList? pairs = .ok t) ↔
      (∀ a b, (ofPairs pairs).Refers a b → (ofPairs pairs).Defined b) ∧
        ∀ a, (ofPairs pairs).Defined a → ¬ (ofPairs pairs).Reaches a a) ∧
    (∀ x, ofList? pairs = .error (.undefined x) →
      (∃ a, (ofPairs pairs).Refers a x) ∧ ¬ (ofPairs pairs).Defined x) ∧
    (∀ x, ofList? pairs = .error (.cyclic x) →
      (ofPairs pairs).Defined x ∧ (ofPairs pairs).Reaches x x) ∧
    ∃! r, (ofPairs pairs).Walk [] [] (ofPairs pairs).definitions.names r ∧
      ofList? pairs = r.map fun _ => ofPairs pairs := by
  refine ⟨fun _ _ => get?_ofPairs, ⟨?_, ?_⟩, fun x hx => ?_, fun x hx => ?_, ?_⟩
  · rintro ⟨t, ht⟩
    obtain ⟨rfl, hsound⟩ := sound_of_ofList? ht
    exact ⟨hsound.closed, hsound.acyclic⟩
  · rintro ⟨hclosed, hacyclic⟩
    cases h : ofList? pairs with
    | ok t => exact ⟨t, rfl⟩
    | error e =>
      obtain ⟨name, hname, hfault⟩ := exists_fault_of_ofList? h
      exact absurd hfault (Sound.not_meetsFault ⟨hclosed, hacyclic⟩ hname)
  · obtain ⟨name, hname, hfault⟩ := exists_fault_of_ofList? hx
    exact ⟨hfault.exists_refers hname, hfault.2⟩
  · obtain ⟨name, -, hfault⟩ := exists_fault_of_ofList? hx
    exact ⟨hfault.2.defined, hfault.2⟩
  · obtain ⟨r, hwalk, hr⟩ := exists_walk pairs
    exact ⟨r, ⟨hwalk, hr⟩, fun _ h => h.1.unique hwalk⟩

/-- A diamond is no cycle, and a later definition of a macro counts. -/
example : (ofList? ([("a", "#{b}#{c}"), ("b", "#{d}"), ("c", "#{d}"), ("d", "#{a}"), ("d", "x")].map
    fun (name, definition) => (name, definition.toList))).toOption.isSome := by
  decide +kernel

end

end Selectors.MacroTable
