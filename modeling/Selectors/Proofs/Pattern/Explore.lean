import Mathlib.Data.Set.Insert
import Selectors.Pattern.Search

/-!
# Exploring a place

At one place of the text the threads are followed through the states that read nothing, the preferred
thread first, and no state is visited twice. That costs no match: a state that is visited again leads
to a match only if the thread that came there first does.

* `Accepts`: some way from a state leads to the end of a match;
* `Explores`: the threads followed at one place, with the set of the visited states in place of the
  marks; **`exists_explores`**: `follow` does that; `Explores.unique`;
* `explores_append`: pending threads are followed one behind the other;
* **`Explores.dead`**: if nothing that was reached leads to a match, then nothing visited does;
* **`Explores.prune`**: visited states that lead to no match make no difference.
-/

namespace Selectors

/-! ## Marks as sets -/

namespace Marks

variable {m : Marks} {s r : StateId}

theorem has_clear {n : Nat} (h : s < n) : (clear n).has s = false := by
  unfold has clear
  rw [Array.getD_eq_getD_getElem?, Array.getElem?_replicate, if_pos h]
  rfl

theorem size_add (m : Marks) (s : StateId) : (m.add s).marks.size = m.marks.size :=
  Array.size_setIfInBounds

theorem has_add : (m.add s).has r = (m.has r || r == s) := by
  unfold has add
  rw [Array.getD_eq_getD_getElem?, Array.getD_eq_getD_getElem?, Array.getElem?_setIfInBounds]
  by_cases h : s = r
  · subst h
    by_cases hs : s < m.marks.size
    · simp [hs]
    · simp [hs]
  · simp [h, Ne.symm h]

end Marks

namespace Automaton

variable {a : Automaton} {atStart atEnd : Bool} {position start : Nat} {s : StateId}

/-! ## Paths -/

/-- Where a state leads without reading, at a place that is the start or the end of the text or not. -/
def onward (atStart atEnd : Bool) : State → List StateId
  | .one _ _ | .accept => []
  | .branch nexts => nexts
  | .textStart next => if atStart then [next] else []
  | .textEnd next => if atEnd then [next] else []
  | .note _ next => [next]

/-- **From the state some way leads to the end of a match**, in a text of which `rest` is left at the
position. -/
inductive Accepts (a : Automaton) : Nat → List Char → StateId → Prop
  | accept {position : Nat} {rest : List Char} {s : StateId} (h : a.states[s]? = some .accept) :
    Accepts a position rest s
  | step {position : Nat} {rest : List Char} {s next : StateId} {state : State}
    (h : a.states[s]? = some state) (hn : next ∈ onward (position == 0) rest.isEmpty state)
    (hacc : Accepts a position rest next) : Accepts a position rest s
  | read {position : Nat} {c : Char} {rest : List Char} {s next : StateId} {set : CharSet}
    (h : a.states[s]? = some (.one set next)) (hc : set.contains c = true)
    (hacc : Accepts a (position + 1) rest next) : Accepts a position (c :: rest) s

theorem map_state_goOn (atStart atEnd : Bool) (t : Thread) (state : State) :
    (goOn atStart atEnd t state).map (·.state) = onward atStart atEnd state := by
  unfold goOn onward
  cases state with
  | branch nexts => simp [List.map_map, Function.comp_def]
  | textStart next => cases atStart <;> rfl
  | textEnd next => cases atEnd <;> rfl
  | one | note | accept => rfl

theorem state_mem_onward {t u : Thread} {state : State} (h : u ∈ goOn atStart atEnd t state) :
    u.state ∈ onward atStart atEnd state := by
  rw [← map_state_goOn atStart atEnd t]
  exact List.mem_map_of_mem h

/-! ## Following threads -/

/-- The state neither reads a character nor ends a match. -/
def Silent (state : State) : Prop := (∀ set next, state ≠ .one set next) ∧ state ≠ .accept

/-- **The pending threads are followed** from the visited states on: they come to reading states, in the
order of preference, and perhaps one is accepted. -/
inductive Explores (a : Automaton) (atStart atEnd : Bool) :
    Set StateId → List Thread → List Thread → Option Thread → Set StateId → Prop
  | done {visited : Set StateId} : Explores a atStart atEnd visited [] [] none visited
  | skip {visited visited' : Set StateId} {t : Thread} {pending reached : List Thread}
    {accepted : Option Thread} (h : t.state ∈ visited ∨ a.states[t.state]? = none)
    (hrest : Explores a atStart atEnd visited pending reached accepted visited') :
    Explores a atStart atEnd visited (t :: pending) reached accepted visited'
  | accept {visited : Set StateId} {t : Thread} {pending : List Thread} (hv : t.state ∉ visited)
    (hs : a.states[t.state]? = some .accept) :
    Explores a atStart atEnd visited (t :: pending) [] (some t) visited
  | read {visited visited' : Set StateId} {t : Thread} {pending reached : List Thread}
    {accepted : Option Thread} {set : CharSet} {next : StateId} (hv : t.state ∉ visited)
    (hs : a.states[t.state]? = some (.one set next))
    (hrest : Explores a atStart atEnd (insert t.state visited) pending reached accepted visited') :
    Explores a atStart atEnd visited (t :: pending) (t :: reached) accepted visited'
  | step {visited visited' : Set StateId} {t : Thread} {pending reached : List Thread}
    {accepted : Option Thread} {state : State} (hv : t.state ∉ visited)
    (hs : a.states[t.state]? = some state) (hsilent : Silent state)
    (hrest : Explores a atStart atEnd (insert t.state visited)
      (goOn atStart atEnd t state ++ pending) reached accepted visited') :
    Explores a atStart atEnd visited (t :: pending) reached accepted visited'

variable {visited visited' : Set StateId} {pending reached : List Thread} {accepted : Option Thread}

theorem follow_explores (a : Automaton) (atStart atEnd : Bool) (marks : Marks) (before pending : List Thread)
    (hm : marks.marks.size = a.states.size) :
    ∃ reached visited', (a.follow atStart atEnd marks before pending).1 = before.reverse ++ reached ∧
      Explores a atStart atEnd {s | marks.has s = true ∧ s < a.states.size} pending reached
        (a.follow atStart atEnd marks before pending).2 visited' := by
  have hvisit : ∀ m : Marks, ∀ t : Thread, t.state < a.states.size →
      {s | (m.add t.state).has s = true ∧ s < a.states.size} =
        insert t.state {s | m.has s = true ∧ s < a.states.size} := by
    intro m t ht
    ext s
    rw [Set.mem_insert_iff, Set.mem_ofPred_eq, Set.mem_ofPred_eq, Marks.has_add, Bool.or_eq_true,
      beq_iff_eq]
    constructor
    · rintro ⟨h | h, hs⟩
      · exact Or.inr ⟨h, hs⟩
      · exact Or.inl h
    · rintro (rfl | ⟨h, hs⟩)
      · exact ⟨Or.inr rfl, ht⟩
      · exact ⟨Or.inl h, hs⟩
  have hsize : ∀ {t : Thread} {state}, a.states[t.state]? = some state → t.state < a.states.size :=
    fun h => (Array.getElem?_eq_some_iff.mp h).1
  fun_induction a.follow atStart atEnd marks before pending with
  | case1 marks before => exact ⟨[], _, (List.append_nil _).symm, .done⟩
  | case2 marks before t pending h ih =>
    obtain ⟨reached, visited', hr, hex⟩ := ih hm
    refine ⟨reached, visited', hr, .skip ?_ hex⟩
    by_cases ht : t.state < a.states.size
    · exact Or.inl ⟨h, ht⟩
    · exact Or.inr (Array.getElem?_eq_none (Nat.le_of_not_lt ht))
  | case3 marks before t pending h _ hs ih =>
    obtain ⟨reached, visited', hr, hex⟩ := ih ((Marks.size_add _ _).trans hm)
    refine ⟨reached, visited', hr, .skip (Or.inr hs) ?_⟩
    have ht : ¬ t.state < a.states.size := fun ht => by
      rw [Array.getElem?_eq_getElem ht] at hs; cases hs
    convert hex using 2
    ext s
    rw [Marks.has_add]
    by_cases he : s = t.state
    · subst he; simp [ht]
    · simp [he]
  | case4 marks before t pending h _ hs =>
    exact ⟨[], _, (List.append_nil _).symm, .accept (fun hv => h hv.1) hs⟩
  | case5 marks before t pending h _ set next hs ih =>
    obtain ⟨reached, visited', hr, hex⟩ := ih ((Marks.size_add _ _).trans hm)
    rw [hvisit marks t (hsize hs)] at hex
    refine ⟨t :: reached, visited', ?_, .read (fun hv => h hv.1) hs hex⟩
    rw [hr, List.reverse_cons, List.append_assoc]
    rfl
  | case6 marks before t pending h _ state hacc hone hs ih =>
    obtain ⟨reached, visited', hr, hex⟩ := ih ((Marks.size_add _ _).trans hm)
    rw [hvisit marks t (hsize hs)] at hex
    exact ⟨reached, visited', hr, .step (fun hv => h hv.1) hs ⟨hone, hacc⟩ hex⟩

/-- **`follow` explores the place.** -/
theorem exists_explores (a : Automaton) (atStart atEnd : Bool) (pending : List Thread) :
    ∃ visited', Explores a atStart atEnd ∅ pending
      (a.follow atStart atEnd (.clear a.states.size) [] pending).1
      (a.follow atStart atEnd (.clear a.states.size) [] pending).2 visited' := by
  obtain ⟨reached, visited', hr, hex⟩ := follow_explores a atStart atEnd
    (.clear a.states.size) [] pending Array.size_replicate
  have hnone : {s | (Marks.clear a.states.size).has s = true ∧ s < a.states.size} = ∅ := by
    ext s
    refine ⟨fun ⟨h, hs⟩ => ?_, fun h => h.elim⟩
    rw [Marks.has_clear hs] at h
    cases h
  rw [hnone] at hex
  exact ⟨visited', hr ▸ hex⟩

theorem Explores.unique {reached' : List Thread} {accepted' : Option Thread}
    {visited'' : Set StateId}
    (h : Explores a atStart atEnd visited pending reached accepted visited')
    (h' : Explores a atStart atEnd visited pending reached' accepted' visited'') :
    reached = reached' ∧ accepted = accepted' ∧ visited' = visited'' := by
  induction h generalizing reached' accepted' visited'' with
  | done => cases h'; exact ⟨rfl, rfl, rfl⟩
  | skip h _ ih =>
    cases h' with
    | skip _ h' => exact ih h'
    | accept hv hs => simp [hv, hs] at h
    | read hv hs _ => simp [hv, hs] at h
    | step hv hs _ _ => simp [hv, hs] at h
  | accept hv hs =>
    cases h' with
    | skip h _ => simp [hv, hs] at h
    | accept _ _ => exact ⟨rfl, rfl, rfl⟩
    | read _ hs' _ => rw [hs] at hs'; cases hs'
    | step _ hs' hsilent _ => rw [hs] at hs'; exact absurd (Option.some.inj hs').symm hsilent.2
  | read hv hs _ ih =>
    cases h' with
    | skip h _ => simp [hv, hs] at h
    | accept _ hs' => rw [hs] at hs'; cases hs'
    | read _ _ h' =>
      obtain ⟨rfl, hacc, hvis⟩ := ih h'
      exact ⟨rfl, hacc, hvis⟩
    | step _ hs' hsilent _ => rw [hs] at hs'; exact absurd (Option.some.inj hs').symm (hsilent.1 _ _)
  | step hv hs hsilent _ ih =>
    cases h' with
    | skip h _ => simp [hv, hs] at h
    | accept _ hs' => rw [hs] at hs'; exact absurd (Option.some.inj hs') hsilent.2
    | read _ hs' _ => rw [hs] at hs'; exact absurd (Option.some.inj hs') (hsilent.1 _ _)
    | step _ hs' _ h' =>
      obtain rfl := Option.some.inj (hs.symm.trans hs')
      exact ih h'

theorem Explores.append {before after : List Thread}
    (h : Explores a atStart atEnd visited (before ++ after) reached accepted visited') :
    (∃ t, accepted = some t ∧
      Explores a atStart atEnd visited before reached accepted visited') ∨
    ∃ first second middle, reached = first ++ second ∧
      Explores a atStart atEnd visited before first none middle ∧
      Explores a atStart atEnd middle after second accepted visited' := by
  generalize hp : before ++ after = pending at h
  induction h generalizing before with
  | @done visited =>
    obtain ⟨rfl, rfl⟩ := List.append_eq_nil_iff.mp hp
    exact Or.inr ⟨[], [], visited, rfl, .done, .done⟩
  | @skip visited visited' t pending reached accepted h hrest ih =>
    cases before with
    | nil =>
      obtain rfl : after = t :: pending := hp
      exact Or.inr ⟨[], _, visited, rfl, .done, .skip h hrest⟩
    | cons b before =>
      obtain ⟨rfl, rfl⟩ := List.cons.inj hp
      rcases ih rfl with ⟨t, ht, hex⟩ | ⟨first, second, middle, hr, hex, hex'⟩
      · exact Or.inl ⟨t, ht, .skip h hex⟩
      · exact Or.inr ⟨first, second, middle, hr, .skip h hex, hex'⟩
  | @accept visited t pending hv hs =>
    cases before with
    | nil =>
      obtain rfl : after = t :: pending := hp
      exact Or.inr ⟨[], _, visited, rfl, .done, .accept hv hs⟩
    | cons b before =>
      obtain ⟨rfl, rfl⟩ := List.cons.inj hp
      exact Or.inl ⟨b, rfl, .accept hv hs⟩
  | @read visited visited' t pending reached accepted set next hv hs hrest ih =>
    cases before with
    | nil =>
      obtain rfl : after = t :: pending := hp
      exact Or.inr ⟨[], _, visited, rfl, .done, .read hv hs hrest⟩
    | cons b before =>
      obtain ⟨rfl, rfl⟩ := List.cons.inj hp
      rcases ih rfl with ⟨t, ht, hex⟩ | ⟨first, second, middle, rfl, hex, hex'⟩
      · exact Or.inl ⟨t, ht, .read hv hs hex⟩
      · exact Or.inr ⟨b :: first, second, middle, rfl, .read hv hs hex, hex'⟩
  | @step visited visited' t pending reached accepted state hv hs hsilent hrest ih =>
    cases before with
    | nil =>
      obtain rfl : after = t :: pending := hp
      exact Or.inr ⟨[], _, visited, rfl, .done, .step hv hs hsilent hrest⟩
    | cons b before =>
      obtain ⟨rfl, rfl⟩ := List.cons.inj hp
      rcases ih (List.append_assoc _ _ _) with ⟨t, ht, hex⟩ | ⟨first, second, middle, hr, hex, hex'⟩
      · exact Or.inl ⟨t, ht, .step hv hs hsilent hex⟩
      · exact Or.inr ⟨first, second, middle, hr, .step hv hs hsilent hex, hex'⟩

/-! ## Dead states -/

section Dead

variable {position : Nat} {rest : List Char}

theorem Accepts.of_goOn {t u : Thread} {state : State} (hs : a.states[t.state]? = some state)
    (hu : u ∈ goOn (position == 0) rest.isEmpty t state) (h : a.Accepts position rest u.state) :
    a.Accepts position rest t.state := .step hs (state_mem_onward hu) h

theorem Explores.exists_pending (rest : List Char)
    (h : Explores a (position == 0) rest.isEmpty visited pending reached accepted visited') :
    (∀ u ∈ reached, a.Accepts position rest u.state →
      ∃ t ∈ pending, a.Accepts position rest t.state) ∧
    (accepted ≠ none → ∃ t ∈ pending, a.Accepts position rest t.state) := by
  have hcons {P : Thread → Prop} {t l} (h : ∃ x ∈ l, P x) : ∃ x ∈ t :: l, P x :=
    h.imp fun x hx => ⟨List.mem_cons_of_mem _ hx.1, hx.2⟩
  induction h with
  | done => exact ⟨fun u hu => absurd hu List.not_mem_nil, fun h => absurd rfl h⟩
  | skip _ _ ih =>
    exact ⟨fun u hu hacc => hcons (ih.1 u hu hacc), fun h => hcons (ih.2 h)⟩
  | accept _ hs =>
    exact ⟨fun u hu => absurd hu List.not_mem_nil, fun _ => ⟨_, List.mem_cons_self, .accept hs⟩⟩
  | read _ hs _ ih =>
    refine ⟨fun u hu hacc => ?_, fun h => hcons (ih.2 h)⟩
    rcases List.mem_cons.mp hu with rfl | hu
    · exact ⟨u, List.mem_cons_self, hacc⟩
    · exact hcons (ih.1 u hu hacc)
  | @step visited visited' t pending reached accepted state _ hs _ _ ih =>
    have hback : (∃ u ∈ goOn (position == 0) rest.isEmpty t state ++ pending,
        a.Accepts position rest u.state) → ∃ u ∈ t :: pending, a.Accepts position rest u.state := by
      rintro ⟨u, hu, hacc⟩
      rcases List.mem_append.mp hu with hu | hu
      · exact ⟨t, List.mem_cons_self, .of_goOn hs hu hacc⟩
      · exact ⟨u, List.mem_cons_of_mem t hu, hacc⟩
    exact ⟨fun u hu hacc => hback (ih.1 u hu hacc), fun h => hback (ih.2 h)⟩

/-- What exploring a place without accepting a thread leaves behind: whatever has been visited is
reached, or leads on to visited states only. -/
theorem Explores.closed
    (h : Explores a atStart atEnd visited pending reached none visited') :
    visited ⊆ visited' ∧ (∀ t ∈ pending, t.state ∈ visited' ∨ a.states[t.state]? = none) ∧
      ∀ s ∈ visited', s ∉ visited → (∃ t ∈ reached, t.state = s) ∨
        ∃ state, a.states[s]? = some state ∧ Silent state ∧
          ∀ n ∈ onward atStart atEnd state, n ∈ visited' ∨ a.states[n]? = none := by
  generalize hacc : (none : Option Thread) = accepted at h
  induction h with
  | done => exact ⟨subset_rfl, fun t ht => absurd ht List.not_mem_nil, fun s hs hn => absurd hs hn⟩
  | skip h _ ih =>
    obtain ⟨hsub, hpending, hclosed⟩ := ih hacc
    refine ⟨hsub, fun u hu => ?_, hclosed⟩
    rcases List.mem_cons.mp hu with rfl | hu
    · exact h.imp_left fun h => hsub h
    · exact hpending u hu
  | accept _ _ => cases hacc
  | @read visited visited' t pending reached accepted set next hv hs _ ih =>
    obtain ⟨hsub, hpending, hclosed⟩ := ih hacc
    refine ⟨(Set.subset_insert _ _).trans hsub, fun u hu => ?_, fun s hs' hn => ?_⟩
    · rcases List.mem_cons.mp hu with rfl | hu
      · exact Or.inl (hsub (Set.mem_insert _ _))
      · exact hpending u hu
    · by_cases hst : s = t.state
      · exact Or.inl ⟨t, List.mem_cons_self, hst.symm⟩
      · rcases hclosed s hs' fun h => (Set.mem_insert_iff.mp h).elim hst hn with ⟨u, hu, h⟩ | h
        · exact Or.inl ⟨u, List.mem_cons_of_mem t hu, h⟩
        · exact Or.inr h
  | @step visited visited' t pending reached accepted state hv hs hsilent _ ih =>
    obtain ⟨hsub, hpending, hclosed⟩ := ih hacc
    refine ⟨(Set.subset_insert _ _).trans hsub, fun u hu => ?_, fun s hs' hn => ?_⟩
    · rcases List.mem_cons.mp hu with rfl | hu
      · exact Or.inl (hsub (Set.mem_insert _ _))
      · exact hpending u (List.mem_append_right _ hu)
    · by_cases hst : s = t.state
      · subst hst
        refine Or.inr ⟨state, hs, hsilent, fun n hn => ?_⟩
        rw [← map_state_goOn atStart atEnd t] at hn
        obtain ⟨u, hu, rfl⟩ := List.mem_map.mp hn
        exact hpending u (List.mem_append_left _ hu)
      · exact hclosed s hs' fun h => (Set.mem_insert_iff.mp h).elim hst hn

/-- **If nothing that was reached leads to a match, nothing visited does.** -/
theorem Explores.dead (rest : List Char)
    (h : Explores a (position == 0) rest.isEmpty ∅ pending reached none visited')
    (hdead : ∀ t ∈ reached, ¬ a.Accepts position rest t.state) :
    (∀ s ∈ visited', ¬ a.Accepts position rest s) ∧
      ∀ t ∈ pending, ¬ a.Accepts position rest t.state := by
  obtain ⟨-, hpending, hclosed⟩ := h.closed
  have hnone : ∀ {s}, a.states[s]? = none → ¬ a.Accepts position rest s := by
    intro s hs hacc
    cases hacc with
    | accept h => rw [hs] at h; cases h
    | step h => rw [hs] at h; cases h
    | read h => rw [hs] at h; cases h
  have hvisited : ∀ s, a.Accepts position rest s → s ∉ visited' := by
    intro s hacc
    clear h hpending
    -- a way that stays at this place keeps to visited states; one that leaves it does so from a
    -- state that was reached
    induction hacc with
    | accept h =>
      intro hs
      rcases hclosed _ hs (Set.notMem_empty _) with ⟨t, ht, rfl⟩ | ⟨state, hst, hsilent, -⟩
      · exact hdead t ht (.accept h)
      · exact hsilent.2 (Option.some.inj (hst.symm.trans h))
    | step h hn hacc ih =>
      intro hs
      rcases hclosed _ hs (Set.notMem_empty _) with ⟨t, ht, rfl⟩ | ⟨state, hst, -, honward⟩
      · exact hdead t ht (.step h hn hacc)
      · obtain rfl := Option.some.inj (hst.symm.trans h)
        rcases honward _ hn with hv | hv
        · exact ih hdead hclosed hnone hv
        · exact hnone hv hacc
    | read h hc hacc _ =>
      intro hs
      rcases hclosed _ hs (Set.notMem_empty _) with ⟨t, ht, rfl⟩ | ⟨state, hst, hsilent, -⟩
      · exact hdead t ht (.read h hc hacc)
      · exact hsilent.1 _ _ (Option.some.inj (hst.symm.trans h))
  refine ⟨fun s hs hacc => hvisited s hacc hs, fun t ht hacc => ?_⟩
  exact (hpending t ht).elim (hvisited _ hacc) fun hs => hnone hs hacc

theorem Explores.of_skip_append {before after : List Thread}
    (h : Explores a atStart atEnd visited (before ++ after) reached accepted visited')
    (hb : ∀ t ∈ before, t.state ∈ visited) :
    Explores a atStart atEnd visited after reached accepted visited' := by
  induction before with
  | nil => exact h
  | cons t before ih =>
    have ht := hb t List.mem_cons_self
    cases h with
    | skip _ h => exact ih h fun u hu => hb u (List.mem_cons_of_mem t hu)
    | accept hv _ => exact absurd ht hv
    | read hv _ _ => exact absurd ht hv
    | step hv _ _ _ => exact absurd ht hv

/-- The states from which no way leads to the end of a match. -/
def deadStates (a : Automaton) (position : Nat) (rest : List Char) : Set StateId :=
  {s | ¬ a.Accepts position rest s}

open scoped Classical in
/-- The threads that lead to a match. -/
noncomputable def alive (a : Automaton) (position : Nat) (rest : List Char) (l : List Thread) :
    List Thread := l.filter fun t => decide (a.Accepts position rest t.state)

theorem alive_cons_of_accepts {l : List Thread} {t : Thread} (h : a.Accepts position rest t.state) :
    a.alive position rest (t :: l) = t :: a.alive position rest l := by
  unfold alive
  rw [List.filter_cons_of_pos (by simpa using h)]

theorem alive_cons_of_dead {l : List Thread} {t : Thread} (h : ¬ a.Accepts position rest t.state) :
    a.alive position rest (t :: l) = a.alive position rest l := by
  unfold alive
  rw [List.filter_cons_of_neg (by simpa using h)]

/-- **Dead states may count as visited.** -/
theorem Explores.prune (rest : List Char)
    (h : Explores a (position == 0) rest.isEmpty visited pending reached accepted visited') :
    Explores a (position == 0) rest.isEmpty (visited ∪ a.deadStates position rest) pending
      (a.alive position rest reached) accepted (visited' ∪ a.deadStates position rest) := by
  have hinsert : ∀ {s : StateId} {V : Set StateId}, s ∈ a.deadStates position rest →
      insert s V ∪ a.deadStates position rest = V ∪ a.deadStates position rest := by
    intro s V hs
    rw [Set.insert_union, Set.insert_eq_of_mem (Set.mem_union_right V hs)]
  induction h with
  | done => exact .done
  | skip h _ ih => exact .skip (h.imp_left fun h => Or.inl h) ih
  | accept hv hs => exact .accept (fun h => h.elim hv fun h => h (.accept hs)) hs
  | @read visited visited' t pending reached accepted set next hv hs _ ih =>
    by_cases ht : a.Accepts position rest t.state
    · rw [alive_cons_of_accepts ht]
      rw [Set.insert_union] at ih
      exact .read (fun h => h.elim hv fun h => h ht) hs ih
    · rw [alive_cons_of_dead ht]
      rw [hinsert ht] at ih
      exact .skip (Or.inl (Or.inr ht)) ih
  | @step visited visited' t pending reached accepted state hv hs hsilent _ ih =>
    by_cases ht : a.Accepts position rest t.state
    · rw [Set.insert_union] at ih
      exact .step (fun h => h.elim hv fun h => h ht) hs hsilent ih
    · rw [hinsert ht] at ih
      -- a dead state leads on to dead states only
      exact .skip (Or.inl (Or.inr ht)) (ih.of_skip_append fun u hu =>
        Or.inr fun hacc => ht (.of_goOn hs hu hacc))

end Dead

end Automaton

end Selectors
