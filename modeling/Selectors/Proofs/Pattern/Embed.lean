import Mathlib.Data.List.Basic
import Mathlib.Data.Set.Function
import Selectors.Proofs.Pattern.Blocks
import Selectors.Proofs.Pattern.Race

/-!
# Steps of a race, and races in a part of an automaton

What one thread comes to, by the state that it is in; and that it comes to the same in any automaton
that holds the states around it, whatever their numbers are there.

* `race_accept`, `race_one_cons`, **`race_silent`**: the three kinds of states;
* `Embeds`: a part of one automaton stands in another; **`Embeds.race_eq`**: the races are the same.
-/

namespace Selectors

/-- The thread in a renamed state, with more names behind its own. -/
def Thread.move (φ : StateId → StateId) (more : List String) (t : Thread) : Thread :=
  ⟨φ t.state, t.start, t.names ++ more⟩

/-- The match, with more names behind its own. -/
def Found.withNames (more : List String) (f : Found) : Found := { f with names := f.names ++ more }

@[simp] theorem Found.withNames_start (more : List String) (f : Found) :
    (f.withNames more).start = f.start := rfl

@[simp] theorem Found.withNames_stop (more : List String) (f : Found) :
    (f.withNames more).stop = f.stop := rfl

namespace Automaton

variable {a b : Automaton} {position : Nat} {rest : List Char} {t : Thread} {P : List Thread}

/-! ## Single steps -/

theorem race_accept (h : a.states[t.state]? = some .accept) :
    a.race position [t] rest = some (foundAt position t) := by
  have hex : ∀ atEnd, a.explore (position == 0) atEnd [t] = ([], some t) := fun atEnd =>
    explore_eq (.accept (Set.notMem_empty _) h)
  cases rest with
  | nil =>
    show (a.explore (position == 0) true [t]).2.map _ = _
    rw [hex]
    rfl
  | cons c rest =>
    rw [race_cons, hex, List.filterMap_nil, race_nil]
    rfl

theorem explore_one {set : CharSet} {next : StateId} (atStart atEnd : Bool)
    (h : a.states[t.state]? = some (.one set next)) :
    a.explore atStart atEnd [t] = ([t], none) :=
  explore_eq (.read (Set.notMem_empty _) h .done)

theorem race_one_nil {set : CharSet} {next : StateId} (h : a.states[t.state]? = some (.one set next)) :
    a.race position [t] [] = none := by
  show (a.explore (position == 0) true [t]).2.map _ = _
  rw [explore_one _ _ h]
  rfl

theorem race_one_cons {set : CharSet} {next : StateId} {c : Char}
    (h : a.states[t.state]? = some (.one set next)) : a.race position [t] (c :: rest) =
      if set.contains c then a.race (position + 1) [{ t with state := next }] rest else none := by
  rw [race_cons, explore_one _ _ h, Option.map_none, Option.or_none, List.filterMap_cons,
    read?_of_one h]
  by_cases hc : set.contains c = true
  · rw [if_pos hc, if_pos hc]; rfl
  · rw [if_neg hc, if_neg hc]; exact race_nil

/-- The states from `C` lead on, without reading, to `C` only. -/
def ClosedOnward (a : Automaton) (atStart atEnd : Bool) (C : Set StateId) : Prop :=
  ∀ s ∈ C, ∀ state, a.states[s]? = some state → ∀ n ∈ onward atStart atEnd state, n ∈ C

theorem Explores.insert_of_closed {atStart atEnd : Bool} {C visited visited' : Set StateId}
    {reached : List Thread} {accepted : Option Thread} {s : StateId}
    (hC : a.ClosedOnward atStart atEnd C) (hs : s ∉ C) (hP : ∀ p ∈ P, p.state ∈ C)
    (h : Explores a atStart atEnd visited P reached accepted visited') :
    Explores a atStart atEnd (insert s visited) P reached accepted (insert s visited') := by
  have hne : ∀ {p : Thread} {V : Set StateId}, p.state ∈ C → p.state ∉ V →
      p.state ∉ insert s V := by
    intro p V hp hv h
    rcases Set.mem_insert_iff.mp h with rfl | h
    · exact hs hp
    · exact hv h
  induction h with
  | done => exact .done
  | skip h _ ih =>
    exact .skip (h.imp_left (Set.mem_insert_of_mem s)) (ih fun p hp => hP p (List.mem_cons_of_mem _ hp))
  | accept hv hst => exact .accept (hne (hP _ List.mem_cons_self) hv) hst
  | read hv hst _ ih =>
    refine .read (hne (hP _ List.mem_cons_self) hv) hst ?_
    rw [Set.insert_comm]
    exact ih fun p hp => hP p (List.mem_cons_of_mem _ hp)
  | @step visited visited' p pending reached accepted state hv hst hsilent _ ih =>
    have hp := hP p List.mem_cons_self
    refine .step (hne hp hv) hst hsilent ?_
    rw [Set.insert_comm]
    refine ih fun q hq => ?_
    rcases List.mem_append.mp hq with hq | hq
    · exact hC p.state hp state hst _ (state_mem_onward hq)
    · exact hP q (List.mem_cons_of_mem _ hq)

/-- **A thread in a silent state comes to what the threads come to that go on from it**, if none of
them can come back to that state without reading. -/
theorem race_silent {state : State} {C : Set StateId} (hs : a.states[t.state]? = some state)
    (hsilent : Silent state) (hC : a.ClosedOnward (position == 0) rest.isEmpty C) (ht : t.state ∉ C)
    (hon : ∀ n ∈ onward (position == 0) rest.isEmpty state, n ∈ C) :
    a.race position [t] rest = a.race position (goOn (position == 0) rest.isEmpty t state) rest := by
  obtain ⟨visited, hex⟩ := exists_explores a (position == 0) rest.isEmpty
    (goOn (position == 0) rest.isEmpty t state)
  have hone : a.explore (position == 0) rest.isEmpty [t] =
      a.explore (position == 0) rest.isEmpty (goOn (position == 0) rest.isEmpty t state) := by
    rw [explore_eq hex]
    generalize a.follow _ _ _ _ _ = e at hex
    have hinsert := hex.insert_of_closed hC ht fun p hp => hon _ (state_mem_onward hp)
    rw [← List.append_nil (goOn _ _ t state)] at hinsert
    exact explore_eq (.step (Set.notMem_empty _) hs hsilent hinsert)
  cases rest with
  | nil => exact congrArg (fun e => e.2.map (foundAt position)) hone
  | cons c rest =>
    rw [race_cons, race_cons]
    exact congrArg (fun e : List Thread × Option Thread =>
      (a.race (position + 1) (e.1.filterMap (a.read? c)) rest).or (e.2.map (foundAt position))) hone

/-! ## Parts of automata -/

/-- The states of `region` stand in `b` as well, renamed by `φ`, and lead nowhere else. -/
structure Embeds (a b : Automaton) (region : Set StateId) (φ : StateId → StateId) : Prop where
  injective : Set.InjOn φ region
  states_eq : ∀ s ∈ region, ∃ state, a.states[s]? = some state ∧
    b.states[φ s]? = some (state.map φ) ∧ ∀ n ∈ state.nexts, n ∈ region

theorem onward_subset_nexts {atStart atEnd : Bool} {state : State} {n : StateId}
    (h : n ∈ onward atStart atEnd state) : n ∈ state.nexts := by
  cases state with
  | one | accept => cases h
  | branch | note => exact h
  | textStart next => cases atStart <;> first | exact h | cases h
  | textEnd next => cases atEnd <;> first | exact h | cases h

theorem goOn_move {atStart atEnd : Bool} (φ : StateId → StateId) (more : List String) (t : Thread)
    (state : State) : goOn atStart atEnd (t.move φ more) (state.map φ) =
      (goOn atStart atEnd t state).map (·.move φ more) := by
  cases state with
  | one | accept | note => rfl
  | branch nexts => simp [goOn, State.map, Thread.move, Function.comp_def]
  | textStart next => cases atStart <;> rfl
  | textEnd next => cases atEnd <;> rfl

namespace Embeds

variable {region : Set StateId} {φ : StateId → StateId} {more : List String}

theorem explores (h : Embeds a b region φ) (more : List String) {atStart atEnd : Bool} {visited visited' : Set StateId}
    {reached : List Thread} {accepted : Option Thread}
    (hex : Explores a atStart atEnd visited P reached accepted visited')
    (hP : ∀ t ∈ P, t.state ∈ region) (hvisited : visited ⊆ region) :
    Explores b atStart atEnd (φ '' visited) (P.map (·.move φ more)) (reached.map (·.move φ more))
      (accepted.map (·.move φ more)) (φ '' visited') ∧ ∀ t ∈ reached, t.state ∈ region := by
  have hnot : ∀ {t : Thread} {V : Set StateId}, V ⊆ region → t.state ∈ region → t.state ∉ V →
      (t.move φ more).state ∉ φ '' V := by
    rintro t V hV ht hv ⟨s, hs, he⟩
    exact hv (h.injective (hV hs) ht he ▸ hs)
  induction hex with
  | done => exact ⟨.done, fun t ht => absurd ht List.not_mem_nil⟩
  | skip hskip _ ih =>
    obtain ⟨hex, hr⟩ := ih (fun u hu => hP u (List.mem_cons_of_mem _ hu)) hvisited
    refine ⟨.skip ?_ hex, hr⟩
    rcases hskip with hv | hnone
    · exact Or.inl (Set.mem_image_of_mem φ hv)
    · obtain ⟨state, hs, -⟩ := h.states_eq _ (hP _ List.mem_cons_self)
      rw [hnone] at hs
      cases hs
  | accept hv hs =>
    have ht := hP _ List.mem_cons_self
    obtain ⟨state, hs', hmap, -⟩ := h.states_eq _ ht
    obtain rfl := Option.some.inj (hs.symm.trans hs')
    exact ⟨.accept (hnot hvisited ht hv) hmap, fun t ht => absurd ht List.not_mem_nil⟩
  | @read visited visited' t pending reached accepted set next hv hs _ ih =>
    have ht := hP t List.mem_cons_self
    obtain ⟨state, hs', hmap, -⟩ := h.states_eq _ ht
    obtain rfl := Option.some.inj (hs.symm.trans hs')
    obtain ⟨hex, hr⟩ := ih (fun u hu => hP u (List.mem_cons_of_mem _ hu))
      (Set.insert_subset ht hvisited)
    rw [Set.image_insert_eq] at hex
    refine ⟨.read (hnot hvisited ht hv) hmap hex, fun u hu => ?_⟩
    rcases List.mem_cons.mp hu with rfl | hu
    · exact ht
    · exact hr u hu
  | @step visited visited' t pending reached accepted state hv hs hsilent _ ih =>
    have ht := hP t List.mem_cons_self
    obtain ⟨state', hs', hmap, hnexts⟩ := h.states_eq _ ht
    obtain rfl := Option.some.inj (hs.symm.trans hs')
    obtain ⟨hex, hr⟩ := ih (fun u hu => (List.mem_append.mp hu).elim
      (fun hu => hnexts _ (onward_subset_nexts (state_mem_onward hu)))
      fun hu => hP u (List.mem_cons_of_mem _ hu)) (Set.insert_subset ht hvisited)
    rw [Set.image_insert_eq, List.map_append, ← goOn_move] at hex
    have hmoved : Silent (state.map φ) := by
      obtain ⟨hone, hacc⟩ := hsilent
      cases state with
      | one set next => exact absurd rfl (hone set next)
      | accept => exact absurd rfl hacc
      | branch | textStart | textEnd | note => exact ⟨fun _ _ => State.noConfusion, State.noConfusion⟩
    exact ⟨.step (hnot hvisited ht hv) hmap hmoved hex, hr⟩

theorem explore_eq (h : Embeds a b region φ) (more : List String) (atStart atEnd : Bool)
    (hP : ∀ t ∈ P, t.state ∈ region) :
    b.explore atStart atEnd (P.map (·.move φ more)) =
        ((a.explore atStart atEnd P).1.map (·.move φ more),
          (a.explore atStart atEnd P).2.map (·.move φ more)) ∧
      ∀ t ∈ (a.explore atStart atEnd P).1, t.state ∈ region := by
  obtain ⟨visited, hex⟩ := exists_explores a atStart atEnd P
  obtain ⟨hmoved, hr⟩ := h.explores more hex hP (Set.empty_subset _)
  rw [Set.image_empty] at hmoved
  exact ⟨Automaton.explore_eq hmoved, hr⟩

/-- **A race in a part of an automaton** does not depend on what else there is, nor on the numbers of
the states. -/
theorem race_eq (h : Embeds a b region φ) (more : List String) (hP : ∀ t ∈ P, t.state ∈ region) :
    b.race position (P.map (·.move φ more)) rest =
      (a.race position P rest).map (·.withNames more) := by
  induction rest generalizing position P with
  | nil =>
    show (b.explore (position == 0) true _).2.map _ = ((a.explore (position == 0) true P).2.map _).map _
    rw [(h.explore_eq more _ _ hP).1, Option.map_map, Option.map_map]
    rfl
  | cons c rest ih =>
    obtain ⟨hexplore, hr⟩ := h.explore_eq more (position == 0) false hP
    rw [race_cons, race_cons, hexplore]
    generalize a.explore (position == 0) false P = e at hr
    obtain ⟨reached, accepted⟩ := e
    have hread : ∀ t : Thread, t.state ∈ region →
        b.read? c (t.move φ more) = (a.read? c t).map (·.move φ more) ∧
          ∀ u ∈ a.read? c t, u.state ∈ region := by
      intro t ht
      obtain ⟨state, hs, hmap, hnexts⟩ := h.states_eq _ ht
      have hb : b.states[(t.move φ more).state]? = some (state.map φ) := hmap
      cases state with
      | one set next =>
        rw [read?_of_one hs, read?_of_one hb]
        by_cases hc : set.contains c = true
        · rw [if_pos hc, if_pos hc]
          refine ⟨rfl, fun u hu => ?_⟩
          obtain rfl := Option.some.inj hu
          exact hnexts next List.mem_cons_self
        · rw [if_neg hc, if_neg hc]
          exact ⟨rfl, fun u hu => by cases hu⟩
      | branch | textStart | textEnd | note | accept =>
        unfold read?
        rw [hs, hb]
        exact ⟨rfl, fun u hu => by cases hu⟩
    have hfilter : (reached.map (·.move φ more)).filterMap (b.read? c) =
        (reached.filterMap (a.read? c)).map (·.move φ more) := by
      rw [List.filterMap_map, List.map_filterMap]
      exact List.filterMap_congr fun t ht => (hread t (hr t ht)).1
    show (b.race (position + 1) ((reached.map (·.move φ more)).filterMap (b.read? c)) rest).or
      ((accepted.map _).map _) = _
    rw [hfilter, ih, Option.map_or, Option.map_map, Option.map_map]
    · rfl
    · intro u hu
      obtain ⟨t, ht, hu⟩ := List.mem_filterMap.mp hu
      exact (hread t (hr t ht)).2 u hu

end Embeds

end Automaton

end Selectors
