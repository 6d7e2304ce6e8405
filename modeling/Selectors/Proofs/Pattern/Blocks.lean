import Selectors.Pattern.Automaton

/-!
# Blocks of states

A build adds a block of states behind those that are there. The arrows of a block lead to its own
states, or to the state that follows; and wherever a block is added, it is the same up to the numbers of
its states.

* `State.map`: a state with its arrows renamed; `State.nexts`: its arrows;
* `Block`: what is added, and that no arrow leads out of it but to given states;
* **`Build.Regular`**: blocks can be moved; **`Pattern.regular_build`**: every pattern makes such
  blocks.
-/

namespace Selectors

variable {outs outs' : List StateId} {before states states' block block' : Array State}
  {entry entry' next leave s : StateId}

/-! ## Arrows -/

/-- The states that a state leads to. -/
def State.nexts : State → List StateId
  | one _ next | textStart next | textEnd next | note _ next => [next]
  | branch nexts => nexts
  | accept => []

/-- The state with its arrows renamed. -/
def State.map (φ : StateId → StateId) : State → State
  | one set next => one set (φ next)
  | branch nexts => branch (nexts.map φ)
  | textStart next => textStart (φ next)
  | textEnd next => textEnd (φ next)
  | note name next => note name (φ next)
  | accept => accept

/-- Among `outs`, or one of `size` states from `base` on. -/
def Inside (outs : List StateId) (base size : Nat) (s : StateId) : Prop :=
  s ∈ outs ∨ base ≤ s ∧ s < base + size

/-- `states` are those before and a block that is entered at `entry` and left only to `outs`. -/
structure Block (outs : List StateId) (before : Array State) (entry : StateId)
    (states block : Array State) : Prop where
  states_eq : states = before ++ block
  entry_inside : Inside outs before.size block.size entry
  nexts_inside : ∀ state ∈ block, ∀ s ∈ state.nexts, Inside outs before.size block.size s

namespace Block

theorem size_eq (h : Block outs before entry states block) :
    states.size = before.size + block.size := by
  rw [h.states_eq, Array.size_append]

theorem nothing (hs : s ∈ outs) : Block outs before s before #[] :=
  ⟨Array.append_empty.symm, Or.inl hs, fun _ h => absurd h (Array.not_mem_empty _)⟩

theorem push {state : State} (h : ∀ s ∈ state.nexts, s ∈ outs) :
    Block outs before before.size (before.push state) #[state] := by
  refine ⟨(Array.append_singleton ..).symm, Or.inr ⟨Nat.le_refl _, Nat.lt_succ_self _⟩,
    fun x hx s hs => Or.inl (h s ?_)⟩
  rwa [Array.mem_singleton.mp hx] at hs

theorem trans (h : Block outs before entry states block)
    (h' : Block outs' states entry' states' block')
    (houts : ∀ s ∈ outs', Inside outs before.size block.size s) :
    Block outs before entry' states' (block ++ block') := by
  have hwiden : ∀ s, Inside outs before.size block.size s →
      Inside outs before.size (block ++ block').size s := by
    rintro s (hs | ⟨hle, hlt⟩)
    · exact Or.inl hs
    · rw [Array.size_append]
      exact Or.inr ⟨hle, Nat.lt_of_lt_of_le hlt (Nat.add_le_add_left (Nat.le_add_right _ _) _)⟩
  have hinside : ∀ s, Inside outs' states.size block'.size s →
      Inside outs before.size (block ++ block').size s := by
    rintro s (hs | ⟨hle, hlt⟩)
    · exact hwiden s (houts s hs)
    · rw [h.size_eq] at hle hlt
      rw [Array.size_append]
      refine Or.inr ⟨Nat.le_trans (Nat.le_add_right _ _) hle, ?_⟩
      rwa [← Nat.add_assoc]
  refine ⟨?_, hinside _ h'.entry_inside, fun state hstate s hs => ?_⟩
  · rw [h'.states_eq, h.states_eq, Array.append_assoc]
  · rcases Array.mem_append.mp hstate with hstate | hstate
    · exact hwiden s (h.nexts_inside state hstate s hs)
    · exact hinside s (h'.nexts_inside state hstate s hs)

theorem mono (h : Block outs before entry states block) (houts : outs ⊆ outs') :
    Block outs' before entry states block :=
  ⟨h.states_eq, h.entry_inside.imp_left fun hs => houts hs,
    fun state hstate s hs => (h.nexts_inside state hstate s hs).imp_left fun hs => houts hs⟩

end Block

/-! ## Moving blocks -/

/-- The renaming takes the numbers from behind some states to those behind others. -/
def Shifts (φ : StateId → StateId) (before before' : Array State) : Prop :=
  ∀ i, φ (before.size + i) = before'.size + i

theorem Shifts.append {φ : StateId → StateId} {before' : Array State} (h : Shifts φ before before')
    (block : Array State) (f : State → State) :
    Shifts φ (before ++ block) (before' ++ block.map f) := by
  intro i
  rw [Array.size_append, Array.size_append, Array.size_map, Nat.add_assoc, h, Nat.add_assoc]

theorem Shifts.size {φ : StateId → StateId} {before' : Array State} (h : Shifts φ before before') :
    φ before.size = before'.size := h 0

theorem push_map (φ : StateId → StateId) (state : State) (states : Array State) :
    states.push (state.map φ) = states ++ #[state].map (State.map φ) := by
  rw [List.map_toArray, Array.push_eq_append]
  rfl

theorem Shifts.push {φ : StateId → StateId} {before' : Array State} (h : Shifts φ before before')
    (state state' : State) : Shifts φ (before.push state) (before'.push state') := by
  intro i
  rw [Array.size_push, Array.size_push, Nat.add_assoc, h, Nat.add_assoc]

namespace Build

variable {b first second body : Build}

/-- **The build adds a block, and the same block wherever it adds it.** -/
def Regular (b : Build) : Prop := ∀ next before, ∃ block,
  Block [next] before (b next before).1 (b next before).2 block ∧
    ∀ φ before', Shifts φ before before' →
      b (φ next) before' = (φ (b next before).1, before' ++ block.map (State.map φ))

theorem regular_skip : Regular fun next states => (next, states) := by
  refine fun next before => ⟨#[], .nothing List.mem_cons_self, fun φ before' _ => ?_⟩
  rw [Array.map_empty, Array.append_empty]

theorem regular_push {state : StateId → State} (hnext : ∀ next, (state next).nexts ⊆ [next])
    (hmap : ∀ φ next, (state next).map φ = state (φ next)) :
    Regular fun next => push (state next) := by
  refine fun next before => ⟨#[state next], .push fun s hs => hnext next hs, fun φ before' h => ?_⟩
  show (before'.size, before'.push (state (φ next))) = _
  rw [← h.size, ← hmap, push_map]
  rfl

theorem regular_andThen (hf : first.Regular) (hs : second.Regular) :
    (first.andThen second).Regular := by
  intro next before
  obtain ⟨block, hb, hmove⟩ := hs next before
  obtain ⟨block', hb', hmove'⟩ := hf (second next before).1 (second next before).2
  refine ⟨block ++ block', hb.trans hb' fun s hs => ?_, fun φ before' h => ?_⟩
  · rw [List.mem_singleton.mp hs]
    exact hb.entry_inside
  · have hshift := h.append block (State.map φ)
    rw [← hb.states_eq] at hshift
    show first (second (φ next) before').1 (second (φ next) before').2 = _
    rw [hmove φ before' h, hmove' φ _ hshift, Array.map_append, Array.append_assoc]
    rfl

theorem regular_literal (text : List Char) : (literal text).Regular := by
  induction text with
  | nil => exact regular_skip
  | cons c text ih =>
    have hone : Regular fun next => push (.one (.single c) next) :=
      regular_push (fun next => List.Subset.refl [next]) fun φ next => rfl
    exact regular_andThen hone ih

theorem regular_copies (hb : body.Regular) (n : Nat) : (copies body n).Regular := by
  induction n with
  | zero => exact regular_skip
  | succ n ih => exact regular_andThen ih hb

theorem nexts_prefer (greedy : Bool) (entry next : StateId) :
    ∀ s ∈ (prefer greedy entry next).nexts, s = entry ∨ s = next := by
  intro s hs
  cases greedy
  · exact (by simpa [prefer, State.nexts] using hs : s = next ∨ s = entry).symm
  · simpa [prefer, State.nexts] using hs

theorem map_prefer (φ : StateId → StateId) (greedy : Bool) (entry next : StateId) :
    (prefer greedy entry next).map φ = prefer greedy (φ entry) (φ next) := by
  cases greedy <;> rfl

theorem upTo_succ (body : Build) (greedy : Bool) (leave : StateId) (n : Nat) (next : StateId)
    (states : Array State) : upTo body greedy leave (n + 1) next states =
      upTo body greedy leave n (body next states).2.size
        ((body next states).2.push (prefer greedy (body next states).1 leave)) := rfl

theorem regular_upTo (hb : body.Regular) (greedy : Bool) (n : Nat) (next leave : StateId)
    (before : Array State) : ∃ block,
      Block [next, leave] before (upTo body greedy leave n next before).1
        (upTo body greedy leave n next before).2 block ∧
      ∀ φ before', Shifts φ before before' →
        Build.upTo body greedy (φ leave) n (φ next) before' =
          (φ (Build.upTo body greedy leave n next before).1, before' ++ block.map (State.map φ)) := by
  induction n generalizing next before with
  | zero =>
    refine ⟨#[], .nothing List.mem_cons_self, fun φ before' _ => ?_⟩
    rw [Array.map_empty, Array.append_empty]
    rfl
  | succ n ih =>
    obtain ⟨round, hround, hmove⟩ := hb next before
    let state := prefer greedy (body next before).1 leave
    have hstate : Block [(body next before).1, leave] (body next before).2 (body next before).2.size
        ((body next before).2.push state) #[state] :=
      .push fun s hs => by simpa using nexts_prefer _ _ _ s hs
    obtain ⟨block, hblock, hmove'⟩ := ih (body next before).2.size ((body next before).2.push state)
    have hfirst : Block [next, leave] before (body next before).2.size
        ((body next before).2.push state) (round ++ #[state]) := by
      refine (hround.mono (by simp)).trans hstate fun s hs => ?_
      rcases (by simpa using hs : s = _ ∨ s = leave) with rfl | rfl
      · exact hround.entry_inside.imp_left fun h => by simp [List.mem_singleton.mp h]
      · exact Or.inl (by simp)
    rw [upTo_succ]
    refine ⟨round ++ #[state] ++ block, hfirst.trans hblock fun s hs => ?_, fun φ before' h => ?_⟩
    · rcases (by simpa using hs : s = _ ∨ s = leave) with rfl | rfl
      · exact hfirst.entry_inside
      · exact Or.inl (by simp)
    · have hshift := h.append round (State.map φ)
      rw [← hround.states_eq] at hshift
      rw [upTo_succ, hmove φ before' h, ← map_prefer, ← hshift.size,
        hmove' φ _ (hshift.push state (state.map φ)), push_map, Array.map_append, Array.map_append,
        Array.append_assoc, Array.append_assoc, Array.append_assoc]

theorem regular_loop (hb : body.Regular) (greedy : Bool) (next : StateId) (before : Array State) :
    ∃ block, Block [next] before (loop body greedy next before).1
        (loop body greedy next before).2.2 block ∧
      (Build.loop body greedy next before).2.1 = before.size ∧ 0 < block.size ∧
      ∀ φ before', Shifts φ before before' →
        Build.loop body greedy (φ next) before' = (φ (Build.loop body greedy next before).1,
          before'.size, before' ++ block.map (State.map φ)) := by
  have hloop : ∀ next before, Build.loop body greedy next before =
      ((body before.size (before.push (.branch []))).1, before.size,
        (body before.size (before.push (.branch []))).2.setIfInBounds before.size
          (prefer greedy (body before.size (before.push (.branch []))).1 next)) := fun _ _ => rfl
  obtain ⟨rounds, hr, hmove⟩ := hb before.size (before.push (.branch []))
  -- the branching state is put in front of the rounds once they are there
  have hset : ∀ (before rounds : Array State) (state : State),
      (before.push (.branch []) ++ rounds).setIfInBounds before.size state =
        before.push state ++ rounds := by
    intro before rounds state
    rw [Array.setIfInBounds_append_left (by rw [Array.size_push]; exact Nat.lt_succ_self _)]
    congr 1
    ext i hi hi'
    · rw [Array.size_setIfInBounds, Array.size_push, Array.size_push]
    · grind
  have hinside : ∀ s, Inside [before.size] (before.push (.branch [])).size rounds.size s →
      Inside [next] before.size (#[prefer greedy (body before.size (before.push (.branch []))).1 next]
        ++ rounds).size s := by
    intro s hs
    rw [Array.size_push] at hs
    rw [Array.size_append, show #[prefer greedy _ next].size = 1 from rfl]
    rcases hs with hs | ⟨hle, hlt⟩
    · rw [List.mem_singleton.mp hs]
      exact Or.inr ⟨Nat.le_refl _, Nat.lt_add_of_pos_right (Nat.add_pos_left Nat.zero_lt_one _)⟩
    · exact Or.inr ⟨Nat.le_of_succ_le hle, by rwa [← Nat.add_assoc]⟩
  rw [hloop]
  refine ⟨_, ⟨?_, hinside _ hr.entry_inside, fun x hx s hs => ?_⟩, rfl, ?_, fun φ before' h => ?_⟩
  · show Array.setIfInBounds _ _ _ = _
    rw [hr.states_eq, hset, Array.append_assoc.symm, ← Array.push_eq_append]
  · rcases Array.mem_append.mp hx with hx | hx
    · rw [Array.mem_singleton.mp hx] at hs
      rcases nexts_prefer _ _ _ s hs with rfl | rfl
      · exact hinside _ hr.entry_inside
      · exact Or.inl List.mem_cons_self
    · exact hinside s (hr.nexts_inside x hx s hs)
  · rw [Array.size_append]
    exact Nat.lt_of_lt_of_le Nat.zero_lt_one (Nat.le_add_right 1 _)
  · have hmoved := hmove φ (before'.push (.branch [])) (h.push _ _)
    rw [hloop, ← h.size, hmoved, h.size, hset, ← map_prefer, push_map, Array.map_append,
      Array.append_assoc]

theorem regular_oneOrMore (hb : body.Regular) (greedy : Bool) : (oneOrMore body greedy).Regular := by
  intro next before
  obtain ⟨block, hblock, -, -, hmove⟩ := regular_loop hb greedy next before
  refine ⟨block, hblock, fun φ before' h => ?_⟩
  show ((loop body greedy (φ next) before').1, (loop body greedy (φ next) before').2.2) = _
  rw [hmove φ before' h]
  rfl

theorem regular_anyNumber (hb : body.Regular) (movesOn greedy : Bool) :
    (anyNumber body movesOn greedy).Regular := by
  intro next before
  obtain ⟨block, hblock, hturn, hpos, hmove⟩ := regular_loop hb greedy next before
  cases movesOn with
  | true =>
    refine ⟨block, ⟨hblock.states_eq, ?_, hblock.nexts_inside⟩, fun φ before' h => ?_⟩
    · show Inside _ _ _ (loop body greedy next before).2.1
      rw [hturn]
      exact Or.inr ⟨Nat.le_refl _, Nat.lt_add_of_pos_right hpos⟩
    · show ((loop body greedy (φ next) before').2.1, (loop body greedy (φ next) before').2.2) =
        (φ (loop body greedy next before).2.1, _)
      rw [hmove φ before' h, hturn, h.size]
  | false =>
    let entry := (loop body greedy next before).1
    have hstate : Block [entry, next] (loop body greedy next before).2.2
        (loop body greedy next before).2.2.size
        ((loop body greedy next before).2.2.push (prefer greedy entry next))
        #[prefer greedy entry next] := .push fun s hs => by simpa using nexts_prefer _ _ _ s hs
    refine ⟨block ++ #[prefer greedy entry next], hblock.trans hstate fun s hs => ?_,
      fun φ before' h => ?_⟩
    · rcases (by simpa using hs : s = entry ∨ s = next) with rfl | rfl
      · exact hblock.entry_inside
      · exact Or.inl List.mem_cons_self
    · have hshift := h.append block (State.map φ)
      rw [← hblock.states_eq] at hshift
      show ((loop body greedy (φ next) before').2.2.size, (loop body greedy (φ next) before').2.2.push
        (prefer greedy (loop body greedy (φ next) before').1 (φ next))) =
          (φ (loop body greedy next before).2.2.size, _)
      rw [hmove φ before' h, hshift.size, ← map_prefer, push_map, Array.map_append,
        Array.append_assoc]

theorem regular_rounds (hb : body.Regular) (movesOn : Bool) (least : Nat) (most : Option Nat)
    (greedy : Bool) : (rounds body movesOn least most greedy).Regular := by
  unfold Build.rounds
  split
  · refine regular_andThen (regular_copies hb _) fun next before => ?_
    obtain ⟨block, hblock, hmove⟩ := regular_upTo hb greedy _ next next before
    exact ⟨block, hblock.mono (by simp), fun φ before' h => hmove φ before' h⟩
  · exact regular_anyNumber hb movesOn greedy
  · exact regular_andThen (regular_copies hb _) (regular_oneOrMore hb greedy)

end Build

/-! ## Patterns -/

namespace Pattern

theorem build_alt (p q : Pattern) (next : StateId) (before : Array State) :
    (alt p q).build next before = Build.push
      (.branch [(p.build next (q.build next before).2).1, (q.build next before).1])
      (p.build next (q.build next before).2).2 := rfl

/-- **The states of a pattern are one block, and the same block everywhere.** -/
theorem regular_build (p : Pattern) : p.build.Regular := by
  induction p with
  | empty => exact Build.regular_skip
  | literal text => exact Build.regular_literal text
  | one set => exact Build.regular_push (fun next => List.Subset.refl [next]) fun φ next => rfl
  | textStart => exact Build.regular_push (fun next => List.Subset.refl [next]) fun φ next => rfl
  | textEnd => exact Build.regular_push (fun next => List.Subset.refl [next]) fun φ next => rfl
  | seq p q ihp ihq => exact Build.regular_andThen ihp ihq
  | alt p q ihp ihq =>
    intro next before
    obtain ⟨others, ho, hmoveo⟩ := ihq next before
    obtain ⟨preferred, hp, hmovep⟩ := ihp next (q.build next before).2
    let state : State :=
      .branch [(p.build next (q.build next before).2).1, (q.build next before).1]
    have hboth := ho.trans hp fun s hs => Or.inl hs
    have hstate : Block [(p.build next (q.build next before).2).1, (q.build next before).1]
        (p.build next (q.build next before).2).2 (p.build next (q.build next before).2).2.size
        ((p.build next (q.build next before).2).2.push state) #[state] := .push fun s hs => hs
    refine ⟨others ++ preferred ++ #[state], hboth.trans hstate fun s hs => ?_, fun φ before' h => ?_⟩
    · rcases List.mem_cons.mp hs with rfl | hs
      · exact hboth.entry_inside
      · rw [List.mem_singleton.mp hs, Array.size_append]
        exact ho.entry_inside.imp_right fun h => ⟨h.1, Nat.lt_of_lt_of_le h.2
          (Nat.add_le_add_left (Nat.le_add_right _ _) _)⟩
    · have hshift := h.append others (State.map φ)
      rw [← ho.states_eq] at hshift
      have hshift' := hshift.append preferred (State.map φ)
      rw [← hp.states_eq] at hshift'
      rw [build_alt, hmoveo φ before' h, hmovep φ _ hshift, build_alt]
      show (_, Array.push _ (state.map φ)) = (φ (p.build next (q.build next before).2).2.size, _)
      rw [hshift'.size, push_map, Array.map_append, Array.map_append, ← Array.append_assoc,
        ← Array.append_assoc]
  | rep p least most greedy ih => exact Build.regular_rounds ih _ _ _ _
  | group number name p ih =>
    cases name with
    | none => exact ih
    | some name =>
      have hnote : Build.Regular fun next => Build.push (.note name next) :=
        Build.regular_push (fun next => List.Subset.refl [next]) fun φ next => rfl
      exact Build.regular_andThen hnote ih

end Pattern

end Selectors
