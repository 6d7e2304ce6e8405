import Selectors.Proofs.Pattern.Embed

/-!
# Alternatives of named groups

In a pattern whose alternatives are named groups, each alternative runs as it would alone: the match at a
position is that of the first alternative which has one there.

* `Extends`: an automaton begins with given states; `Closed`: no arrow leads out of given states;
* `race_build`: a pattern runs inside of another automaton as in its own;
* `Alternative`: a named group; **`matchAt_alternatives`**: the match of several of them.
-/

namespace Selectors

/-! ## Closed states -/

/-- The states lead nowhere else. -/
def Closed (states : Array State) : Prop :=
  ∀ state ∈ states, ∀ s ∈ state.nexts, s < states.size

/-- The states as far as they have been added; the first of them is the accepting one. -/
structure Begun (states : Array State) : Prop where
  accept : states[0]? = some .accept
  closed : Closed states

namespace Begun

variable {before states : Array State} {entry : StateId}

theorem size_pos (h : Begun before) : 0 < before.size :=
  (Array.getElem?_eq_some_iff.mp h.accept).1

theorem start : Begun #[.accept] := by
  refine ⟨rfl, fun state hstate s hs => ?_⟩
  rw [Array.mem_singleton.mp hstate] at hs
  cases hs

theorem behind {outs : List StateId} {block : Array State} (h : Begun before)
    (hb : Block outs before entry states block) (houts : ∀ s ∈ outs, s < before.size) :
    Begun states ∧ entry < states.size := by
  have hsize := hb.size_eq
  have hlt : ∀ s, Inside outs before.size block.size s → s < states.size := by
    rintro s (hs | ⟨-, hs⟩)
    · rw [hsize]; exact Nat.lt_of_lt_of_le (houts s hs) (Nat.le_add_right _ _)
    · rwa [hsize]
  refine ⟨⟨?_, fun state hstate s hs => ?_⟩, hlt _ hb.entry_inside⟩
  · rw [hb.states_eq, Array.getElem?_append_left h.size_pos, h.accept]
  · rw [hb.states_eq] at hstate
    rcases Array.mem_append.mp hstate with hstate | hstate
    · rw [hsize]
      exact Nat.lt_of_lt_of_le (h.closed state hstate s hs) (Nat.le_add_right _ _)
    · exact hlt s (hb.nexts_inside state hstate s hs)

theorem build (h : Begun before) (p : Pattern) {next : StateId} (hnext : next < before.size) :
    Begun (p.build next before).2 ∧ (p.build next before).1 < (p.build next before).2.size := by
  obtain ⟨b, hb, -⟩ := p.regular_build next before
  exact h.behind hb fun s hs => by rwa [List.mem_singleton.mp hs]

end Begun

namespace Automaton

variable {a : Automaton} {position : Nat} {rest : List Char} {before states : Array State}

/-- The automaton begins with the states. -/
def Extends (a : Automaton) (states : Array State) : Prop := ∃ more, a.states = states ++ more

namespace Extends

theorem getElem? (h : a.Extends states) {i : Nat} (hi : i < states.size) :
    a.states[i]? = states[i]? := by
  obtain ⟨more, hm⟩ := h
  rw [hm, Array.getElem?_append_left hi]

theorem of_append {block : Array State} (h : a.Extends (states ++ block)) : a.Extends states := by
  obtain ⟨more, hm⟩ := h
  exact ⟨block ++ more, by rw [hm, Array.append_assoc]⟩

theorem of_push {state : State} (h : a.Extends (states.push state)) :
    a.Extends states ∧ a.states[states.size]? = some state := by
  constructor
  · rw [Array.push_eq_append] at h
    exact h.of_append
  · rw [h.getElem? (by rw [Array.size_push]; exact Nat.lt_succ_self _), Array.getElem?_push_size]

theorem of_build {p : Pattern} {next : StateId} (h : a.Extends (p.build next before).2) :
    a.Extends before := by
  obtain ⟨block, hb, -⟩ := p.regular_build next before
  rw [hb.states_eq] at h
  exact h.of_append

theorem closedOnward (h : a.Extends states) (hs : Begun states) (atStart atEnd : Bool) :
    a.ClosedOnward atStart atEnd {s | s < states.size} := by
  intro s hlt state hstate n hn
  rw [h.getElem? hlt] at hstate
  exact hs.closed state (Array.mem_of_getElem? hstate) n (onward_subset_nexts hn)

theorem race_push {state : State} (h : a.Extends (states.push state)) (hs : Begun states)
    (hsilent : Silent state) (hnexts : ∀ s ∈ state.nexts, s < states.size) (start : Nat)
    (names : List String) (position : Nat) (rest : List Char) : a.race position [⟨states.size, start, names⟩] rest =
      a.race position (goOn (position == 0) rest.isEmpty ⟨states.size, start, names⟩ state) rest :=
  race_silent h.of_push.2 hsilent (h.of_push.1.closedOnward hs _ _) (Nat.lt_irrefl _)
    fun n hn => hnexts n (onward_subset_nexts hn)

end Extends

/-! ## A pattern in another automaton -/

/-- **A pattern runs inside of another automaton as in its own.** -/
theorem race_build {p : Pattern} (hb : Begun before) (h : a.Extends (p.build 0 before).2)
    (names : List String) : a.race position [⟨(p.build 0 before).1, position, names⟩] rest =
      (p.automaton.matchAt position rest).map (·.withNames names) := by
  let φ : Nat → Nat := fun s => if s = 0 then 0 else before.size + (s - 1)
  have hφ : ∀ i : Nat, φ (1 + i) = before.size + i := by
    intro i
    show (if 1 + i = 0 then 0 else before.size + (1 + i - 1)) = before.size + i
    rw [if_neg (by omega), Nat.add_sub_cancel_left]
  obtain ⟨block, hblock, hmove⟩ := p.regular_build 0 #[.accept]
  have hmoved : p.build 0 before =
      (φ (p.build 0 #[.accept]).1, before ++ block.map (State.map φ)) := hmove φ before hφ
  have hstates : p.automaton.states = #[.accept] ++ block := hblock.states_eq
  have hsize : p.automaton.states.size = 1 + block.size := hblock.size_eq
  have hinside : ∀ s, Inside [0] 1 block.size s → s < p.automaton.states.size := by
    intro s hs
    rw [hsize]
    rcases hs with hs | ⟨-, hs⟩
    · rw [List.mem_singleton.mp hs]; exact Nat.lt_add_right _ Nat.zero_lt_one
    · exact hs
  rw [hmoved] at h
  have hembeds : Embeds p.automaton a {s | s < p.automaton.states.size} φ := by
    refine ⟨fun (s : Nat) _ (r : Nat) _ (he : φ s = φ r) => ?_, fun (s : Nat) hs => ?_⟩
    · have hpos := hb.size_pos
      dsimp only [φ] at he
      show s = r
      split at he <;> split at he <;> omega
    · change s < p.automaton.states.size at hs
      rcases Nat.eq_zero_or_pos s with rfl | hpos
      · refine ⟨.accept, ?_, ?_, fun n hn => by cases hn⟩
        · rw [hstates, Array.getElem?_append_left Nat.zero_lt_one]; rfl
        · show a.states[0]? = _
          rw [h.of_append.getElem? hb.size_pos, hb.accept]
          rfl
      · obtain ⟨i, rfl⟩ : ∃ i, s = 1 + i := ⟨s - 1, by omega⟩
        have hi : i < block.size := by omega
        refine ⟨block[i], ?_, ?_, fun n hn => ?_⟩
        · rw [hstates, Array.getElem?_append_right (Nat.le_add_right 1 i)]
          show block[1 + i - 1]? = _
          rw [Nat.add_sub_cancel_left, Array.getElem?_eq_getElem hi]
        · have hlt : before.size + i < (before ++ block.map (State.map φ)).size := by
            rw [Array.size_append, Array.size_map]; omega
          rw [hφ, h.getElem? hlt, Array.getElem?_append_right (Nat.le_add_right _ _),
            Nat.add_sub_cancel_left, Array.getElem?_map, Array.getElem?_eq_getElem hi]
          rfl
        · exact hinside n (hblock.nexts_inside block[i] (Array.getElem_mem hi) n hn)
  rw [hmoved]
  show a.race position ([Thread.mk p.automaton.start position []].map (·.move φ names)) rest = _
  refine hembeds.race_eq names fun t ht => ?_
  rw [List.mem_singleton.mp ht]
  exact hinside _ hblock.entry_inside

end Automaton

/-! ## Named groups as alternatives -/

/-- A named group. -/
structure Alternative where
  number : Nat
  name : String
  body : Pattern

namespace Alternative

/-- The group as a pattern. -/
def pattern (g : Alternative) : Pattern := .group g.number (some g.name) g.body

end Alternative

namespace Automaton

variable {a : Automaton} {position : Nat} {rest : List Char} {before : Array State}

/-- The match of the first alternative that has one. -/
def firstAlternative (gs : List Alternative) (position : Nat) (rest : List Char) : Option Found :=
  gs.findSome? fun g => (g.body.automaton.matchAt position rest).map (·.withNames [g.name])

theorem race_alternative (position : Nat) (rest : List Char) (g : Alternative) (hb : Begun before)
    (h : a.Extends (g.pattern.build 0 before).2) :
    a.race position [⟨(g.pattern.build 0 before).1, position, []⟩] rest =
      (g.body.automaton.matchAt position rest).map (·.withNames [g.name]) := by
  obtain ⟨hbody, hentry⟩ := hb.build g.body hb.size_pos
  have hpush : a.Extends ((g.body.build 0 before).2.push (.note g.name (g.body.build 0 before).1)) := h
  have hstep := hpush.race_push hbody ⟨fun _ _ => State.noConfusion, State.noConfusion⟩
    (fun s hs => by rw [List.mem_singleton.mp hs]; exact hentry) position [] position rest
  exact hstep.trans (race_build hb hpush.of_push.1 [g.name])

theorem race_alternatives (gs : List Alternative) (hne : gs ≠ []) (hb : Begun before)
    (h : a.Extends ((Pattern.ofBranches (gs.map (·.pattern))).build 0 before).2) :
    a.race position
        [⟨((Pattern.ofBranches (gs.map (·.pattern))).build 0 before).1, position, []⟩] rest =
      firstAlternative gs position rest := by
  induction gs with
  | nil => exact absurd rfl hne
  | cons g gs ih =>
    cases gs with
    | nil =>
      have halone := race_alternative position rest g hb h
      unfold firstAlternative
      rw [List.findSome?_cons, List.findSome?_nil]
      exact halone.trans (by cases Option.map _ _ <;> rfl)
    | cons g' gs =>
      let others := Pattern.ofBranches ((g' :: gs).map (·.pattern))
      obtain ⟨ho, hothers⟩ := hb.build others hb.size_pos
      obtain ⟨hg, hentry⟩ := ho.build g.pattern ho.size_pos
      have hpush : a.Extends ((g.pattern.build 0 (others.build 0 before).2).2.push
          (.branch [(g.pattern.build 0 (others.build 0 before).2).1, (others.build 0 before).1])) := h
      obtain ⟨block, hblock, -⟩ := g.pattern.regular_build 0 (others.build 0 before).2
      have hle := hblock.size_eq
      have hstep := hpush.race_push hg ⟨fun _ _ => State.noConfusion, State.noConfusion⟩
        (fun s hs => by
          rcases (by simpa [State.nexts] using hs : s = _ ∨ s = _) with rfl | rfl
          · exact hentry
          · rw [hle]; exact Nat.lt_of_lt_of_le hothers (Nat.le_add_right _ _)) position [] position rest
      refine hstep.trans ?_
      show a.race position [_, _] rest = _
      rw [race_cons_thread, race_alternative position rest g ho hpush.of_push.1,
        ih (List.cons_ne_nil _ _) hpush.of_push.1.of_build]
      show _ = (List.findSome? _ (g :: g' :: gs))
      rw [List.findSome?_cons]
      cases Option.map (·.withNames [g.name]) (g.body.automaton.matchAt position rest) <;> rfl

/-- **Alternatives of named groups run as they would alone**, in their order. -/
theorem matchAt_alternatives {gs : List Alternative} (hne : gs ≠ []) (position : Nat)
    (rest : List Char) : (Pattern.ofBranches (gs.map (·.pattern))).automaton.matchAt position rest =
      firstAlternative gs position rest :=
  race_alternatives gs hne .start ⟨#[], (Array.append_empty).symm⟩

end Automaton

end Selectors
