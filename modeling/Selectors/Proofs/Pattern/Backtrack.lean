import Mathlib.Logic.Relation
import Selectors.Proofs.Pattern.Embed
import Selectors.Proofs.Pattern.Ways

/-!
# Running like a backtracking matcher

A pattern whose unbounded repetitions move on has an automaton in which every thread reads sooner or
later. There a match is found as if the ways of the pattern were tried one after the other.

* `Settles`: a state from which every way reads; **`race_settled`**;
* `Build.Runs`: a build runs through given ways; one lemma for each kind of build;
* **`Pattern.runs_build`**, **`Pattern.matchAt_eq`**: the match is the preferred way.
-/

namespace Selectors

namespace Automaton

variable {a : Automaton} {position start : Nat} {rest : List Char} {s next : StateId}
  {state : State} {names : List String}

/-! ## States that settle -/

/-- The silent state `s` leads on to `n`. -/
def Leads (a : Automaton) (n s : StateId) : Prop :=
  ∃ state, a.states[s]? = some state ∧ Silent state ∧ n ∈ state.nexts

/-- **From the state every way reads, or ends**, sooner or later. -/
def Settles (a : Automaton) (s : StateId) : Prop := Acc a.Leads s

theorem settles_of_nexts (h : a.states[s]? = some state) (hn : ∀ n ∈ state.nexts, a.Settles n) :
    a.Settles s := by
  refine Acc.intro s fun n hlead => ?_
  obtain ⟨state', h', -, hmem⟩ := hlead
  obtain rfl := Option.some.inj (h.symm.trans h')
  exact hn n hmem

theorem settles_of_not_silent (h : a.states[s]? = some state) (hsilent : ¬ Silent state) :
    a.Settles s := by
  refine Acc.intro s fun n hlead => ?_
  obtain ⟨state', h', hsilent', -⟩ := hlead
  obtain rfl := Option.some.inj (h.symm.trans h')
  exact absurd hsilent' hsilent

theorem silent_of_mem_onward {atStart atEnd : Bool} {n : StateId} (h : n ∈ onward atStart atEnd state) :
    Silent state := by
  cases state with
  | one | accept => cases h
  | branch | textStart | textEnd | note => exact ⟨fun _ _ => State.noConfusion, State.noConfusion⟩

/-- **A thread in a silent state that settles** comes to what the threads come to that go on from it. -/
theorem race_settled {t : Thread} (h : a.states[t.state]? = some state) (hsilent : Silent state)
    (hsettles : a.Settles t.state) : a.race position [t] rest =
      a.race position (goOn (position == 0) rest.isEmpty t state) rest := by
  -- what follows a state that settles cannot come back to it
  have hnot : ∀ s, Acc (Relation.TransGen a.Leads) s → ¬ Relation.TransGen a.Leads s s := by
    intro s hs
    induction hs with
    | intro s _ ih => exact fun hcycle => ih s hcycle hcycle
  refine race_silent (C := {n | Relation.TransGen a.Leads n t.state}) h hsilent ?_
    (hnot _ (Acc.transGen hsettles)) ?_
  · intro s hs state' hstate' n hn
    exact .head ⟨state', hstate', silent_of_mem_onward hn, onward_subset_nexts hn⟩ hs
  · intro n hn
    exact .single ⟨state, h, hsilent, onward_subset_nexts hn⟩

/-! ## What a state comes to -/

/-- What a thread in the state comes to. -/
def come (a : Automaton) (s : StateId) (start : Nat) (names : List String) :
    Nat → List Char → Option Found :=
  fun position rest => a.race position [⟨s, start, names⟩] rest

theorem come_one {set : CharSet} (h : a.states[s]? = some (.one set next)) :
    a.come s start names = (Ways.one set).findSome? (a.come next start names) := by
  funext position rest
  cases rest with
  | nil => exact race_one_nil h
  | cons c rest =>
    rw [Ways.findSome?_one_cons]
    exact race_one_cons h

theorem come_branch {nexts : List StateId} (h : a.states[s]? = some (.branch nexts))
    (hsettles : a.Settles s) : a.come s start names position rest =
      nexts.findSome? fun n => a.come n start names position rest := by
  refine (race_settled h ⟨fun _ _ => State.noConfusion, State.noConfusion⟩ hsettles).trans ?_
  exact race_map (fun n => ⟨n, start, names⟩) nexts

theorem come_prefer {greedy : Bool} {one other : StateId}
    (h : a.states[s]? = some (Build.prefer greedy one other)) (hsettles : a.Settles s) :
    a.come s start names position rest =
      if greedy then (a.come one start names position rest).or (a.come other start names position rest)
      else (a.come other start names position rest).or (a.come one start names position rest) := by
  refine (come_branch h hsettles).trans ?_
  cases greedy <;>
  · simp only [List.findSome?_cons, List.findSome?_nil, if_true, if_false, Bool.false_eq_true]
    cases a.come one start names position rest <;> cases a.come other start names position rest <;> rfl

/-! ## States in an automaton -/

/-- The automaton has the states from number `low` on. -/
def Holds (a : Automaton) (low : Nat) (states : Array State) : Prop :=
  ∀ i, low ≤ i → i < states.size → a.states[i]? = states[i]?

namespace Holds

variable {low : Nat} {states before block : Array State} {outs : List StateId} {entry : StateId}

theorem push (h : a.Holds low (states.push state)) :
    a.Holds low states ∧ (low ≤ states.size → a.states[states.size]? = some state) := by
  constructor
  · intro i hi hlt
    rw [h i hi (by rw [Array.size_push]; exact Nat.lt_succ_of_lt hlt), Array.getElem?_push_lt hlt,
      Array.getElem?_eq_getElem hlt]
  · intro hle
    rw [h _ hle (by rw [Array.size_push]; exact Nat.lt_succ_self _), Array.getElem?_push_size]

theorem split (h : a.Holds low states) (hb : Block outs before entry states block)
    (hlow : low ≤ before.size) : a.Holds low before ∧ a.Holds before.size states := by
  constructor
  · intro i hi hlt
    rw [h i hi (by rw [hb.size_eq]; exact Nat.lt_add_right _ hlt), hb.states_eq,
      Array.getElem?_append_left hlt]
  · exact fun i hi hlt => h i (hlow.trans hi) hlt

end Holds

end Automaton

/-! ## Builds -/

/-- **The build runs through the ways**: its entry comes to what the state that follows comes to, over
all ways in their order. The entry settles if that state does, or if the build moves on. -/
structure Build.Runs (b : Build) (w : Ways) (moves : Prop) : Prop where
  regular : b.Regular
  bounded : w.Bounded moves
  settles : ∀ {a : Automaton} {next before}, a.Holds before.size (b next before).2 →
    a.Settles next ∨ moves → a.Settles (b next before).1
  come_eq : ∀ {a : Automaton} {next before}, a.Holds before.size (b next before).2 →
    a.Settles next → ∀ start names,
      a.come (b next before).1 start names = w.findSome? (a.come next start names)

namespace Build

variable {b first second body : Build} {v w : Ways} {moves moves' : Prop}

theorem Runs.mono (h : b.Runs w moves) (hm : moves' → moves) : b.Runs w moves' :=
  ⟨h.regular, h.bounded.mono hm, fun hh hs => h.settles hh (hs.imp_right hm), h.come_eq⟩

theorem runs_skip : Runs (fun next states => (next, states)) .stay False where
  regular := regular_skip
  bounded := Ways.bounded_stay
  settles := fun _ hs => hs.resolve_right id
  come_eq := fun _ _ _ _ => Ways.findSome?_stay.symm

theorem runs_one (set : CharSet) : Runs (fun next => push (.one set next)) (.one set) True where
  regular := regular_push (fun next => List.Subset.refl [next]) fun _ _ => rfl
  bounded := Ways.bounded_one set
  settles := fun h _ =>
    Automaton.settles_of_not_silent (h.push.2 (Nat.le_refl _)) fun hsilent => hsilent.1 _ _ rfl
  come_eq := fun h _ _ _ => Automaton.come_one (h.push.2 (Nat.le_refl _))

theorem holds_andThen (hf : first.Regular) (hs : second.Regular) {a : Automaton} {next : StateId}
    {before : Array State} (h : a.Holds before.size (first.andThen second next before).2) :
    a.Holds before.size (second next before).2 ∧
      a.Holds (second next before).2.size (first.andThen second next before).2 := by
  obtain ⟨block, hb, -⟩ := hs next before
  obtain ⟨block', hb', -⟩ := hf (second next before).1 (second next before).2
  have hle : before.size ≤ (second next before).2.size := hb.size_eq ▸ Nat.le_add_right _ _
  exact h.split hb' hle

theorem runs_andThen (hf : first.Runs v moves) (hs : second.Runs w moves') :
    (first.andThen second).Runs (v.andThen w) (moves ∨ moves') where
  regular := regular_andThen hf.regular hs.regular
  bounded := hf.bounded.andThen hs.bounded
  settles := by
    intro a next before h hsettles
    obtain ⟨hsecond, hfirst⟩ := holds_andThen hf.regular hs.regular h
    rcases hsettles with hnext | hm | hm
    · exact hf.settles hfirst (Or.inl (hs.settles hsecond (Or.inl hnext)))
    · exact hf.settles hfirst (Or.inr hm)
    · exact hf.settles hfirst (Or.inl (hs.settles hsecond (Or.inr hm)))
  come_eq := by
    intro a next before h hnext start names
    obtain ⟨hsecond, hfirst⟩ := holds_andThen hf.regular hs.regular h
    have hmiddle := hs.settles hsecond (Or.inl hnext)
    rw [Ways.findSome?_andThen, ← hs.come_eq hsecond hnext]
    exact hf.come_eq hfirst hmiddle start names

theorem runs_literal (text : List Char) : (literal text).Runs (.literal text) (text ≠ []) := by
  induction text with
  | nil => exact runs_skip.mono fun h => h rfl
  | cons c text ih =>
    rw [Ways.literal_cons]
    exact (runs_andThen (runs_one (.single c)) ih).mono fun _ => Or.inl trivial

theorem runs_copies (hb : body.Runs w moves) (n : Nat) :
    (copies body n).Runs (w.copies n) (0 < n ∧ moves) := by
  induction n with
  | zero => exact runs_skip.mono fun h => absurd h.1 (Nat.lt_irrefl 0)
  | succ n ih => exact (runs_andThen ih hb).mono fun h => Or.inr h.2

/-! ## Repetitions -/

/-- A round and what it leads to, or what all rounds are left to. -/
def roundOr (w : Ways) (greedy : Bool) (leave next : Nat → List Char → Option Found) :
    Nat → List Char → Option Found := fun position rest =>
  if greedy then (w.findSome? next position rest).or (leave position rest)
  else (leave position rest).or (w.findSome? next position rest)

theorem iterate_roundOr (w : Ways) (greedy : Bool) (leave : Nat → List Char → Option Found) (n : Nat) :
    (roundOr w greedy leave)^[n] leave = (w.upTo greedy n).findSome? leave := by
  induction n with
  | zero => exact Ways.findSome?_stay.symm
  | succ n ih =>
    funext position rest
    rw [Function.iterate_succ_apply', ih]
    show _ = (Ways.prefer greedy _ _).findSome? leave position rest
    rw [Ways.findSome?_prefer, Ways.findSome?_andThen, Ways.findSome?_stay]
    rfl

theorem come_upTo (hb : body.Runs w moves) (greedy : Bool) {a : Automaton} {leave : StateId}
    (hleave : a.Settles leave) (n : Nat) {next : StateId} {before : Array State}
    (h : a.Holds before.size (upTo body greedy leave n next before).2) (hnext : a.Settles next) :
    a.Settles (upTo body greedy leave n next before).1 ∧ ∀ start names,
      a.come (upTo body greedy leave n next before).1 start names =
        (roundOr w greedy (a.come leave start names))^[n] (a.come next start names) := by
  induction n generalizing next before with
  | zero => exact ⟨hnext, fun _ _ => rfl⟩
  | succ n ih =>
    rw [upTo_succ] at h ⊢
    let entry := (body next before).1
    let states := (body next before).2
    obtain ⟨round, hround, -⟩ := hb.regular next before
    obtain ⟨block, hblock, -⟩ := regular_upTo hb.regular greedy n states.size leave
      (states.push (prefer greedy entry leave))
    have hle : before.size ≤ states.size := hround.size_eq ▸ Nat.le_add_right _ _
    obtain ⟨hfirst, hothers⟩ := h.split hblock (by rw [Array.size_push]; exact Nat.le_succ_of_le hle)
    obtain ⟨hbody, hturn⟩ := hfirst.push
    have hentry : a.Settles entry := hb.settles hbody (Or.inl hnext)
    have hsettles : a.Settles states.size :=
      Automaton.settles_of_nexts (hturn hle) fun s hs => by
        rcases nexts_prefer _ _ _ s hs with rfl | rfl
        · exact hentry
        · exact hleave
    obtain ⟨hsettled, hcome⟩ := ih hothers hsettles
    refine ⟨hsettled, fun start names => ?_⟩
    rw [hcome, Function.iterate_succ_apply]
    congr 1
    funext position rest
    rw [Automaton.come_prefer (hturn hle) hsettles, hb.come_eq hbody hnext]
    rfl

theorem runs_upTo (hb : body.Runs w moves) (greedy : Bool) (n : Nat) :
    Runs (fun next => upTo body greedy next n next) (w.upTo greedy n) False where
  regular := by
    intro next before
    obtain ⟨block, hblock, hmove⟩ := regular_upTo hb.regular greedy n next next before
    exact ⟨block, hblock.mono (by simp), fun φ before' h => hmove φ before' h⟩
  bounded := hb.bounded.upTo greedy n
  settles := fun h hs => (come_upTo hb greedy (hs.resolve_right id) n h (hs.resolve_right id)).1
  come_eq := by
    intro a next before h hnext start names
    rw [(come_upTo hb greedy hnext n h hnext).2, iterate_roundOr]

theorem come_loop (hb : body.Runs w True) (greedy : Bool) {a : Automaton} {next : StateId}
    {before : Array State} (h : a.Holds before.size (loop body greedy next before).2.2) :
    a.Settles (loop body greedy next before).1 ∧
      (a.Settles next → a.Settles before.size ∧ ∀ start names,
        a.come before.size start names = (w.star greedy).findSome? (a.come next start names) ∧
        a.come (loop body greedy next before).1 start names =
          w.findSome? (a.come before.size start names)) := by
  let entry := (body before.size (before.push (.branch []))).1
  let states := (body before.size (before.push (.branch []))).2
  obtain ⟨rounds, hrounds, -⟩ := hb.regular before.size (before.push (.branch []))
  have hsize : states.size = before.size + 1 + rounds.size := by
    rw [hrounds.size_eq, Array.size_push]
  have hset : a.Holds before.size (states.setIfInBounds before.size (prefer greedy entry next)) := h
  have hbody : a.Holds (before.push (.branch [])).size states := by
    intro i hi hlt
    rw [Array.size_push] at hi
    rw [hset i (Nat.le_of_succ_le hi) (by rwa [Array.size_setIfInBounds]),
      Array.getElem?_setIfInBounds_ne (Nat.ne_of_lt hi)]
  have hturn : a.states[before.size]? = some (prefer greedy entry next) := by
    have hlt : before.size < states.size := by omega
    rw [hset before.size (Nat.le_refl _) (by rwa [Array.size_setIfInBounds]),
      Array.getElem?_setIfInBounds_self_of_lt hlt]
  have hentry : a.Settles entry := hb.settles hbody (Or.inr trivial)
  refine ⟨hentry, fun hnext => ?_⟩
  have hsettles : a.Settles before.size := Automaton.settles_of_nexts hturn fun s hs => by
    rcases nexts_prefer _ _ _ s hs with rfl | rfl
    · exact hentry
    · exact hnext
  refine ⟨hsettles, fun start names => ?_⟩
  have hcome : a.come entry start names = w.findSome? (a.come before.size start names) :=
    hb.come_eq hbody hsettles start names
  refine ⟨hb.bounded.eq_findSome?_star greedy fun position rest => ?_, hcome⟩
  rw [Automaton.come_prefer hturn hsettles, hcome]

theorem runs_anyNumber (hb : body.Runs w True) (greedy : Bool) :
    (anyNumber body true greedy).Runs (w.star greedy) False where
  regular := regular_anyNumber hb.regular true greedy
  bounded := hb.bounded.star greedy
  settles := fun h hs => ((come_loop hb greedy h).2 (hs.resolve_right id)).1
  come_eq := fun h hnext start names => (((come_loop hb greedy h).2 hnext).2 start names).1

theorem runs_oneOrMore (hb : body.Runs w True) (greedy : Bool) :
    (oneOrMore body greedy).Runs (w.andThen (w.star greedy)) True where
  regular := regular_oneOrMore hb.regular greedy
  bounded := (hb.bounded.andThen (hb.bounded.star greedy)).mono fun _ => Or.inl trivial
  settles := fun h _ => (come_loop hb greedy h).1
  come_eq := by
    intro a next before h hnext start names
    obtain ⟨hstar, hentry⟩ := ((come_loop hb greedy h).2 hnext).2 start names
    rw [Ways.findSome?_andThen, ← hstar]
    exact hentry

theorem runs_rounds (hb : body.Runs w moves) {movesOn : Bool} (least : Nat) (most : Option Nat)
    (greedy : Bool) (hmoves : movesOn = true → moves) (hmost : most = none → movesOn = true) :
    (rounds body movesOn least most greedy).Runs (w.rounds least most greedy)
      (0 < least ∧ moves) := by
  cases most with
  | some most =>
    exact (runs_andThen (runs_copies hb least) (runs_upTo hb greedy (most - least))).mono Or.inl
  | none =>
    obtain rfl := hmost rfl
    have hbody : body.Runs w True := hb.mono fun _ => hmoves rfl
    cases least with
    | zero =>
      have hrun : (anyNumber body true greedy).Runs (Ways.stay.andThen (w.star greedy)) False := by
        rw [Ways.stay_andThen]
        exact runs_anyNumber hbody greedy
      exact hrun.mono fun h => absurd h.1 (Nat.lt_irrefl 0)
    | succ n =>
      show ((copies body n).andThen (oneOrMore body greedy)).Runs
        (((w.copies n).andThen w).andThen (w.star greedy)) _
      rw [Ways.andThen_assoc]
      exact (runs_andThen (runs_copies hb n) (runs_oneOrMore hbody greedy)).mono fun _ =>
        Or.inr trivial

end Build

/-! ## Patterns -/

namespace Pattern

theorem runs_test (test : StateId → State) (holds : Nat → List Char → Prop)
    [∀ position rest, Decidable (holds position rest)]
    (hregular : Build.Regular fun next => Build.push (test next))
    (hnexts : ∀ next, (test next).nexts = [next]) (hsilent : ∀ next, Automaton.Silent (test next))
    (hgoOn : ∀ next position (rest : List Char) t,
      Automaton.goOn (position == 0) rest.isEmpty t (test next) =
        if holds position rest then [{ t with state := next }] else []) :
    Build.Runs (fun next => Build.push (test next))
      (fun position rest => if holds position rest then [0] else []) False := by
  have hsettles : ∀ {a : Automaton} {next : StateId} {before : Array State},
      a.states[before.size]? = some (test next) → a.Settles next → a.Settles before.size := by
    intro a next before h hnext
    refine Automaton.settles_of_nexts h fun s hs => ?_
    rw [hnexts] at hs
    rwa [List.mem_singleton.mp hs]
  refine ⟨hregular, fun position rest k hk => ?_,
    fun h hs => hsettles (h.push.2 (Nat.le_refl _)) (hs.resolve_right id), ?_⟩
  · split at hk
    · rw [List.mem_singleton.mp hk]
      exact ⟨Nat.zero_le _, False.elim⟩
    · cases hk
  · intro a next before h hnext start names
    have hstate := h.push.2 (Nat.le_refl _)
    funext position rest
    refine (Automaton.race_settled hstate (hsilent next) (hsettles hstate hnext)).trans ?_
    rw [hgoOn]
    unfold Ways.findSome?
    dsimp only
    split
    · exact List.findSome?_singleton.symm
    · exact Automaton.race_nil

theorem runs_alt {p q : Pattern} {v w : Ways} {moves moves' : Prop} (hp : p.build.Runs v moves)
    (hq : q.build.Runs w moves') :
    (alt p q).build.Runs (.prefer true v w) (moves ∧ moves') := by
  have hparts : ∀ {a : Automaton} {next : StateId} {before : Array State},
      a.Holds before.size ((alt p q).build next before).2 →
      a.Holds before.size (q.build next before).2 ∧
        a.Holds (q.build next before).2.size (p.build next (q.build next before).2).2 ∧
        a.states[(p.build next (q.build next before).2).2.size]? =
          some (.branch [(p.build next (q.build next before).2).1, (q.build next before).1]) := by
    intro a next before h
    obtain ⟨others, ho, -⟩ := hq.regular next before
    obtain ⟨block, hb, -⟩ := hp.regular next (q.build next before).2
    rw [build_alt] at h
    have hle : before.size ≤ (q.build next before).2.size := ho.size_eq ▸ Nat.le_add_right _ _
    have hle' := hb.size_eq ▸ Nat.le_add_right (q.build next before).2.size block.size
    obtain ⟨hboth, hstate⟩ := h.push
    obtain ⟨hothers, hpreferred⟩ := hboth.split hb hle
    exact ⟨hothers, hpreferred, hstate (hle.trans hle')⟩
  have hsettles : ∀ {a : Automaton} {next : StateId} {before : Array State},
      a.Holds before.size ((alt p q).build next before).2 → a.Settles next ∨ moves ∧ moves' →
      a.Settles ((alt p q).build next before).1 := by
    intro a next before h hnext
    obtain ⟨hothers, hpreferred, hstate⟩ := hparts h
    refine Automaton.settles_of_nexts hstate fun s hs => ?_
    rcases List.mem_cons.mp hs with rfl | hs
    · exact hp.settles hpreferred (hnext.imp_right And.left)
    · rw [List.mem_singleton.mp hs]
      exact hq.settles hothers (hnext.imp_right And.right)
  refine ⟨(alt p q).regular_build, hp.bounded.prefer true hq.bounded, hsettles, ?_⟩
  intro a next before h hnext start names
  obtain ⟨hothers, hpreferred, hstate⟩ := hparts h
  funext position rest
  have hprefer : a.states[((alt p q).build next before).1]? = some (Build.prefer true _ _) := hstate
  rw [Ways.findSome?_prefer, if_pos rfl, ← hp.come_eq hpreferred hnext, ← hq.come_eq hothers hnext,
    Automaton.come_prefer hprefer (hsettles h (Or.inl hnext)), if_pos rfl]

theorem movesOn_iff {p : Pattern} : p.movesOn = true ↔ ∃ n, p.minLength? = some n ∧ 0 < n := by
  unfold movesOn
  cases p.minLength? <;> simp

theorem movesOn_seq {p q : Pattern} (h : (seq p q).movesOn = true) :
    p.movesOn = true ∨ q.movesOn = true := by
  obtain ⟨n, hn, hpos⟩ := movesOn_iff.mp h
  obtain ⟨m, hm, hn⟩ := Option.bind_eq_some_iff.mp hn
  obtain ⟨l, hl, hn⟩ := Option.bind_eq_some_iff.mp hn
  obtain rfl : m + l = n := Option.some.inj hn
  rcases Nat.eq_zero_or_pos m with rfl | hm'
  · exact Or.inr (movesOn_iff.mpr ⟨l, hl, by omega⟩)
  · exact Or.inl (movesOn_iff.mpr ⟨m, hm, hm'⟩)

theorem movesOn_alt {p q : Pattern} (h : (alt p q).movesOn = true) :
    p.movesOn = true ∧ q.movesOn = true := by
  obtain ⟨n, hn, hpos⟩ := movesOn_iff.mp h
  obtain ⟨m, hm, hn⟩ := Option.bind_eq_some_iff.mp hn
  obtain ⟨l, hl, hn⟩ := Option.bind_eq_some_iff.mp hn
  obtain rfl : min m l = n := Option.some.inj hn
  exact ⟨movesOn_iff.mpr ⟨m, hm, by omega⟩, movesOn_iff.mpr ⟨l, hl, by omega⟩⟩

theorem movesOn_rep {p : Pattern} {least : Nat} {most : Option Nat} {greedy : Bool}
    (h : (rep p least most greedy).movesOn = true) : 0 < least ∧ p.movesOn = true := by
  obtain ⟨n, hn, hpos⟩ := movesOn_iff.mp h
  obtain ⟨m, hm, rfl⟩ := Option.map_eq_some_iff.mp hn
  exact ⟨Nat.pos_of_mul_pos_right hpos, movesOn_iff.mpr ⟨m, hm, Nat.pos_of_mul_pos_left hpos⟩⟩

/-- **A steady pattern runs through its ways.** -/
theorem runs_build (p : Pattern) (h : p.isSteady = true) :
    p.build.Runs p.ways (p.movesOn = true) := by
  induction p with
  | empty => exact Build.runs_skip.mono fun h => Bool.noConfusion h
  | literal text =>
    refine (Build.runs_literal text).mono fun h => ?_
    rintro rfl
    exact Bool.noConfusion h
  | one set => exact (Build.runs_one set).mono fun _ => trivial
  | textStart =>
    refine (runs_test .textStart (fun position _ => position = 0)
      (Build.regular_push (fun next => List.Subset.refl [next]) fun _ _ => rfl) (fun _ => rfl)
      (fun _ => ⟨fun _ _ => State.noConfusion, State.noConfusion⟩) ?_).mono
        fun h => Bool.noConfusion h
    intro next position rest t
    cases position <;> rfl
  | textEnd =>
    refine (runs_test .textEnd (fun _ rest => rest = [])
      (Build.regular_push (fun next => List.Subset.refl [next]) fun _ _ => rfl) (fun _ => rfl)
      (fun _ => ⟨fun _ _ => State.noConfusion, State.noConfusion⟩) ?_).mono
        fun h => Bool.noConfusion h
    intro next position rest t
    cases rest <;> rfl
  | seq p q ihp ihq =>
    obtain ⟨hp, hq⟩ := (Bool.and_eq_true ..).mp h
    exact (Build.runs_andThen (ihp hp) (ihq hq)).mono movesOn_seq
  | alt p q ihp ihq =>
    obtain ⟨hp, hq⟩ := (Bool.and_eq_true ..).mp h
    exact (runs_alt (ihp hp) (ihq hq)).mono movesOn_alt
  | rep p least most greedy ih =>
    obtain ⟨hp, hmost⟩ := (Bool.and_eq_true ..).mp h
    refine (Build.runs_rounds (ih hp) least most greedy id ?_).mono movesOn_rep
    rintro rfl
    exact hmost
  | group number name p ih =>
    obtain ⟨hname, hp⟩ := (Bool.and_eq_true ..).mp h
    obtain rfl := Option.isNone_iff_eq_none.mp hname
    exact ih hp

/-- **The match of a steady pattern is its preferred way.** -/
theorem matchAt_eq {p : Pattern} (h : p.isSteady = true) (position : Nat) (rest : List Char) :
    p.automaton.matchAt position rest =
      (p.ways position rest).head?.map fun k => ⟨position, position + k, []⟩ := by
  have hruns := p.runs_build h
  obtain ⟨block, hblock, -⟩ := hruns.regular 0 #[.accept]
  have haccept : p.automaton.states[0]? = some .accept := by
    show (p.build 0 #[.accept]).2[0]? = _
    rw [hblock.states_eq, Array.getElem?_append_left Nat.zero_lt_one]
    rfl
  have hsettles : p.automaton.Settles 0 :=
    Automaton.settles_of_not_silent haccept fun hsilent => hsilent.2 rfl
  have hcome : p.automaton.come 0 position [] = fun q _ => some ⟨position, q, []⟩ := by
    funext q rest
    exact Automaton.race_accept haccept
  have hentry := hruns.come_eq (a := p.automaton) (fun _ _ _ => rfl) hsettles position []
  rw [hcome] at hentry
  show p.automaton.come (p.build 0 #[.accept]).1 position [] position rest = _
  rw [hentry]
  exact Ways.findSome?_some fun q _ => Found.mk position q []

end Pattern

end Selectors
