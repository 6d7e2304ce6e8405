import Selectors.Proofs.Resolve.Failure

/-!
# The walk up a chain of parents

Where the chain of parents of a node ends, the walk with the outer tokens decides whether they can be placed
on that chain, each above the next. It needs nothing of the links to children. A pseudo class cannot be tested:
the walk fails at it if the tokens on its right can be placed with a node of the chain left above them, and
otherwise it runs off the top.

* `Placed`: places of a chain, in its order, at which tokens hold;
* `Ascends`: the walk as a loop along the parents, with the nodes at which it tests; `Ascends.unique`,
  **`exists_ascends`**: the loop ends, and goes up the chain without a second test at any node;
* **`outerMatchFrom_decides`**: what the walk from a node gives.
-/

namespace Selectors.Query

open Selectors.Tree

/-! ## Places -/

section Places

variable {t : Tree} {pending : List Token} {chain : List NodeId}

/-- The tokens hold at these places of a chain, each behind the one before it. -/
structure Placed (t : Tree) (pending : List Token) (chain : List NodeId)
    (places : List (Fin chain.length)) : Prop where
  increasing : places.Pairwise (· < ·)
  holds : List.Forall₂ (fun k i => k.Holds t chain[i]) pending places

theorem exists_placed_iff : (∃ places, Placed t pending chain places) ↔
    ∃ l, l.Sublist chain ∧ List.Forall₂ (fun k n => k.Holds t n) pending l := by
  constructor
  · rintro ⟨places, hincreasing, hholds⟩
    exact ⟨places.map (chain[·]), List.map_getElem_sublist hincreasing,
      List.forall₂_map_right_iff.mpr hholds⟩
  · rintro ⟨l, hl, hholds⟩
    obtain ⟨places, rfl, hincreasing⟩ := List.sublist_eq_map_getElem hl
    exact ⟨places, hincreasing, List.forall₂_map_right_iff.mp hholds⟩

theorem placedBelowTop_iff : PlacedBelowTop t pending chain ↔
    ∃ places top, Placed t pending chain places ∧ ∀ i ∈ places, i < top := by
  constructor
  · rintro ⟨l, a, hl, hholds⟩
    -- the last of the places is that of the node left above the others
    obtain ⟨places, heq, hincreasing⟩ := List.sublist_eq_map_getElem hl
    obtain ⟨places, tops, rfl, rfl, htops⟩ := List.append_eq_map_iff.mp heq
    obtain ⟨top, rest, rfl, -, -⟩ := List.map_eq_cons_iff.mp htops
    obtain ⟨hplaces, -, hbelow⟩ := List.pairwise_append.mp hincreasing
    exact ⟨places, top, ⟨hplaces, List.forall₂_map_right_iff.mp hholds⟩,
      fun i hi => hbelow i hi top List.mem_cons_self⟩
  · rintro ⟨places, top, ⟨hincreasing, hholds⟩, hbelow⟩
    have htop : (places ++ [top]).Pairwise (· < ·) :=
      List.pairwise_append.mpr ⟨hincreasing, List.pairwise_singleton _ _,
        fun i hi j hj => List.mem_singleton.mp hj ▸ hbelow i hi⟩
    refine ⟨places.map (chain[·]), chain[top], ?_, List.forall₂_map_right_iff.mpr hholds⟩
    have hsub := List.map_getElem_sublist htop
    rwa [List.map_append, List.map_singleton] at hsub

theorem climb_decides (hk : ∀ k ∈ pending, k.kind ≠ .pseudoClass) (chain : List NodeId) :
    (∃ places, Placed t pending chain places) ∧ climb t pending chain = .ok true ∨
      (¬ ∃ places, Placed t pending chain places) ∧ climb t pending chain = .ok false := by
  rw [exists_placed_iff, ← climb_eq_true_iff hk]
  obtain ⟨b, hb⟩ := exists_climb hk chain
  cases b with
  | true => exact Or.inl ⟨hb, hb⟩
  | false => exact Or.inr ⟨by simp [hb], hb⟩

end Places

/-! ## The loop -/

/-- **The walk along the parents** with the tokens that are still to be met, from the node that comes next:
the nodes at which it tests a token, in turn, and how it ends. -/
inductive Ascends (t : Tree) :
    List Token → Option NodeId → List NodeId → Except ResolveError Bool → Prop
  /-- All tokens are met. -/
  | met {current} : Ascends t [] current [] (.ok true)
  /-- There is no node left. -/
  | top {k pending} : Ascends t (k :: pending) none [] (.ok false)
  /-- The token cannot be tested. -/
  | fail {k pending n e} (htest : k.accepts t n = .error e) :
      Ascends t (k :: pending) (some n) [n] (.error e)
  /-- The node satisfies the token, and its parent comes next with the token behind. -/
  | take {k pending n visited r} (htest : k.accepts t n = .ok true)
      (rest : Ascends t pending (t.parent? n) visited r) :
      Ascends t (k :: pending) (some n) (n :: visited) r
  /-- The node does not satisfy the token, and its parent comes next. -/
  | pass {k pending n visited r} (htest : k.accepts t n = .ok false)
      (rest : Ascends t (k :: pending) (t.parent? n) visited r) :
      Ascends t (k :: pending) (some n) (n :: visited) r

variable {t : Tree} {n : NodeId} {current : Option NodeId} {above chain : List NodeId}

theorem Ascends.unique {pending : List Token} {visited visited' : List NodeId}
    {r r' : Except ResolveError Bool} (h : Ascends t pending current visited r) (h' : Ascends t pending current visited' r') :
    visited' = visited ∧ r' = r := by
  induction h generalizing visited' r' with
  | met => cases h'; exact ⟨rfl, rfl⟩
  | top => cases h'; exact ⟨rfl, rfl⟩
  | fail htest =>
    cases h' with
    | fail htest' => cases htest.symm.trans htest'; exact ⟨rfl, rfl⟩
    | take htest' => cases htest.symm.trans htest'
    | pass htest' => cases htest.symm.trans htest'
  | take htest _ ih =>
    cases h' with
    | fail htest' => cases htest.symm.trans htest'
    | take _ rest' => exact (ih rest').imp_left (congrArg _)
    | pass htest' => cases htest.symm.trans htest'
  | pass htest _ ih =>
    cases h' with
    | fail htest' => cases htest.symm.trans htest'
    | take htest' => cases htest.symm.trans htest'
    | pass _ rest' => exact (ih rest').imp_left (congrArg _)

/-- The loop, as far as it concerns a chain: it does what `climb` does, and tests at the nodes in front. -/
def AscendsAlong (t : Tree) (current : Option NodeId) (chain : List NodeId) : Prop :=
  ∀ pending, ∃ visited, Ascends t pending current visited (climb t pending chain) ∧ visited <+: chain

theorem ascendsAlong_nil : AscendsAlong t none [] := by
  intro pending
  refine ⟨[], ?_, List.prefix_rfl⟩
  cases pending with
  | nil => exact .met
  | cons k pending => exact .top

theorem AscendsAlong.cons (h : AscendsAlong t (t.parent? n) above) :
    AscendsAlong t (some n) (n :: above) := by
  rintro (_ | ⟨k, pending⟩)
  · exact ⟨[], .met, List.nil_prefix⟩
  · rw [climb_cons]
    cases htest : k.accepts t n with
    | error e => exact ⟨[n], .fail htest, (List.prefix_cons_inj n).mpr List.nil_prefix⟩
    | ok b =>
      cases b with
      | true =>
        obtain ⟨visited, hrest, hprefix⟩ := h pending
        exact ⟨n :: visited, .take htest hrest, (List.prefix_cons_inj n).mpr hprefix⟩
      | false =>
        obtain ⟨visited, hrest, hprefix⟩ := h (k :: pending)
        exact ⟨n :: visited, .pass htest hrest, (List.prefix_cons_inj n).mpr hprefix⟩

theorem ascendsAlong_of_upFrom (h : t.UpFrom n above) : AscendsAlong t (some n) (n :: above) := by
  induction above generalizing n with
  | nil =>
    have hparent : t.parent? n = none := h
    exact .cons (hparent ▸ ascendsAlong_nil)
  | cons p above ih =>
    obtain ⟨hparent, hp⟩ := h
    have hstep : t.parent? n = some p := hparent
    exact .cons (hstep ▸ ih hp)

/-- **The loop ends**, and goes up the chain, testing at no node twice. -/
theorem exists_ascends (h : t.UpFrom n above) (pending : List Token) :
    ∃ visited, (∀ v r, Ascends t pending (some n) v r ↔
        v = visited ∧ r = climb t pending (n :: above)) ∧
      visited <+: n :: above ∧ visited.Nodup := by
  obtain ⟨visited, hascends, hprefix⟩ := ascendsAlong_of_upFrom h pending
  refine ⟨visited, fun v r => ⟨hascends.unique, ?_⟩, hprefix, ?_⟩
  · rintro ⟨rfl, rfl⟩
    exact hascends
  · exact (h.nodup h.acc).sublist hprefix.sublist

/-! ## The walk from a node -/

/-- **What the walk from a node gives**, where the nodes `above` are its chain of parents. Without pseudo classes
it tells whether the outer tokens, the innermost first, hold at places further and further up. With a
pseudo class, the last of which stands before the tokens `inner`, there is no matcher if these have places with a
node left above them; otherwise they are not met. The walk along the parents gives the same, and tests at the
nodes of the chain in turn, at each at most once. -/
theorem outerMatchFrom_decides {q : Query} (h : t.UpFrom n above) :
    ((∀ k ∈ q.outer, k.kind ≠ .pseudoClass) →
      (∃ places, Placed t q.outer.reverse (n :: above) places) ∧ q.outerMatchFrom t n = .ok true ∨
        (¬ ∃ places, Placed t q.outer.reverse (n :: above) places) ∧
          q.outerMatchFrom t n = .ok false) ∧
    (∀ before p inner, q.outer = before ++ p :: inner → p.kind = .pseudoClass →
      (∀ k ∈ inner, k.kind ≠ .pseudoClass) →
      (∃ places top, Placed t inner.reverse (n :: above) places ∧ ∀ i ∈ places, i < top) ∧
          q.outerMatchFrom t n = .error (.noMatcher .pseudoClass) ∨
        (¬ ∃ places top, Placed t inner.reverse (n :: above) places ∧ ∀ i ∈ places, i < top) ∧
          q.outerMatchFrom t n = .ok false) ∧
    ∃ visited, (∀ v r, Ascends t q.outer.reverse (some n) v r ↔
        v = visited ∧ r = q.outerMatchFrom t n) ∧
      visited <+: n :: above ∧ visited.Nodup := by
  have hclimb : q.outerMatchFrom t n = climb t q.outer.reverse (n :: above) := by
    rw [outerMatchFrom, ancestors_eq h.acc h]
  rw [hclimb]
  refine ⟨fun hk => ?_, fun before p inner hq hp hinner => ?_, exists_ascends h _⟩
  · exact climb_decides (fun k hmem => hk k (List.mem_reverse.mp hmem)) _
  · have houter : q.outer.reverse = inner.reverse ++ p :: before.reverse := by
      rw [hq, List.reverse_append, List.reverse_cons, List.append_assoc, List.singleton_append]
    rw [houter, ← placedBelowTop_iff]
    exact climb_of_pseudoClass (fun k hmem => hinner k (List.mem_reverse.mp hmem)) hp _ _

/-- Two nested divisions that no node lists as children: each token needs a node of its own, and a pseudo class
on their left is tested at the document. -/
theorem outerMatchFrom_nested : ∃ t : Tree, t.UpFrom 2 [1, 0] ∧ t.descendants 0 = [] ∧
    (Query.mk [⟨"div", .element⟩, ⟨"div", .element⟩] none).outerMatchFrom t 2 = .ok true ∧
    (¬ ∃ places, Placed t [⟨"div", .element⟩, ⟨"div", .element⟩, ⟨"div", .element⟩] [2, 1, 0] places) ∧
    (Query.mk [⟨":root", .pseudoClass⟩, ⟨"div", .element⟩, ⟨"div", .element⟩] none).outerMatchFrom t 2 =
      .error (.noMatcher .pseudoClass) := by
  let div : Token := ⟨"div", .element⟩
  let root : Token := ⟨":root", .pseudoClass⟩
  let t : Tree := ⟨#[⟨.document, none, [], none, none⟩,
    ⟨.element (.ofTag "div"), some 0, [], none, none⟩,
    ⟨.element (.ofTag "DIV"), some 1, [], none, none⟩]⟩
  have hup : t.UpFrom 2 [1, 0] := ⟨rfl, rfl, rfl⟩
  have hplaced : Placed t [div, div] [2, 1, 0] [0, 1] := by
    have hlower : div.accepts t 2 = .ok true := by decide +kernel
    have hupper : div.accepts t 1 = .ok true := by decide +kernel
    exact ⟨by decide, .cons hlower (.cons hupper .nil)⟩
  have hthree : (Query.mk [div, div, div] none).outerMatchFrom t 2 = .ok false := by decide +kernel
  refine ⟨t, hup, by decide, ?_, ?_, ?_⟩
  · rcases (outerMatchFrom_decides (q := ⟨[div, div], none⟩) hup).1 (by decide) with ⟨-, hmet⟩ | ⟨hnot, -⟩
    · exact hmet
    · exact absurd ⟨_, hplaced⟩ hnot
  · rcases (outerMatchFrom_decides (q := ⟨[div, div, div], none⟩) hup).1 (by decide) with
      ⟨-, hmet⟩ | ⟨hnot, -⟩
    · cases hthree.symm.trans hmet
    · exact hnot
  · rcases (outerMatchFrom_decides (q := ⟨[root, div, div], none⟩) hup).2.1 [] root [div, div] rfl rfl
      (by decide) with ⟨-, hfails⟩ | ⟨hnot, -⟩
    · exact hfails
    · exact absurd ⟨[0, 1], 2, hplaced, by decide⟩ hnot

end Selectors.Query
