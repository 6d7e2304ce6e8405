import Selectors.Proofs.Resolve.Selects

/-!
# Where pseudo classes make resolving fail

A pseudo class as the key has no finder. Among the outer tokens it has no matcher, but resolving fails only
if the walk up from some candidate comes to test it: when the tokens that stand between it and the key have
been met, and there is a node left above them. The walk meets each of them as far down as it can be, so it
leaves the most nodes. Where the pseudo class is not tested, it keeps the candidates out.

* **`climb_of_pseudoClass`**: the walk up to a pseudo class;
* `MetBelowTop`: the tokens are met, and a further ancestor is left;
* **`resolve_fails_iff`**: the failures of resolving.
-/

namespace Selectors.Query

open Selectors.Tree

variable {t : Tree} {root n : NodeId} {k p key : Token} {pending inner outer : List Token}

theorem accepts_of_pseudoClass (hk : k.kind = .pseudoClass) (t : Tree) (n : NodeId) :
    k.accepts t n = .error (.noMatcher .pseudoClass) := by
  unfold Token.accepts
  rw [hk]
  rfl

/-! ## The walk -/

/-- Nodes of the chain, in its order, satisfy the tokens, and one more node stands above them. -/
def PlacedBelowTop (t : Tree) (pending : List Token) (chain : List NodeId) : Prop :=
  ∃ l a, (l ++ [a]).Sublist chain ∧ List.Forall₂ (fun k n => k.Holds t n) pending l

namespace PlacedBelowTop

variable {above : List NodeId}

theorem not_nil : ¬ PlacedBelowTop t pending [] := by
  rintro ⟨l, a, hl, -⟩
  exact List.append_ne_nil_of_right_ne_nil l (List.cons_ne_nil a []) (List.sublist_nil.mp hl)

theorem of_nil (n : NodeId) (above : List NodeId) : PlacedBelowTop t [] (n :: above) :=
  ⟨[], n, List.cons_sublist_cons.mpr (List.nil_sublist above), .nil⟩

theorem cons_iff (hn : k.Holds t n) :
    PlacedBelowTop t (k :: pending) (n :: above) ↔ PlacedBelowTop t pending above := by
  constructor
  · rintro ⟨_, a, hl, hf⟩
    cases hf with
    | cons _ hf => exact ⟨_, a, hl.of_cons_cons, hf⟩
  · rintro ⟨l, a, hl, hf⟩
    exact ⟨n :: l, a, hl.cons_cons n, .cons hn hf⟩

theorem cons_iff_of_not (hn : ¬ k.Holds t n) :
    PlacedBelowTop t (k :: pending) (n :: above) ↔ PlacedBelowTop t (k :: pending) above := by
  constructor
  · rintro ⟨_, a, hl, hf⟩
    cases hf with
    | cons hm hf =>
      cases hl with
      | cons _ hl => exact ⟨_, a, hl, .cons hm hf⟩
      | cons_cons _ hl => exact absurd hm hn
  · rintro ⟨l, a, hl, hf⟩
    exact ⟨l, a, hl.cons n, hf⟩

end PlacedBelowTop

/-- **The walk up to a pseudo class** fails if the tokens before it are met and a node is left to test it
at; otherwise it comes to the top. -/
theorem climb_of_pseudoClass (hk : ∀ k ∈ pending, k.kind ≠ .pseudoClass) (hp : p.kind = .pseudoClass)
    (others : List Token) (chain : List NodeId) :
    PlacedBelowTop t pending chain ∧
        climb t (pending ++ p :: others) chain = .error (.noMatcher .pseudoClass) ∨
      ¬ PlacedBelowTop t pending chain ∧ climb t (pending ++ p :: others) chain = .ok false := by
  induction chain generalizing pending with
  | nil =>
    refine Or.inr ⟨PlacedBelowTop.not_nil, ?_⟩
    cases pending <;> rfl
  | cons n above ih =>
    cases pending with
    | nil =>
      refine Or.inl ⟨.of_nil n above, ?_⟩
      rw [List.nil_append, climb_cons, accepts_of_pseudoClass hp]
      rfl
    | cons k pending =>
      obtain ⟨b, hb⟩ := Token.exists_accepts (hk k List.mem_cons_self) t n
      rw [List.cons_append, climb_cons, hb]
      cases b with
      | true =>
        rw [PlacedBelowTop.cons_iff hb]
        exact ih fun k' hk' => hk k' (List.mem_cons_of_mem _ hk')
      | false =>
        have hnot : ¬ k.Holds t n := fun h => by rw [Token.Holds, hb] at h; cases h
        rw [PlacedBelowTop.cons_iff_of_not hnot]
        exact ih hk

/-! ## Strict ancestors -/

/-- **Strict ancestors of `n` satisfy the tokens**, each strictly above the next, and the outermost of them,
or `n` if there are no tokens, has an ancestor itself. -/
def MetBelowTop (t : Tree) (inner : List Token) (n : NodeId) : Prop :=
  ∃ a l, List.Forall₂ (fun k m => k.Holds t m) inner l ∧ (a :: l ++ [n]).IsChain t.Above

theorem metBelowTop_iff (hn : Acc t.IsParent n) :
    MetBelowTop t inner n ↔ PlacedBelowTop t inner.reverse (t.ancestors n) := by
  have key : ∀ (a : NodeId) (l : List NodeId),
      (l ++ [a]).Sublist (t.ancestors n) ↔ (a :: l.reverse ++ [n]).IsChain t.Above := by
    intro a l
    rw [Tree.sublist_ancestors_iff hn, ← List.reverse_concat, ← List.reverse_cons,
      List.isChain_reverse]
  constructor
  · rintro ⟨a, l, hf, hc⟩
    exact ⟨l.reverse, a, (key _ _).mpr (by rwa [List.reverse_reverse]), List.forall₂_reverse_iff.mpr hf⟩
  · rintro ⟨l, a, hl, hf⟩
    refine ⟨a, l.reverse, ?_, (key a l).mp hl⟩
    rwa [← List.forall₂_reverse_iff, List.reverse_reverse]

theorem outerMatchAbove_of_pseudoClass {q : Query} {before : List Token}
    (hq : q.outer = before ++ p :: inner) (hp : p.kind = .pseudoClass)
    (hinner : ∀ k ∈ inner, k.kind ≠ .pseudoClass) (hn : Acc t.IsParent n) :
    MetBelowTop t inner n ∧ q.outerMatchAbove t n = .error (.noMatcher .pseudoClass) ∨
      ¬ MetBelowTop t inner n ∧ q.outerMatchAbove t n = .ok false := by
  unfold outerMatchAbove
  rw [metBelowTop_iff hn, hq, List.reverse_append, List.reverse_cons, List.append_assoc]
  exact climb_of_pseudoClass (fun k hk => hinner k (List.mem_reverse.mp hk)) hp _ _

/-! ## Resolving -/

theorem keep_of_fails {test : NodeId → Except ResolveError Bool} {P : NodeId → Prop} {e : ResolveError}
    (h : ∀ n, P n ∧ test n = .error e ∨ ¬ P n ∧ test n = .ok false) (cs : List NodeId) :
    (∃ n ∈ cs, P n) ∧ keep test cs = .error e ∨ (¬ ∃ n ∈ cs, P n) ∧ keep test cs = .ok [] := by
  induction cs with
  | nil => exact Or.inr ⟨by simp, rfl⟩
  | cons n cs ih =>
    rcases h n with ⟨hn, htest⟩ | ⟨hn, htest⟩
    · refine Or.inl ⟨⟨n, List.mem_cons_self, hn⟩, ?_⟩
      rw [keep, htest]
      rfl
    · rw [keep, htest]
      rcases ih with ⟨⟨m, hm, hP⟩, hkeep⟩ | ⟨hnone, hkeep⟩
      · refine Or.inl ⟨⟨m, List.mem_cons_of_mem n hm, hP⟩, ?_⟩
        rw [hkeep]
        rfl
      · refine Or.inr ⟨?_, by rw [hkeep]; rfl⟩
        rintro ⟨m, hm, hP⟩
        rcases List.mem_cons.mp hm with rfl | hm
        · exact hn hP
        · exact hnone ⟨m, hm, hP⟩

theorem exists_last_pseudoClass (outer : List Token) :
    (∀ k ∈ outer, k.kind ≠ .pseudoClass) ∨ ∃ before p inner, outer = before ++ p :: inner ∧
      p.kind = .pseudoClass ∧ ∀ k ∈ inner, k.kind ≠ .pseudoClass := by
  induction outer with
  | nil => exact Or.inl fun _ h => absurd h List.not_mem_nil
  | cons k outer ih =>
    rcases ih with hnone | ⟨before, p, inner, rfl, hp, hinner⟩
    · by_cases hk : k.kind = .pseudoClass
      · exact Or.inr ⟨[], k, outer, rfl, hk, hnone⟩
      · refine Or.inl fun k' hk' => ?_
        rcases List.mem_cons.mp hk' with rfl | hk'
        · exact hk
        · exact hnone k' hk'
    · exact Or.inr ⟨k :: before, p, inner, rfl, hp, hinner⟩

theorem resolve_ofTokens (t : Tree) (root : NodeId) (outer : List Token) (key : Token) :
    (ofTokens (outer ++ [key])).resolve t root = (key.find t root).bind
      (keep fun n => if outer = [] then key.accepts t n
        else (Query.mk outer (some key)).outerMatchAbove t n) := by
  rw [ofTokens_concat]
  rfl

theorem exists_resolve_eq_ok (ht : t.WellFormed) (hk : ∀ k ∈ outer ++ [key], k.kind ≠ .pseudoClass)
    (root : NodeId) : ∃ l, (ofTokens (outer ++ [key])).resolve t root = .ok l := by
  have hkey : key.kind ≠ .pseudoClass := hk key (List.mem_append_right _ List.mem_cons_self)
  have houter : ∀ k ∈ outer, k.kind ≠ .pseudoClass := fun k h => hk k (List.mem_append_left _ h)
  obtain ⟨cs, hcs, -⟩ := key.exists_find ht hkey root
  have htest : ∀ n, ∃ b, (if outer = [] then key.accepts t n
      else (Query.mk outer (some key)).outerMatchAbove t n) = .ok b := by
    intro n
    by_cases ho : outer = []
    · rw [if_pos ho]; exact Token.exists_accepts hkey t n
    · rw [if_neg ho]; exact exists_outerMatchAbove houter t n
  obtain ⟨l, hl, -⟩ := exists_keep htest cs
  refine ⟨l, ?_⟩
  rw [resolve_ofTokens, hcs]
  exact hl

theorem resolve_of_pseudoClass (before : List Token) (ht : t.WellFormed) (hp : p.kind = .pseudoClass)
    (hinner : ∀ k ∈ inner, k.kind ≠ .pseudoClass) {cs : List NodeId}
    (hcs : key.find t root = .ok cs) :
    (∃ n ∈ cs, MetBelowTop t inner n) ∧ (ofTokens ((before ++ p :: inner) ++ [key])).resolve t root =
        .error (.noMatcher .pseudoClass) ∨
      (¬ ∃ n ∈ cs, MetBelowTop t inner n) ∧
        (ofTokens ((before ++ p :: inner) ++ [key])).resolve t root = .ok [] := by
  have hne : before ++ p :: inner ≠ [] := by simp
  rw [resolve_ofTokens, hcs]
  simp only [if_neg hne]
  exact keep_of_fails (fun n => outerMatchAbove_of_pseudoClass rfl hp hinner (ht.acc n)) cs

theorem ne_noFinder_of_resolve (ht : t.WellFormed) (hkey : key.kind ≠ .pseudoClass) (kind : RuleKind) :
    (ofTokens (outer ++ [key])).resolve t root ≠ .error (.noFinder kind) := by
  intro h
  rcases exists_last_pseudoClass outer with hnone | ⟨before, p, inner, rfl, hp, hinner⟩
  · have hk : ∀ k ∈ outer ++ [key], k.kind ≠ .pseudoClass := by
      intro k hk
      rcases List.mem_append.mp hk with hk | hk
      · exact hnone k hk
      · exact List.mem_singleton.mp hk ▸ hkey
    obtain ⟨l, hl⟩ := exists_resolve_eq_ok ht hk root
    rw [hl] at h
    cases h
  · obtain ⟨cs, hcs, -⟩ := key.exists_find ht hkey root
    rcases resolve_of_pseudoClass before ht hp hinner hcs with ⟨-, hr⟩ | ⟨-, hr⟩ <;>
    · rw [hr] at h
      cases h

/-- **When resolving fails.** It has no finder for its key exactly if the key is a pseudo class. With a
pseudo class among the outer tokens, the last of which stands before the tokens `inner`, there is no matcher
if these are met above some candidate and a further ancestor is left; otherwise nothing is found. Without
pseudo classes resolving succeeds. -/
theorem resolve_fails_iff (ht : t.WellFormed) (root : NodeId) (outer : List Token) (key : Token) :
    ((ofTokens (outer ++ [key])).resolve t root = .error (.noFinder .pseudoClass) ↔
      key.kind = .pseudoClass) ∧
    (key.kind ≠ .pseudoClass → ∀ before p inner, outer = before ++ p :: inner →
      p.kind = .pseudoClass → (∀ k ∈ inner, k.kind ≠ .pseudoClass) →
      ∃ cs, key.find t root = .ok cs ∧
        ((∃ n ∈ cs, MetBelowTop t inner n) ∧
            (ofTokens (outer ++ [key])).resolve t root = .error (.noMatcher .pseudoClass) ∨
          (¬ ∃ n ∈ cs, MetBelowTop t inner n) ∧
            (ofTokens (outer ++ [key])).resolve t root = .ok [])) ∧
    ((∀ k ∈ outer ++ [key], k.kind ≠ .pseudoClass) →
      ∃ l, (ofTokens (outer ++ [key])).resolve t root = .ok l) := by
  refine ⟨⟨fun h => ?_, fun hkey => ?_⟩, ?_, fun hk => exists_resolve_eq_ok ht hk root⟩
  · by_contra hkey
    exact ne_noFinder_of_resolve ht hkey _ h
  · rw [resolve_ofTokens]
    unfold Token.find
    rw [hkey]
    rfl
  · rintro hkey before p inner rfl hp hinner
    obtain ⟨cs, hcs, -⟩ := key.exists_find ht hkey root
    exact ⟨cs, hcs, resolve_of_pseudoClass before ht hp hinner hcs⟩

/-- The item lies in a list, and the list in the document, at which the pseudo class is tested. -/
theorem resolve_fails_at_document : ∃ t,
    (load "[[\"ul\", \x7b\x7d, [[\"li\"]]]]" .none).1 = .ok t ∧
    MetBelowTop t [⟨"ul", .element⟩] 2 ∧
    (ofTokens [⟨":root", .pseudoClass⟩, ⟨"ul", .element⟩, ⟨"li", .element⟩]).resolve t 0 =
      .error (.noMatcher .pseudoClass) := by
  let t : Tree := ⟨#[⟨.document, none, [1], none, none⟩,
    ⟨.element (.ofTag "ul"), some 0, [2], none, none⟩,
    ⟨.element (.ofTag "li"), some 1, [], none, none⟩]⟩
  have hload : (load "[[\"ul\", \x7b\x7d, [[\"li\"]]]]" .none).1 = .ok t := by decide +kernel
  have hcandidates : Token.find ⟨"li", .element⟩ t 0 = .ok [2] := by decide +kernel
  have hresolve : (ofTokens [⟨":root", .pseudoClass⟩, ⟨"ul", .element⟩, ⟨"li", .element⟩]).resolve t 0 =
      .error (.noMatcher .pseudoClass) := by decide +kernel
  obtain ⟨-, hlast, -⟩ := resolve_fails_iff (linked_load hload).toWellFormed 0
    [⟨":root", .pseudoClass⟩, ⟨"ul", .element⟩] ⟨"li", .element⟩
  obtain ⟨cs, hcs, houtcome⟩ := hlast (by decide) [] ⟨":root", .pseudoClass⟩ [⟨"ul", .element⟩] rfl rfl
    (by decide)
  obtain rfl : cs = [2] := Except.ok.inj (hcs.symm.trans hcandidates)
  rcases houtcome with ⟨⟨n, hn, hmet⟩, hfails⟩ | ⟨-, hnone⟩
  · exact ⟨t, hload, List.mem_singleton.mp hn ▸ hmet, hfails⟩
  · cases hresolve.symm.trans hnone

end Selectors.Query
