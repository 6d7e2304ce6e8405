import Mathlib.Data.List.Chain
import Mathlib.Data.List.Forall2
import Selectors.Proofs.Tree.Ancestry
import Selectors.Resolve.Query

/-!
# Climbing

The walk up a chain takes, for the token at hand, the first node that satisfies it, and never comes
back to a choice. This loses nothing: whatever nodes further up satisfy the tokens that follow also lie
above the first one.

* `Token.Holds`: a node satisfies a token;
* **`climb_eq_true_iff`**: the walk succeeds exactly if some nodes of the chain, in its order, satisfy
  the tokens;
* `exists_climb`: the walk fails for no tokens but pseudo classes;
* `Above`, **`outerMatchAbove_eq_true_iff`**: the outer tokens are met by strict ancestors, each
  strictly above the next.
-/

namespace Selectors

variable {t : Tree} {n : NodeId}

namespace Token

/-- The node satisfies the token. -/
def Holds (k : Token) (t : Tree) (n : NodeId) : Prop := k.accepts t n = .ok true

/-- **Testing fails only for a pseudo class.** -/
theorem exists_accepts {k : Token} (hk : k.kind ≠ .pseudoClass) (t : Tree) (n : NodeId) :
    ∃ b, k.accepts t n = .ok b := by
  unfold accepts
  cases h : k.kind with
  | pseudoClass => exact absurd h hk
  | nameAndId | id | nameAndClass | className | element => exact ⟨_, rfl⟩

/-- **Only elements satisfy tokens.** -/
theorem Holds.element {k : Token} (h : k.Holds t n) : (t.element? n).isSome := by
  cases he : t.element? n with
  | some e => rfl
  | none =>
    have hid : t.id? n = none := by unfold Tree.id?; rw [he]; rfl
    have htag (x : String) : t.hasTag n x = false := by unfold Tree.hasTag Tree.tag?; rw [he]; rfl
    have hclass (x : String) : t.hasClass n x = false := by unfold Tree.hasClass; rw [he]; rfl
    unfold Holds accepts at h
    cases hk : k.kind <;> simp [hk, RuleKind.matcher?, hid, htag, hclass] at h

end Token

namespace Query

/-! ## The walk -/

theorem climb_cons (k : Token) (pending : List Token) (above : List NodeId) :
    climb t (k :: pending) (n :: above) = (k.accepts t n).bind fun b =>
      if b then climb t pending above else climb t (k :: pending) above := by
  cases h : k.accepts t n with
  | error e => rw [climb, h]; rfl
  | ok b => rw [climb, h]; cases b <;> rfl

/-- **The walk decides whether some nodes of the chain satisfy the tokens in turn.** -/
theorem climb_eq_true_iff {pending : List Token} {chain : List NodeId}
    (hk : ∀ k ∈ pending, k.kind ≠ .pseudoClass) :
    climb t pending chain = .ok true ↔
      ∃ l, l.Sublist chain ∧ List.Forall₂ (fun k n => k.Holds t n) pending l := by
  induction chain generalizing pending with
  | nil =>
    cases pending with
    | nil => exact ⟨fun _ => ⟨[], .refl [], .nil⟩, fun _ => by rw [climb]⟩
    | cons k pending =>
      constructor
      · intro h
        rw [climb] at h
        cases h
      · rintro ⟨l, hl, hf⟩
        rw [List.sublist_nil.mp hl] at hf
        cases hf
  | cons n above ih =>
    cases pending with
    | nil => exact ⟨fun _ => ⟨[], List.nil_sublist _, .nil⟩, fun _ => by rw [climb]⟩
    | cons k pending =>
      obtain ⟨b, hb⟩ := Token.exists_accepts (hk k List.mem_cons_self) t n
      rw [climb_cons, hb]
      cases b with
      | true =>
        change climb t pending above = .ok true ↔ _
        rw [ih fun k' hk' => hk k' (List.mem_cons_of_mem _ hk')]
        constructor
        · rintro ⟨l, hl, hf⟩
          exact ⟨n :: l, hl.cons_cons n, .cons hb hf⟩
        · rintro ⟨l, hl, hf⟩
          -- the node chosen for the token may be dropped: those behind it stand further up
          cases hf with
          | cons _ hf =>
            cases hl with
            | cons _ hl => exact ⟨_, (List.sublist_cons_self _ _).trans hl, hf⟩
            | cons_cons _ hl => exact ⟨_, hl, hf⟩
      | false =>
        change climb t (k :: pending) above = .ok true ↔ _
        rw [ih hk]
        constructor
        · rintro ⟨l, hl, hf⟩
          exact ⟨l, hl.cons n, hf⟩
        · rintro ⟨l, hl, hf⟩
          cases hf with
          | cons ha hf =>
            cases hl with
            | cons _ hl => exact ⟨_, hl, .cons ha hf⟩
            | cons_cons _ hl => rw [Token.Holds, hb] at ha; cases ha

/-- **The walk fails for no tokens but pseudo classes.** -/
theorem exists_climb {pending : List Token} (hk : ∀ k ∈ pending, k.kind ≠ .pseudoClass)
    (chain : List NodeId) : ∃ b, climb t pending chain = .ok b := by
  induction chain generalizing pending with
  | nil => cases pending <;> exact ⟨_, by rw [climb]⟩
  | cons n above ih =>
    cases pending with
    | nil => exact ⟨true, by rw [climb]⟩
    | cons k pending =>
      obtain ⟨b, hb⟩ := Token.exists_accepts (hk k List.mem_cons_self) t n
      rw [climb_cons, hb]
      cases b with
      | true => exact ih fun k' hk' => hk k' (List.mem_cons_of_mem _ hk')
      | false => exact ih hk

/-! ## Outer tokens and ancestors -/

/-- **Strict ancestors of `n` satisfy the tokens**, each strictly above the next. -/
def MetAbove (t : Tree) (outer : List Token) (n : NodeId) : Prop :=
  ∃ l, List.Forall₂ (fun k a => k.Holds t a) outer l ∧ (l ++ [n]).IsChain t.Above

theorem metAbove_iff {outer : List Token} (hn : Acc t.IsParent n) :
    MetAbove t outer n ↔ ∃ l, l.Sublist (t.ancestors n) ∧
      List.Forall₂ (fun k a => k.Holds t a) outer.reverse l := by
  have key : ∀ l : List NodeId, l.Sublist (t.ancestors n) ↔ (l.reverse ++ [n]).IsChain t.Above := by
    intro l
    rw [Tree.sublist_ancestors_iff hn, ← List.reverse_cons, List.isChain_reverse]
  constructor
  · rintro ⟨l, hf, hc⟩
    exact ⟨l.reverse, (key _).mpr (by rwa [List.reverse_reverse]), List.forall₂_reverse_iff.mpr hf⟩
  · rintro ⟨l, hl, hf⟩
    refine ⟨l.reverse, ?_, (key l).mp hl⟩
    rwa [← List.forall₂_reverse_iff, List.reverse_reverse]

theorem outerMatchAbove_eq_true_iff {q : Query} (hk : ∀ k ∈ q.outer, k.kind ≠ .pseudoClass)
    (hn : Acc t.IsParent n) : q.outerMatchAbove t n = .ok true ↔ MetAbove t q.outer n := by
  unfold outerMatchAbove
  rw [climb_eq_true_iff (fun k h => hk k (List.mem_reverse.mp h)), metAbove_iff hn]

theorem exists_outerMatchAbove {q : Query} (hk : ∀ k ∈ q.outer, k.kind ≠ .pseudoClass)
    (t : Tree) (n : NodeId) : ∃ b, q.outerMatchAbove t n = .ok b :=
  exists_climb (fun k h => hk k (List.mem_reverse.mp h)) _

end Query

end Selectors
