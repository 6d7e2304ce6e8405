import Mathlib.Data.List.Nodup
import Mathlib.Data.List.Perm.Subperm
import Mathlib.Logic.Relation
import Selectors.Tree.Traversal

/-!
# Ancestors in a tree

The parent links alone say which nodes lie above which. Where the chain of parents of a node ends, the
list `ancestors` holds exactly the nodes of that chain, in its order.

* `IsParent`, `Above`: the parent of a node, and its strict ancestors;
* `WellFormed`: parent links and children links describe one tree;
* `UpFrom`: a list is the chain of parents of a node; **`ancestors_eq`**: `ancestors` is that list;
* **`mem_ancestors`**, `ancestors_of_parent`, **`sublist_ancestors_iff`**.
-/

namespace Selectors.Tree

variable {t : Tree} {a b c n p : NodeId} {l : List NodeId}

theorem length_le_of_nodup {k : Nat} (hl : l.Nodup) (h : ∀ m ∈ l, m < k) : l.length ≤ k := by
  have hsub := List.subperm_of_subset hl fun m hm => List.mem_range.mpr (h m hm)
  rw [← List.length_range (n := k)]
  exact hsub.length_le

/-! ## Parents and ancestors -/

/-- `p` is the parent of `c`. -/
def IsParent (t : Tree) (p c : NodeId) : Prop := t.parent? c = some p

/-- `a` is a strict ancestor of `n`. -/
def Above (t : Tree) : NodeId → NodeId → Prop := Relation.TransGen t.IsParent

/-- `a` is `n` or a strict ancestor of `n`. -/
def AtOrAbove (t : Tree) : NodeId → NodeId → Prop := Relation.ReflTransGen t.IsParent

/-- **The links describe one tree**: a node is listed as a child exactly by its parent, and only once,
and the chain of parents of every node ends. -/
structure WellFormed (t : Tree) : Prop where
  mem_children_iff : ∀ p c, c ∈ t.children p ↔ t.parent? c = some p
  nodup_children : ∀ p, (t.children p).Nodup
  grounded : WellFounded t.IsParent

theorem lt_size_of_isParent (h : t.IsParent p c) : c < t.size := by
  by_contra hc
  have hnode : t.node? c = none := Array.getElem?_eq_none (Nat.le_of_not_lt hc)
  unfold IsParent parent? at h
  rw [hnode] at h
  cases h

theorem lt_size_of_mem_children (h : c ∈ t.children p) : p < t.size := by
  by_contra hp
  have hnode : t.node? p = none := Array.getElem?_eq_none (Nat.le_of_not_lt hp)
  unfold children at h
  rw [hnode] at h
  exact List.not_mem_nil h

theorem WellFormed.isParent_of_mem (ht : t.WellFormed) (h : c ∈ t.children p) : t.IsParent p c :=
  (ht.mem_children_iff p c).mp h

theorem WellFormed.mem_of_isParent (ht : t.WellFormed) (h : t.IsParent p c) : c ∈ t.children p :=
  (ht.mem_children_iff p c).mpr h

theorem WellFormed.not_mem_of_children_eq (ht : t.WellFormed) {left right : List NodeId}
    (h : t.children p = left ++ c :: right) : c ∉ left ++ right := by
  have hnd := ht.nodup_children p
  rw [h, List.nodup_middle] at hnd
  exact (List.nodup_cons.mp hnd).1

theorem WellFormed.isParent_of_children_eq (ht : t.WellFormed) {left right : List NodeId}
    (h : t.children p = left ++ c :: right) : ∀ d ∈ left ++ right, t.IsParent p d := by
  intro d hd
  refine ht.isParent_of_mem ?_
  rw [h]
  exact ((List.sublist_cons_self c right).append_left left).subset hd

theorem isParent_unique (ha : t.IsParent a c) (hb : t.IsParent b c) : a = b :=
  Option.some.inj (ha.symm.trans hb)

theorem above_iff : t.Above a n ↔ ∃ p, t.IsParent p n ∧ t.AtOrAbove a p := by
  constructor
  · intro h
    obtain ⟨p, ha, hp⟩ := Relation.TransGen.tail'_iff.mp h
    exact ⟨p, hp, ha⟩
  · rintro ⟨p, hp, ha⟩
    exact Relation.TransGen.tail' ha hp

theorem WellFormed.lt_size_of_above (ht : t.WellFormed) (h : t.Above a n) : a < t.size := by
  obtain ⟨c, hc, -⟩ := Relation.TransGen.head'_iff.mp h
  exact lt_size_of_mem_children (ht.mem_of_isParent hc)

theorem AtOrAbove.eq_or_above (h : t.AtOrAbove a n) : a = n ∨ t.Above a n :=
  (Relation.reflTransGen_iff_eq_or_transGen.mp h).imp_left Eq.symm

theorem not_transGen_self {α : Type} {r : α → α → Prop} {x : α} (hx : Acc r x) :
    ¬ Relation.TransGen r x x := by
  have hacc : Acc (Relation.TransGen r) x := hx.transGen
  induction hacc with
  | intro y _ ih => exact fun h => ih y h (hx.inv_of_transGen h) h

theorem not_above_self (hn : Acc t.IsParent n) : ¬ t.Above n n := not_transGen_self hn

theorem AtOrAbove.total (ha : t.AtOrAbove a n) (hb : t.AtOrAbove b n) :
    t.AtOrAbove a b ∨ t.AtOrAbove b a := by
  induction ha with
  | refl => exact Or.inr hb
  | @tail m n _ hmn ih =>
    rcases hb.eq_or_above with rfl | hbn
    · exact Or.inl (Relation.ReflTransGen.tail ‹_› hmn)
    · obtain ⟨p, hp, hbp⟩ := above_iff.mp hbn
      exact ih (isParent_unique hp hmn ▸ hbp)

/-! ## Chains of parents -/

/-- The list is the chain of parents of `n`, from its parent to the top. -/
def UpFrom (t : Tree) (n : NodeId) : List NodeId → Prop
  | [] => t.parent? n = none
  | p :: l => t.IsParent p n ∧ t.UpFrom p l

theorem exists_upFrom (hn : Acc t.IsParent n) : ∃ l, t.UpFrom n l := by
  induction hn with
  | intro n _ ih =>
    cases h : t.parent? n with
    | none => exact ⟨[], h⟩
    | some p =>
      obtain ⟨l, hl⟩ := ih p h
      exact ⟨p :: l, h, hl⟩

theorem UpFrom.acc (h : t.UpFrom n l) : Acc t.IsParent n := by
  induction l generalizing n with
  | nil =>
    refine .intro n fun p hp => ?_
    rw [IsParent, show t.parent? n = none from h] at hp
    cases hp
  | cons q l ih =>
    refine .intro n fun p hp => ?_
    rw [isParent_unique hp h.1]
    exact ih h.2

theorem UpFrom.chain_eq (h : t.UpFrom n l) {levels : Nat} (hl : l.length ≤ levels) :
    t.chain levels (t.parent? n) = l := by
  induction l generalizing n levels with
  | nil => rw [show t.parent? n = none from h]; cases levels <;> rfl
  | cons p l ih =>
    obtain ⟨levels, rfl⟩ : ∃ k, levels = k + 1 :=
      Nat.exists_eq_succ_of_ne_zero (by rw [List.length_cons] at hl; omega)
    rw [show t.parent? n = some p from h.1, chain, ih h.2 (Nat.le_of_succ_le_succ hl)]

theorem UpFrom.mem_iff (h : t.UpFrom n l) : a ∈ l ↔ t.Above a n := by
  induction l generalizing n with
  | nil =>
    refine ⟨fun ha => absurd ha List.not_mem_nil, fun ha => ?_⟩
    obtain ⟨p, hp, -⟩ := above_iff.mp ha
    rw [IsParent, show t.parent? n = none from h] at hp
    cases hp
  | cons p l ih =>
    rw [List.mem_cons, ih h.2]
    constructor
    · rintro (rfl | ha)
      · exact .single h.1
      · exact ha.tail h.1
    · intro ha
      obtain ⟨q, hq, ha⟩ := above_iff.mp ha
      exact (isParent_unique hq h.1 ▸ ha).eq_or_above

theorem UpFrom.nodup (hn : Acc t.IsParent n) (h : t.UpFrom n l) : (n :: l).Nodup := by
  induction l generalizing n with
  | nil => exact List.nodup_singleton n
  | cons p l ih =>
    exact List.nodup_cons.mpr ⟨fun hm => not_above_self hn (h.mem_iff.mp hm), ih (hn.inv h.1) h.2⟩

theorem UpFrom.length_le (hn : Acc t.IsParent n) (h : t.UpFrom n l) : l.length ≤ t.size := by
  have hlt : ∀ m ∈ (n :: l).dropLast, m < t.size := by
    clear hn
    induction l generalizing n with
    | nil => exact fun m hm => absurd hm List.not_mem_nil
    | cons p l ih =>
      intro m hm
      rw [List.dropLast_cons_cons] at hm
      rcases List.mem_cons.mp hm with rfl | hm
      · exact lt_size_of_isParent h.1
      · exact ih h.2 m hm
  have hnd : (n :: l).dropLast.Nodup := (h.nodup hn).sublist (List.dropLast_sublist _)
  have hle := length_le_of_nodup hnd hlt
  rwa [List.length_dropLast, List.length_cons] at hle

/-! ## The list of ancestors -/

/-- **`ancestors` is the chain of parents.** -/
theorem ancestors_eq (hn : Acc t.IsParent n) (h : t.UpFrom n l) : t.ancestors n = l :=
  h.chain_eq (h.length_le hn)

theorem upFrom_ancestors (hn : Acc t.IsParent n) : t.UpFrom n (t.ancestors n) := by
  obtain ⟨l, hl⟩ := exists_upFrom hn
  rwa [ancestors_eq hn hl]

/-- **`ancestors` holds the strict ancestors.** -/
theorem mem_ancestors (hn : Acc t.IsParent n) : a ∈ t.ancestors n ↔ t.Above a n :=
  (upFrom_ancestors hn).mem_iff

theorem nodup_ancestors (hn : Acc t.IsParent n) : (n :: t.ancestors n).Nodup :=
  (upFrom_ancestors hn).nodup hn

theorem ancestors_of_top (h : t.parent? n = none) : t.ancestors n = [] := by
  unfold ancestors
  rw [h]
  cases t.size <;> rfl

theorem ancestors_of_parent (hn : Acc t.IsParent n) (h : t.IsParent p n) :
    t.ancestors n = p :: t.ancestors p :=
  ancestors_eq hn ⟨h, upFrom_ancestors (hn.inv h)⟩

theorem exists_ancestors_append (hn : Acc t.IsParent n) (h : t.Above a n) :
    ∃ below, t.ancestors n = below ++ a :: t.ancestors a := by
  induction hn with
  | intro n hacc ih =>
    obtain ⟨p, hp, ha⟩ := above_iff.mp h
    rw [ancestors_of_parent (.intro n hacc) hp]
    rcases ha.eq_or_above with rfl | ha
    · exact ⟨[], rfl⟩
    · obtain ⟨below, hb⟩ := ih p hp ha
      exact ⟨p :: below, by rw [hb, List.cons_append]⟩

/-- **Some of the ancestors, in their order**, are nodes each of which lies above the one before it. -/
theorem sublist_ancestors_iff (hn : Acc t.IsParent n) :
    l.Sublist (t.ancestors n) ↔ (n :: l).IsChain fun x y => t.Above y x := by
  constructor
  · intro h
    have hpair : ∀ m, Acc t.IsParent m → (m :: t.ancestors m).Pairwise fun x y => t.Above y x := by
      intro m hm
      induction hm with
      | intro m hacc ih =>
        refine List.pairwise_cons.mpr ⟨fun x hx => (mem_ancestors (.intro m hacc)).mp hx, ?_⟩
        cases hp : t.parent? m with
        | none => rw [ancestors_of_top hp]; exact .nil
        | some p => rw [ancestors_of_parent (.intro m hacc) hp]; exact ih p hp
    exact ((hpair n hn).sublist (h.cons_cons n)).isChain
  · intro h
    induction l generalizing n with
    | nil => exact List.nil_sublist _
    | cons a l ih =>
      obtain ⟨ha, hl⟩ := List.isChain_cons_cons.mp h
      obtain ⟨below, hb⟩ := exists_ancestors_append hn ha
      rw [hb]
      exact ((ih (Acc.inv_of_transGen hn ha) hl).cons_cons a).trans (List.sublist_append_right _ _)

end Selectors.Tree
