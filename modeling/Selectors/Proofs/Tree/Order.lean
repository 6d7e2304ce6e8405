import Selectors.Proofs.Tree.Downward

/-!
# Document order

A node comes before everything below it, and everything at or below a node comes before everything at or
below a later sibling of it. In a well-formed tree this is a strict order on the nodes below a root, and
`descendants` lists these nodes, each once, in that order.

* `Precedes`, **`Precedes.asymm`**: document order;
* `WellFormed.induction_down`: induction from the nodes without children upwards;
* **`descendants_eq`**: the listing of a node is that of its children, one behind the other;
* **`mem_descendants`**, **`pairwise_descendants`**, `nodup_descendants`;
* **`descendants_infix`**, `filter_descendants`: the listing of a node inside of that of another one.
-/

namespace Selectors.Tree

variable {t : Tree} {a b c d m n p : NodeId}

/-! ## The order -/

/-- `m` comes before `n` in document order. -/
inductive Precedes (t : Tree) : NodeId → NodeId → Prop
  | above {m n : NodeId} (h : t.Above m n) : Precedes t m n
  /-- `m` and `n` lie at or below two children of one node, in this order. -/
  | beside {p c d m n : NodeId} (hs : [c, d].Sublist (t.children p)) (hm : t.AtOrAbove c m)
      (hn : t.AtOrAbove d n) : Precedes t m n

theorem not_sublist_swap {l : List NodeId} (hl : l.Nodup) (h : [c, d].Sublist l) :
    ¬ [d, c].Sublist l := by
  intro h'
  induction l with
  | nil => cases h
  | cons x l ih =>
    obtain ⟨hx, hl⟩ := List.nodup_cons.mp hl
    cases h with
    | cons _ h =>
      cases h' with
      | cons _ h' => exact ih hl h h'
      | cons_cons _ h' => exact hx (h.subset (List.mem_cons_of_mem _ List.mem_cons_self))
    | cons_cons _ h =>
      cases h' with
      | cons _ h' => exact hx (h'.subset (List.mem_cons_of_mem _ List.mem_cons_self))
      | cons_cons _ h' => exact hx (h.subset List.mem_cons_self)

namespace WellFormed

variable (ht : t.WellFormed)
include ht

theorem acc (n : NodeId) : Acc t.IsParent n := ht.grounded.apply n

theorem atOrAbove_iff : t.AtOrAbove a n ↔ a = n ∨ a ∈ t.ancestors n := by
  rw [mem_ancestors (ht.acc n)]
  constructor
  · exact AtOrAbove.eq_or_above
  · rintro (rfl | h)
    · exact .refl
    · exact h.to_reflTransGen

theorem siblings (h : [c, d].Sublist (t.children p)) :
    t.IsParent p c ∧ t.IsParent p d ∧ c ≠ d := by
  refine ⟨ht.isParent_of_mem (h.subset List.mem_cons_self),
    ht.isParent_of_mem (h.subset (List.mem_cons_of_mem _ List.mem_cons_self)), ?_⟩
  rintro rfl
  exact not_sublist_swap (ht.nodup_children p) h h

/-- **Nothing lies at or below two siblings.** -/
theorem disjoint_siblings (hc : t.IsParent p c) (hd : t.IsParent p d) (hne : c ≠ d)
    (hcn : t.AtOrAbove c n) : ¬ t.AtOrAbove d n := by
  intro hdn
  have key : ∀ {x y}, t.IsParent p x → t.IsParent p y → x ≠ y → ¬ t.AtOrAbove x y := by
    intro x y hx hy hxy h
    obtain ⟨q, hq, hxq⟩ := above_iff.mp (h.eq_or_above.resolve_left hxy)
    obtain rfl := isParent_unique hq hy
    exact not_above_self (ht.acc x) (Relation.TransGen.tail' hxq hx)
  rcases hcn.total hdn with h | h
  · exact key hc hd hne h
  · exact key hd hc (Ne.symm hne) h

end WellFormed

/-- **Document order is strict.** -/
theorem Precedes.asymm (ht : t.WellFormed) (h : t.Precedes m n) : ¬ t.Precedes n m := by
  intro h'
  cases h with
  | above hmn =>
    cases h' with
    | above hnm => exact not_above_self (ht.acc m) (hmn.trans hnm)
    | beside hs hcn hdm =>
      obtain ⟨hc, hd, hne⟩ := ht.siblings hs
      exact ht.disjoint_siblings hc hd hne hcn (hdm.trans hmn.to_reflTransGen)
  | @beside p c d _ _ hs hcm hdn =>
    obtain ⟨hc, hd, hne⟩ := ht.siblings hs
    cases h' with
    | above hnm => exact ht.disjoint_siblings hc hd hne hcm (hdn.trans hnm.to_reflTransGen)
    | @beside p' c' d' _ _ hs' hcn' hdm' =>
      obtain ⟨hc', hd', hne'⟩ := ht.siblings hs'
      -- `c` and `d'` both lie at or above `m`, so they are one node, or one lies above the other.
      have upper : ∀ {q x y}, t.IsParent q y → t.AtOrAbove x y → x ≠ y → t.AtOrAbove x q := by
        intro q x y hq hxy hne
        obtain ⟨r, hr, hxr⟩ := above_iff.mp (hxy.eq_or_above.resolve_left hne)
        exact isParent_unique hr hq ▸ hxr
      by_cases hcd : c = d'
      · subst hcd
        obtain rfl := isParent_unique hc hd'
        by_cases hdc : d = c'
        · subst hdc
          exact not_sublist_swap (ht.nodup_children p) hs hs'
        · exact ht.disjoint_siblings hd hc' hdc hdn hcn'
      · rcases hcm.total hdm' with h | h
        · exact ht.disjoint_siblings hc hd hne (((upper hd' h hcd).tail hc').trans hcn') hdn
        · exact ht.disjoint_siblings hc' hd' hne' hcn'
            (((upper hc h (Ne.symm hcd)).tail hd).trans hdn)

/-! ## The listing -/

theorem filter_mem_of_sublist {l l' : List NodeId} (hl : l.Nodup) (h : l'.Sublist l) :
    l.filter (· ∈ l') = l' := by
  induction h with
  | slnil => rfl
  | @cons l' l x h ih =>
    obtain ⟨hx, hl⟩ := List.nodup_cons.mp hl
    rw [List.filter_cons_of_neg (by simpa using fun hmem => hx (h.subset hmem)), ih hl]
  | @cons_cons l' l x h ih =>
    obtain ⟨hx, hl⟩ := List.nodup_cons.mp hl
    have hsame : ∀ y ∈ l, decide (y ∈ x :: l') = decide (y ∈ l') := by
      intro y hy
      have hne : y ≠ x := by rintro rfl; exact hx hy
      simp [hne]
    rw [List.filter_cons_of_pos (by simp), List.filter_congr hsame, ih hl]

namespace WellFormed

variable (ht : t.WellFormed)
include ht

theorem length_ancestors_child (h : c ∈ t.children p) :
    (t.ancestors c).length = (t.ancestors p).length + 1 := by
  rw [ancestors_of_parent (ht.acc c) (ht.isParent_of_mem h), List.length_cons]

theorem length_ancestors_lt (h : c ∈ t.children p) : (t.ancestors c).length < t.size := by
  have hlt : ∀ m ∈ c :: t.ancestors c, m < t.size := by
    intro m hm
    rcases List.mem_cons.mp hm with rfl | hm
    · exact lt_size_of_isParent (ht.isParent_of_mem h)
    · exact ht.lt_size_of_above ((mem_ancestors (ht.acc c)).mp hm)
  have hle := length_le_of_nodup (nodup_ancestors (ht.acc c)) hlt
  rwa [List.length_cons] at hle

/-- Induction from the children to their parent. -/
theorem induction_down {P : NodeId → Prop} (step : ∀ n, (∀ c ∈ t.children n, P c) → P n)
    (n : NodeId) : P n := by
  induction h : t.size - (t.ancestors n).length using Nat.strongRecOn generalizing n with
  | _ k ih =>
    refine step n fun c hc => ih _ ?_ c rfl
    have h1 := ht.length_ancestors_child hc
    have h2 := ht.length_ancestors_lt hc
    omega

theorem acc_isChild (n : NodeId) : Acc t.IsChild n := ht.induction_down Acc.intro n

/-- **The listing of a node**: each child, and behind it the listing of that child. -/
theorem descendants_eq (n : NodeId) :
    t.descendants n = (t.children n).flatMap fun c => c :: t.descendants c :=
  descendants_eq_of_acc (ht.acc_isChild n)

theorem descendants_of_only_child (hn : t.children n = [c]) (hc : t.children c = []) : t.descendants n = [c] := by
  rw [ht.descendants_eq, hn, List.flatMap_singleton, ht.descendants_eq, hc, List.flatMap_nil]

/-- **`descendants` holds the nodes below.** -/
theorem mem_descendants : n ∈ t.descendants a ↔ t.Above a n := by
  induction a using ht.induction_down with
  | step a ih =>
    rw [ht.descendants_eq, List.mem_flatMap]
    constructor
    · rintro ⟨c, hc, hn⟩
      have hac := ht.isParent_of_mem hc
      rcases List.mem_cons.mp hn with rfl | hn
      · exact .single hac
      · exact .head hac ((ih c hc).mp hn)
    · intro h
      obtain ⟨c, hac, hcn⟩ := Relation.TransGen.head'_iff.mp h
      have hc := ht.mem_of_isParent hac
      refine ⟨c, hc, List.mem_cons.mpr ?_⟩
      exact (AtOrAbove.eq_or_above hcn).imp Eq.symm (ih c hc).mpr

theorem lt_size_of_mem_descendants (h : n ∈ t.descendants a) : n < t.size := by
  obtain ⟨p, hp, -⟩ := above_iff.mp (ht.mem_descendants.mp h)
  exact lt_size_of_isParent hp

theorem atOrAbove_of_mem_block (h : n ∈ c :: t.descendants c) : t.AtOrAbove c n := by
  rcases List.mem_cons.mp h with rfl | h
  · exact .refl
  · exact (ht.mem_descendants.mp h).to_reflTransGen

/-- **`descendants` is in document order.** -/
theorem pairwise_descendants (n : NodeId) : (t.descendants n).Pairwise t.Precedes := by
  induction n using ht.induction_down with
  | step n ih =>
    rw [ht.descendants_eq, List.pairwise_flatMap]
    constructor
    · intro c hc
      exact List.pairwise_cons.mpr ⟨fun m hm => .above (ht.mem_descendants.mp hm), ih c hc⟩
    · refine List.pairwise_iff_forall_sublist.mpr fun hs x hx y hy => ?_
      exact .beside hs (ht.atOrAbove_of_mem_block hx) (ht.atOrAbove_of_mem_block hy)

theorem nodup_descendants (n : NodeId) : (t.descendants n).Nodup :=
  (ht.pairwise_descendants n).imp fun h => by rintro rfl; exact h.asymm ht h

/-- **What lies below a node is one stretch** of what lies below any node at or above it. -/
theorem descendants_infix (h : t.AtOrAbove a n) : t.descendants n <:+: t.descendants a := by
  induction h with
  | refl => exact List.infix_rfl
  | @tail p n _ hpn ih =>
    have hblock : n :: t.descendants n <:+: t.descendants p := by
      rw [ht.descendants_eq p, List.flatMap_def]
      exact List.infix_of_mem_flatten
        (List.mem_map_of_mem (f := fun c => c :: t.descendants c) (ht.mem_of_isParent hpn))
    exact ((List.suffix_cons n _).isInfix.trans hblock).trans ih

/-- That stretch is what remains of the longer listing if only the nodes below `n` are kept. -/
theorem filter_descendants (h : t.AtOrAbove a n) :
    (t.descendants a).filter (· ∈ t.descendants n) = t.descendants n :=
  filter_mem_of_sublist (ht.nodup_descendants a) (ht.descendants_infix h).sublist

end WellFormed

end Selectors.Tree
