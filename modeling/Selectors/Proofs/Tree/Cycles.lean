import Selectors.Proofs.Tree.Linked

/-!
# Cycles

A node that is appended at or below itself lies above itself from then on, and the walks do not end there. Setting
a text can do this: the text node is allocated before the number of its parent is looked at, and the one number that
is no node before and is a node afterwards is that of the text node itself.

* `transGen_of_step`: paths where there is one more step;
* **`exists_above_self_attach_iff`**: where appending a node without a parent makes a cycle;
* `exists_above_self_setText?_iff`: where setting a text does;
* **`setText?_at_no_node`**: setting a text at a number that is no node; `setText?_first_free`: the cycle.
-/

namespace Selectors.Tree

variable {t u v : Tree} {a b n m p c : NodeId} {text : String}

/-! ## One more step -/

theorem transGen_of_step {α : Type} {r s : α → α → Prop} {x y a b : α}
    (hs : ∀ a b, s a b → r a b ∨ a = x ∧ b = y) (h : Relation.TransGen s a b) :
    Relation.TransGen r a b ∨ Relation.ReflTransGen r a x ∧ Relation.ReflTransGen r y b := by
  induction h with
  | single hab =>
    rcases hs _ _ hab with hab | ⟨rfl, rfl⟩
    · exact Or.inl (.single hab)
    · exact Or.inr ⟨.refl, .refl⟩
  | tail _ hbc ih =>
    rcases hs _ _ hbc with hbc | ⟨rfl, rfl⟩
    · exact ih.imp (·.tail hbc) fun ⟨hax, hyb⟩ => ⟨hax, hyb.tail hbc⟩
    · exact Or.inr ⟨ih.elim (·.to_reflTransGen) (·.1), .refl⟩

theorem isParent_attach_iff (hc : c < t.size) (hd : t.parent? c = none) :
    (t.attach p c).IsParent a b ↔ t.IsParent a b ∨ a = p ∧ b = c := by
  unfold IsParent
  rw [parent?_attach hc]
  by_cases hb : b = c
  · simp [hb, hd, eq_comm]
  · simp [hb]

/-- **Appending a node without a parent makes a cycle** exactly if the node is, or lies above, the one that it is
appended to. -/
theorem exists_above_self_attach_iff (hc : c < t.size) (hd : t.parent? c = none) (ht : ∀ m, ¬ t.Above m m) :
    (∃ m, (t.attach p c).Above m m) ↔ t.AtOrAbove c p := by
  constructor
  · rintro ⟨m, hm⟩
    rcases transGen_of_step (fun a b => (isParent_attach_iff hc hd).mp) hm with hm | ⟨hmp, hcm⟩
    · exact absurd hm (ht m)
    · exact hcm.trans hmp
  · intro h
    have hup : (t.attach p c).AtOrAbove c p :=
      Relation.ReflTransGen.mono (fun a b hab => (isParent_attach_iff hc hd).mpr (Or.inl hab)) c p h
    exact ⟨c, above_iff.mpr ⟨p, (isParent_attach_iff hc hd).mpr (Or.inr ⟨rfl, rfl⟩), hup⟩⟩

/-! ## Setting a text -/

theorem EmptiesTo.isParent (h : EmptiesTo n t u) (hab : u.IsParent a b) : t.IsParent a b :=
  h.keeps (P := fun v => ∀ a b, v.IsParent a b → t.IsParent a b)
    (fun hv _ a b hab => hv a b (isParent_of_detach hab).2) (fun _ _ => id) a b hab

/-- Setting a text makes a cycle exactly if the chain of parents of the emptied node leads to the number that the text
node gets. -/
theorem exists_above_self_setText?_iff (h : t.setText? n text = some u) (ht : ∀ m, ¬ t.Above m m) :
    (∃ m, u.Above m m) ↔ ∃ v, t.empty? n = some v ∧ v.AtOrAbove t.size n := by
  obtain ⟨v, hv, -, rfl⟩ := exists_of_setText? h
  have hacyclic : ∀ m, ¬ (v.alloc (.text text)).1.Above m m := by
    intro m hm
    rw [Above, isParent_alloc] at hm
    exact ht m (Relation.TransGen.mono (fun a b => hv.isParent) m m hm)
  have hnew : t.size < (v.alloc (.text text)).1.size := by
    rw [size_alloc, hv.size_eq]
    exact Nat.lt_succ_self _
  have hloose : (v.alloc (.text text)).1.parent? t.size = none := by
    rw [parent?_alloc]
    exact parent?_eq_none (Nat.le_of_eq hv.size_eq)
  rw [exists_above_self_attach_iff hnew hloose hacyclic, AtOrAbove, isParent_alloc, empty?_eq_some_iff.mpr hv]
  simp only [Option.some.injEq, exists_eq_left', AtOrAbove]

theorem setText?_of_children_eq_nil (h : t.children n = []) : t.setText? n text =
    if n ≤ t.size then some ((t.alloc (.text text)).1.attach n t.size) else none := by
  unfold setText?
  rw [empty?_of_nil h]
  show (t.alloc (.text text)).1.appendChild? n t.size = _
  unfold appendChild? allocated
  rw [children_alloc, h, size_alloc]
  simp only [List.getLast?_nil, Option.toList_none, List.all_cons, List.all_nil, Bool.and_true,
    Nat.lt_succ_iff, Nat.le_refl, decide_true, decide_eq_true_eq]

/-- **Setting a text at a number that is no node** fails but for the first such number, which the text node gets: it
becomes its own only child. In a tree without cycles whose parents are nodes, setting a text makes a cycle for this
number alone; where a parent is no node, it also does if the chain of parents of the emptied node ends there. -/
theorem setText?_at_no_node (t : Tree) (n : NodeId) (text : String) :
    (t.size ≤ n → (t.setText? n text = none ↔ n ≠ t.size)) ∧
      (∃ u, t.setText? t.size text = some u ∧ u.content? t.size = some (.text text) ∧
        u.parent? t.size = some t.size ∧ u.children t.size = [t.size]) ∧
      ∀ u, t.setText? n text = some u → (∀ m, ¬ t.Above m m) →
        ((∃ m, u.Above m m) ↔ ∃ v, t.empty? n = some v ∧ v.AtOrAbove t.size n) ∧
          ((∀ m p, t.parent? m = some p → p < t.size) → ((∃ m, u.Above m m) ↔ n = t.size)) := by
  have hnil : t.children t.size = [] := children_eq_nil (Nat.le_refl _)
  have hlt : t.size < (t.alloc (.text text)).1.size := by
    rw [size_alloc]
    exact Nat.lt_succ_self _
  refine ⟨fun hn => ?_, ⟨_, (setText?_of_children_eq_nil hnil).trans (if_pos (Nat.le_refl _)), ?_, ?_, ?_⟩,
    fun u hu ht => ⟨exists_above_self_setText?_iff hu ht, fun hparent => ?_⟩⟩
  · rw [setText?_of_children_eq_nil (children_eq_nil hn)]
    split
    · rename_i hle
      exact iff_of_false (Option.some_ne_none _) fun hne => hne (Nat.le_antisymm hle hn)
    · rename_i hle
      exact iff_of_true rfl fun heq => hle (Nat.le_of_eq heq)
  · rw [content?_attach, content?_alloc, if_pos rfl]
  · rw [parent?_attach hlt, if_pos rfl]
  · rw [children_attach hlt, if_pos rfl, children_alloc, hnil, List.nil_append]
  · rw [exists_above_self_setText?_iff hu ht]
    constructor
    · rintro ⟨v, hv, habove⟩
      -- no node has the number of the text node as its parent, so the chain is empty
      rcases habove.eq_or_above with h | h
      · exact h.symm
      · obtain ⟨d, hd, -⟩ := Relation.TransGen.head'_iff.mp h
        exact absurd (hparent d t.size ((empty?_eq_some_iff.mp hv).isParent hd)) (Nat.lt_irrefl _)
    · rintro rfl
      exact ⟨t, empty?_of_nil hnil, .refl⟩

/-- A text at the second number behind the nodes, and one at the document. -/
theorem setText?_document :
    Tree.new.setText? 2 "a" = none ∧ ∃ u, Tree.new.setText? 0 "a" = some u ∧ ∀ m, ¬ u.Above m m := by
  obtain ⟨u, hu⟩ : ∃ u, Tree.new.setText? 0 "a" = some u := Option.isSome_iff_exists.mp (by decide)
  have hnew : ∀ m, ¬ Tree.new.Above m m := fun m => not_above_self (linked_new.grounded.apply m)
  have hcycle := (setText?_at_no_node .new 0 "a").2.2 u hu hnew
  have hno := (hcycle.2 fun m p => linked_new.closed.parent).not.mpr (by decide)
  exact ⟨((setText?_at_no_node .new 2 "a").1 (by decide)).mpr (by decide), u, hu, not_exists.mp hno⟩

/-- In a new tree a text set at the number behind the document makes a cycle. -/
theorem setText?_first_free :
    Tree.new.size ≤ 1 ∧ (∀ m, ¬ Tree.new.Above m m) ∧
      ∃ u, Tree.new.setText? 1 "a" = some u ∧ u.Above 1 1 := by
  have hparent : (Tree.new.setText? 1 "a").map (·.parent? 1) = some (some 1) := by decide
  obtain ⟨u, hu, hself⟩ := Option.map_eq_some_iff.mp hparent
  exact ⟨by decide, fun m => not_above_self (linked_new.grounded.apply m), u, hu, .single hself⟩

end Selectors.Tree
