import Selectors.Proofs.Document.Loaded
import Selectors.Proofs.Tree.Order

/-!
# Walks up and down

Upwards a walk keeps the node to come, downwards a stack of nodes. In a well-formed tree both walks end.
They give the ancestors and the descendants of a node, and these describe one and the same tree.

* `Yields`: all that a walk gives from a state on, if it ends;
* **`yields_nextDescendant_iff`**, **`yields_nextAncestor_iff`**: what the two walks give;
* **`Yields.eq_descendants`**: what the walk downwards gives in any tree;
* `WellFormed.eq_descendants_iff`: the listing is the only one that goes on from child to child;
* **`walks_of_edits`**: the walks in every tree that changes lead to.
-/

namespace Selectors.Tree

variable {t : Tree} {a b n : NodeId} {l : List NodeId}

/-! ## Walks that end -/

/-- The walk that goes on by `step` gives the nodes of the list, one after another, and ends. -/
inductive Yields {σ : Type} (step : σ → Option (NodeId × σ)) : σ → List NodeId → Prop
  | done {s : σ} (h : step s = none) : Yields step s []
  | next {s s' : σ} {n : NodeId} {l : List NodeId} (h : step s = some (n, s'))
    (rest : Yields step s' l) : Yields step s (n :: l)

theorem Yields.unique {σ : Type} {step : σ → Option (NodeId × σ)} {s : σ} {l' : List NodeId}
    (h : Yields step s l) (h' : Yields step s l') : l = l' := by
  induction h generalizing l' with
  | done hnone =>
    cases h' with
    | done => rfl
    | next hsome => cases hnone.symm.trans hsome
  | next hsome _ ih =>
    cases h' with
    | done hnone => cases hsome.symm.trans hnone
    | next hsome' rest' =>
      obtain ⟨rfl, rfl⟩ := Prod.mk.inj (Option.some.inj (hsome.symm.trans hsome'))
      rw [ih rest']

/-! ## Downwards -/

theorem nextDescendant?_reverse (n : NodeId) (stack : List NodeId) :
    t.nextDescendant? (n :: stack).reverse = some (n, (t.children n ++ stack).reverse) := by
  unfold nextDescendant?
  rw [List.reverse_cons, List.getLast?_concat, List.dropLast_concat, List.reverse_append]
  rfl

theorem yields_reverse_iff {stack : List NodeId} :
    Yields t.nextDescendant? stack.reverse l ↔ t.Visits stack l := by
  constructor
  · intro h
    generalize hs : stack.reverse = s at h
    induction h generalizing stack with
    | done hnone =>
      cases stack with
      | nil => exact .done
      | cons n stack =>
        rw [← hs, nextDescendant?_reverse] at hnone
        cases hnone
    | next hsome _ ih =>
      cases stack with
      | nil =>
        rw [← hs] at hsome
        cases hsome
      | cons n stack =>
        rw [← hs, nextDescendant?_reverse] at hsome
        obtain ⟨rfl, rfl⟩ := Prod.mk.inj (Option.some.inj hsome)
        exact .next (ih rfl)
  · intro h
    induction h with
    | done => exact .done rfl
    | next _ ih => exact .next (nextDescendant?_reverse _ _) ih

/-- **The walk downwards ends, and gives the descendants.** -/
theorem yields_nextDescendant_iff (ht : t.WellFormed) :
    Yields t.nextDescendant? (t.children n).reverse l ↔ l = t.descendants n :=
  yields_reverse_iff.trans (visits_iff_of_acc (ht.acc_isChild n))

/-- **Where the walk downwards ends it gives the descendants**, whatever else the links of the tree say. -/
theorem Yields.eq_descendants (h : Yields t.nextDescendant? (t.children n).reverse l) :
    l = t.descendants n := by
  have hvisits := yields_reverse_iff.mp h
  exact (visits_iff_of_acc (.intro n hvisits.acc)).mp hvisits

/-- **The listing is the only one** in which each child of a node stands before its own listing. -/
theorem WellFormed.eq_descendants_iff (ht : t.WellFormed) {list : NodeId → List NodeId} :
    (∀ n, list n = (t.children n).flatMap fun c => c :: list c) ↔ list = t.descendants := by
  constructor
  · intro h
    funext n
    induction n using ht.induction_down with
    | step n ih =>
      rw [h, ht.descendants_eq]
      exact List.flatMap_congr fun c hc => by rw [ih c hc]
  · rintro rfl
    exact ht.descendants_eq

/-! ## Upwards -/

/-- **The walk upwards ends, and gives the ancestors.** -/
theorem yields_nextAncestor_iff (hn : Acc t.IsParent n) :
    Yields t.nextAncestor? (t.parent? n) l ↔ l = t.ancestors n := by
  have hyields : Yields t.nextAncestor? (t.parent? n) (t.ancestors n) := by
    induction hn with
    | intro n hacc ih =>
      cases hp : t.parent? n with
      | none =>
        rw [ancestors_of_top hp]
        exact .done rfl
      | some p =>
        rw [ancestors_of_parent (.intro n hacc) hp]
        exact .next rfl (ih p hp)
  constructor
  · exact fun h => h.unique hyields
  · rintro rfl
    exact hyields

/-! ## Both -/

theorem isDescendantOf_iff : t.isDescendantOf b a = true ↔ a ∈ t.ancestors b :=
  List.contains_iff_mem

theorem WellFormed.mem_descendants_iff (ht : t.WellFormed) :
    b ∈ t.descendants a ↔ t.isDescendantOf b a = true := by
  rw [isDescendantOf_iff, ht.mem_descendants, mem_ancestors (ht.acc b)]

theorem WellFormed.not_mem_descendants_self (ht : t.WellFormed) (n : NodeId) :
    n ∉ t.descendants n :=
  fun h => not_above_self (ht.acc n) (ht.mem_descendants.mp h)

/-- **The walks in a new or a loaded tree after a run of permitted changes.** From every node the walk
downwards ends and gives the descendants: each child in turn, and behind it what lies below it, no node
twice and not the node itself. The walk upwards ends and gives the ancestors. A node is among the
descendants of another one exactly if that one is among its ancestors. -/
theorem walks_of_edits {t u : Tree} {es : List Edit}
    (ht : t = .new ∨ ∃ text ws, (load text ws).1 = .ok t) (hes : t.Permits es)
    (hu : t.edit? es = some u) :
    (∀ r l, Yields u.nextDescendant? (u.children r).reverse l ↔ l = u.descendants r) ∧
      (∀ list : NodeId → List NodeId,
        (∀ r, list r = (u.children r).flatMap fun c => c :: list c) ↔ list = u.descendants) ∧
      (∀ r, (u.descendants r).Nodup ∧ r ∉ u.descendants r) ∧
      (∀ b l, Yields u.nextAncestor? (u.parent? b) l ↔ l = u.ancestors b) ∧
      ∀ a b, (b ∈ u.descendants a ↔ u.isDescendantOf b a = true) ∧
        (u.isDescendantOf b a = true ↔ a ∈ u.ancestors b) := by
  have hwell : u.WellFormed := ((linked_initial ht).edits hes hu).toWellFormed
  exact ⟨fun r l => yields_nextDescendant_iff hwell, fun list => hwell.eq_descendants_iff,
    fun r => ⟨hwell.nodup_descendants r, hwell.not_mem_descendants_self r⟩,
    fun b l => yields_nextAncestor_iff (hwell.acc b),
    fun a b => ⟨hwell.mem_descendants_iff, isDescendantOf_iff⟩⟩

/-- The walks in a loaded list of which the first item has become the last, and the other has a text. -/
theorem walks_of_reordering :
    ∃ t u, (load "[[\"ul\", \x7b\x7d, [[\"li\"], [\"li\"]]]]" .none).1 = .ok t ∧
      t.edit? [.remove 1 2, .append 1 2, .setText 3 "a"] = some u ∧
      Yields u.nextDescendant? (u.children 0).reverse [1, 3, 4, 2] ∧
      Yields u.nextAncestor? (u.parent? 4) [3, 1, 0] := by
  let li : Content := .element ⟨"li", .empty⟩
  let t : Tree := ⟨#[⟨.document, none, [1], none, none⟩,
    ⟨.element ⟨"ul", .empty⟩, some 0, [2, 3], none, none⟩,
    ⟨li, some 1, [], none, some 3⟩, ⟨li, some 1, [], some 2, none⟩]⟩
  have hload : (load "[[\"ul\", \x7b\x7d, [[\"li\"], [\"li\"]]]]" .none).1 = .ok t := by
    decide +kernel
  have hpermits : t.Permits [.remove 1 2, .append 1 2, .setText 3 "a"] := by decide +kernel
  have hlists : (t.edit? [.remove 1 2, .append 1 2, .setText 3 "a"]).map
      (fun u => (u.descendants 0, u.ancestors 4)) = some ([1, 3, 4, 2], [3, 1, 0]) := by
    decide +kernel
  obtain ⟨u, hu, heq⟩ := Option.map_eq_some_iff.mp hlists
  obtain ⟨hdown, hup⟩ := Prod.mk.inj heq
  obtain ⟨hdescendants, -, -, hancestors, -⟩ :=
    walks_of_edits (Or.inr ⟨_, _, hload⟩) hpermits hu
  exact ⟨t, u, hload, hu, (hdescendants 0 _).mpr hdown.symm, (hancestors 4 _).mpr hup.symm⟩

end Selectors.Tree
