import Selectors.Proofs.Document.Loaded

/-!
# Runs of any changes

Callers may append a node to several nodes, twice to one, or below itself, and may give numbers that are no nodes.
The links may then contradict each other, but none leads out of the tree, as long as no change has failed.

* **`Closed.edit`**, **`Closed.edits`**: what every change and every run of changes keeps;
* **`closed_of_edits`**: the links of a new or a loaded tree after any run, and where the next change fails.
-/

namespace Selectors.Tree

variable {t u : Tree} {e : Edit} {es : List Edit}

/-- **No change makes a link that leads out of the tree.** -/
theorem Closed.edit (ht : t.Closed) (h : e.run? t = some u) : u.Closed := by
  cases e with
  | alloc content => exact Option.some.inj h ▸ ht.alloc content
  | append p c =>
    obtain ⟨hp, hc, rfl⟩ := lt_of_appendChild? h
    exact ht.attach hp hc
  | remove p c =>
    rw [eq_of_removeChild? h]
    split
    · exact ht.detach p c
    · exact ht
  | empty n => exact (empty?_eq_some_iff.mp h).closed ht
  | setText n text => exact ht.setText? h

/-- **No run of changes makes a link that leads out of the tree.** -/
theorem Closed.edits (ht : t.Closed) (h : t.edit? es = some u) : u.Closed := by
  induction es generalizing t with
  | nil => exact Option.some.inj h ▸ ht
  | cons e es ih =>
    rw [edit?_cons, Option.bind_eq_some_iff] at h
    obtain ⟨v, hv, hu⟩ := h
    exact ih (ht.edit hv) hu

/-- **A new or a loaded tree after any run of changes that has not failed.** Every link leads to a node of the tree.
Emptying fails for no number, and ends with no children. Removing a child fails exactly if the number of its parent
is no node, and appending exactly if one of the two numbers is none. -/
theorem closed_of_edits (ht : t = .new ∨ ∃ text ws, (load text ws).1 = .ok t) (hu : t.edit? es = some u) :
    (∀ n m, (u.parent? n = some m ∨ m ∈ u.children n ∨ u.previous? n = some m ∨ u.next? n = some m) →
        m < u.size) ∧
      (∀ n, ∃ v, u.empty? n = some v ∧ EmptiesTo n u v ∧ v.children n = []) ∧
      (∀ p c, u.removeChild? p c = none ↔ ¬ p < u.size) ∧
      ∀ p c, u.appendChild? p c = none ↔ ¬ (p < u.size ∧ c < u.size) := by
  have hclosed : u.Closed := (linked_initial ht).closed.edits hu
  refine ⟨fun n m h => hclosed.lt_size h, fun n => ?_, fun p c => removeChild?_eq_none_iff hclosed,
    fun p c => appendChild?_eq_none_iff hclosed⟩
  obtain ⟨v, hv⟩ := hclosed.exists_emptiesTo n
  exact ⟨v, empty?_eq_some_iff.mpr hv, hv, hv.children_eq⟩

/-- The last item of a list is appended to the document as well, then to itself, and to the document again. -/
theorem closed_of_cycle :
    let es : List Edit := [.alloc (.element ⟨"ul", .empty⟩), .alloc (.element ⟨"li", .empty⟩),
      .alloc (.element ⟨"li", .empty⟩), .append 1 2, .append 1 3, .append 0 3, .append 3 3, .append 0 3]
    ∃ u, Tree.new.edit? es = some u ∧ (u.children 0, u.children 1, u.children 3) = ([3, 3], [2, 3], [3]) ∧
      u.previous? 3 = some 3 ∧ (∀ n m, u.previous? n = some m → m < u.size) ∧
      (∃ v, u.empty? 0 = some v ∧ v.children 0 = []) ∧ u.removeChild? 4 3 = none ∧ u.appendChild? 3 4 = none := by
  intro es
  have hlinks : (Tree.new.edit? es).map (fun u => (u.size, u.previous? 3, u.children 0, u.children 1, u.children 3)) =
      some (4, some 3, [3, 3], [2, 3], [3]) := by decide +kernel
  obtain ⟨u, hu, heq⟩ := Option.map_eq_some_iff.mp hlinks
  obtain ⟨hsize, heq⟩ := Prod.mk.inj heq
  obtain ⟨hprevious, hchildren⟩ := Prod.mk.inj heq
  obtain ⟨hlt, hempty, hremove, happend⟩ := closed_of_edits (Or.inl rfl) hu
  obtain ⟨v, hv, -, hnil⟩ := hempty 0
  refine ⟨u, hu, hchildren, hprevious, fun n m h => hlt n m (Or.inr (Or.inr (Or.inl h))), ⟨v, hv, hnil⟩,
    (hremove 4 3).mpr ?_, (happend 3 4).mpr ?_⟩ <;> rw [hsize] <;> decide

end Selectors.Tree
