import Selectors.Document.Loader
import Selectors.Proofs.Tree.Edits

/-!
# Trees of documents

Loading allocates a node and appends it at once, so at every moment of it the links are consistent; and
so they stay when the loaded tree is changed.

* `Builder.linked_add`, `Builder.linked_attachAll`: what one node and what a list of nodes adds;
* **`linked_load`**: the tree of a text; **`consistent_of_edits`**: the same after a run of changes.
-/

namespace Selectors

open Selectors.Tree

namespace Builder

variable {b : Builder} {parent : NodeId} {content : Content}

@[simp] theorem tree_note (b : Builder) (content : Content) : (b.note content).tree = b.tree := by
  unfold note noteId
  split
  · split
    · rfl
    · split <;> rfl
  · rfl

theorem tree_add (hb : b.tree.Linked) (hp : parent < b.tree.size) :
    (b.add parent content).1.tree = (b.tree.alloc content).1.attach parent b.tree.size := by
  have hlt : parent < (b.tree.alloc content).1.size := by
    rw [size_alloc]; exact Nat.lt_succ_of_lt hp
  have hn : b.tree.size < (b.tree.alloc content).1.size := by
    rw [size_alloc]; exact Nat.lt_succ_self _
  show ((b.tree.alloc content).1.appendChild? parent b.tree.size).getD _ = _
  rw [appendChild?_eq (hb.alloc content).closed hlt hn, Option.getD_some]

theorem linked_add (content : Content) (hb : b.tree.Linked) (hp : parent < b.tree.size) :
    (b.add parent content).1.tree.Linked ∧
      (b.add parent content).1.tree.size = b.tree.size + 1 := by
  rw [tree_add hb hp, size_attach, size_alloc]
  exact ⟨hb.attach_alloc content hp, rfl⟩

mutual

theorem linked_attach {b b' : Builder} {parent : NodeId} {path : List Nat} {d : Description}
    (hb : b.tree.Linked) (hp : parent < b.tree.size) (h : b.attach parent path d = .ok b') :
    b'.tree.Linked ∧ b.tree.size ≤ b'.tree.size := by
  obtain ⟨tag, attributes, children, text, comment⟩ := d
  unfold attach at h
  split at h
  · cases h
  · rename_i content _
    rw [← tree_note b content] at hb hp ⊢
    obtain ⟨hadd, hsize⟩ := linked_add content hb hp
    obtain ⟨hall, hle⟩ := linked_attachAll hadd (hsize ▸ Nat.lt_succ_self _) h
    exact ⟨hall, Nat.le_trans (hsize ▸ Nat.le_succ _) hle⟩

theorem linked_attachAll {b b' : Builder} {parent : NodeId} {path : List Nat} {index : Nat}
    {ds : List Description} (hb : b.tree.Linked) (hp : parent < b.tree.size)
    (h : b.attachAll parent path index ds = .ok b') :
    b'.tree.Linked ∧ b.tree.size ≤ b'.tree.size := by
  cases ds with
  | nil =>
    unfold attachAll at h
    cases h
    exact ⟨hb, Nat.le_refl _⟩
  | cons d rest =>
    unfold attachAll at h
    cases hd : b.attach parent (path ++ [index]) d with
    | error e => rw [hd] at h; cases h
    | ok mid =>
      rw [hd] at h
      obtain ⟨hmid, hle⟩ := linked_attach hb hp hd
      obtain ⟨hall, hle'⟩ := linked_attachAll hmid (Nat.lt_of_lt_of_le hp hle) h
      exact ⟨hall, Nat.le_trans hle hle'⟩

end

end Builder

/-- **The tree of a text has consistent links.** -/
theorem linked_load {text : String} {ws : Warnings} {t : Tree} (h : (load text ws).1 = .ok t) :
    t.Linked := by
  unfold load at h
  split at h
  · cases h
  · split at h
    · cases h
    · rename_i b hb
      obtain rfl : b.tree = t := Except.ok.inj h
      exact (Builder.linked_attachAll linked_new Nat.zero_lt_one hb).1

theorem linked_initial {t : Tree} (ht : t = .new ∨ ∃ text ws, (load text ws).1 = .ok t) : t.Linked := by
  rcases ht with rfl | ⟨text, ws, ht⟩
  · exact linked_new
  · exact linked_load ht

/-! ## Changing a new or a loaded tree -/

/-- **The links of a new or a loaded tree stay consistent along every run of permitted changes.** The
run stops early only at a change that appends a node that was never allocated, or appends to one. -/
theorem consistent_of_edits {t : Tree} {es : List Edit}
    (ht : t = .new ∨ ∃ text ws, (load text ws).1 = .ok t) (h : t.Permits es) :
    (∀ u, t.edit? es = some u → u.Consistent) ∧
      (t.edit? es = none → ∃ before p c after u, es = before ++ .append p c :: after ∧
        t.edit? before = some u ∧ ¬ (p < u.size ∧ c < u.size)) := by
  have hlinked : t.Linked := linked_initial ht
  exact ⟨fun u hu => (hlinked.edits h hu).consistent,
    fun hnone => exists_append_of_edit?_eq_none hlinked h hnone⟩

/-- A loaded list loses its first item, which becomes its last, and the other item gets a text. -/
theorem consistent_of_reordering :
    ∃ t u, (load "[[\"ul\", \x7b\x7d, [[\"li\"], [\"li\"]]]]" .none).1 = .ok t ∧
      t.edit? [.remove 1 2, .append 1 2, .setText 3 "a"] = some u ∧ u.Consistent := by
  let li : Content := .element ⟨"li", .empty⟩
  let t : Tree := ⟨#[⟨.document, none, [1], none, none⟩,
    ⟨.element ⟨"ul", .empty⟩, some 0, [2, 3], none, none⟩,
    ⟨li, some 1, [], none, some 3⟩, ⟨li, some 1, [], some 2, none⟩]⟩
  have hload : (load "[[\"ul\", \x7b\x7d, [[\"li\"], [\"li\"]]]]" .none).1 = .ok t := by
    decide +kernel
  have hpermits : t.Permits [.remove 1 2, .append 1 2, .setText 3 "a"] := by decide +kernel
  obtain ⟨u, hu⟩ : ∃ u, t.edit? [.remove 1 2, .append 1 2, .setText 3 "a"] = some u :=
    Option.isSome_iff_exists.mp (by decide +kernel)
  exact ⟨t, u, hload, hu, (consistent_of_edits (Or.inr ⟨_, _, hload⟩) hpermits).1 u hu⟩

end Selectors
