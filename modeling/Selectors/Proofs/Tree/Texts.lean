import Selectors.Proofs.Tree.Splice

/-!
# Setting a text

The children of a node are removed one after another, and a new text node is appended. So nothing else changes but
the children of this one node, and in the listings of the nodes at and above it one stretch gives way to the text
node. The text of such a node is spliced: the text set takes the place of the text that the changed node had. The
nodes that are removed keep their own children, and their texts with them.

* `joinTexts`: the text of a list of nodes;
* `HasNewText`, **`hasNewText_of_setText?`**: the tree after a text is set, and how it differs from the one before;
* **`setText?_splices`**: the text of every node afterwards.
-/

namespace Selectors.Tree

variable {t u : Tree} {m n r : NodeId} {text : String} {l l' : List NodeId}

/-! ## Texts of lists -/

/-- The data of the text nodes of a list, joined. -/
def joinTexts (t : Tree) (l : List NodeId) : String := String.join (l.filterMap t.text?)

theorem joinTexts_append (t : Tree) (l l' : List NodeId) :
    t.joinTexts (l ++ l') = t.joinTexts l ++ t.joinTexts l' := by
  unfold joinTexts
  rw [List.filterMap_append, String.join_append]

theorem joinTexts_congr (h : ∀ m ∈ l, u.text? m = t.text? m) : u.joinTexts l = t.joinTexts l := by
  unfold joinTexts
  rw [List.filterMap_congr h]

theorem joinTexts_singleton (h : t.text? n = some text) : t.joinTexts [n] = text := by
  unfold joinTexts
  rw [List.filterMap_cons_some h, List.filterMap_nil, String.join_cons, String.join_nil, String.append_empty]

theorem textContent_of_text? (h : t.text? n = some text) : t.textContent n = text := by
  unfold textContent
  rw [h]

theorem textContent_of_none (h : t.text? n = none) : t.textContent n = t.joinTexts (t.descendants n) := by
  unfold textContent
  rw [h]
  rfl

theorem textContent_of_only_child {c : NodeId} (ht : t.WellFormed) (hplain : t.text? n = none)
    (hn : t.children n = [c]) (hc : t.children c = []) (htext : t.text? c = some text) : t.textContent n = text := by
  rw [textContent_of_none hplain, ht.descendants_of_only_child hn hc, joinTexts_singleton htext]

theorem text?_congr (h : u.content? n = t.content? n) : u.text? n = t.text? n := by
  unfold text?
  rw [h]

theorem text?_of_content? (h : t.content? n = some (.text text)) : t.text? n = some text := by
  unfold text?
  rw [h]

/-! ## The tree with a new text -/

/-- **One new text node stands in the place of all children of a node**, and the rest of the tree is as before. -/
structure HasNewText (n : NodeId) (text : String) (t u : Tree) : Prop where
  size_eq : u.size = t.size + 1
  wellFormed : u.WellFormed
  children_self : u.children n = [t.size]
  children_of_ne : ∀ m, m ≠ n → u.children m = t.children m
  content?_new : u.content? t.size = some (.text text)
  content?_of_lt : ∀ m, m < t.size → u.content? m = t.content? m

/-- **What setting a text does.** -/
theorem hasNewText_of_setText? (ht : t.WellFormed) (hn : n < t.size) (h : t.setText? n text = some u) :
    HasNewText n text t u := by
  have hgrown := size_setText? h
  obtain ⟨v, hv, -, rfl⟩ := exists_of_setText? h
  have hsize : v.size = t.size := hv.size_eq
  have hwell : v.WellFormed := hv.keeps (fun hw hc => WellFormed.detach hw hc) ht
  have hchildren : ∀ m, m ≠ n → v.children m = t.children m := fun m hm =>
    hv.keeps (P := fun w => w.children m = t.children m)
      (fun hw _ => by rw [children_detach, if_neg hm]; exact hw) rfl
  have hcontent : ∀ m, v.content? m = t.content? m := fun m =>
    hv.keeps (P := fun w => w.content? m = t.content? m) (fun hw _ => by rw [content?_detach]; exact hw) rfl
  have hp : n < (v.alloc (.text text)).1.size := by
    rw [size_alloc, hsize]
    exact Nat.lt_succ_of_lt hn
  refine ⟨hgrown, ?_, ?_, fun m hm => ?_, ?_, fun m hm => ?_⟩
  · rw [← hsize] at hn ⊢
    exact hwell.attach_alloc (.text text) hn
  · rw [children_attach hp, if_pos rfl, children_alloc, hv.children_eq, List.nil_append]
  · rw [children_attach hp, if_neg hm, children_alloc, hchildren m hm]
  · rw [content?_attach, content?_alloc, hsize, if_pos rfl]
  · rw [content?_attach, content?_alloc, hsize, if_neg (Nat.ne_of_lt hm), hcontent]

namespace HasNewText

variable (h : HasNewText n text t u)
include h

theorem text?_of_lt (hm : m < t.size) : u.text? m = t.text? m := text?_congr (h.content?_of_lt m hm)

variable (hn : n < t.size)
include hn

theorem children_new : u.children t.size = [] := by
  rw [h.children_of_ne t.size (Nat.ne_of_gt hn)]
  exact children_eq_nil (Nat.le_refl _)

theorem descendants_self : u.descendants n = [t.size] :=
  h.wellFormed.descendants_of_only_child h.children_self (h.children_new hn)

omit hn in
theorem joinTexts_eq (ht : t.WellFormed) (hl : ∀ m ∈ l, m ∈ t.descendants r) : u.joinTexts l = t.joinTexts l :=
  joinTexts_congr fun m hm => h.text?_of_lt (ht.lt_size_of_mem_descendants (hl m hm))

end HasNewText

/-! ## Texts afterwards -/

/-- **The texts after a text is set**, which succeeds where links lead to nodes. A node that holds no data of its own
and is the changed node or lies above it has the texts that stand before and behind the changed node, and between them
the text set, where the text of the changed node was. The text of every other node stays as it was, and so do the
texts of the former children and of all that lies below them. -/
theorem setText?_splices (ht : t.WellFormed) (hn : n < t.size) (hplain : t.text? n = none) (text : String) :
    (t.Closed → ∃ u, t.setText? n text = some u) ∧ ∀ u, t.setText? n text = some u →
      (∀ m, t.text? m = none → (m = n ∨ m ∈ t.ancestors n) → ∃ before after,
        t.descendants m = before ++ t.descendants n ++ after ∧
        t.textContent m = t.joinTexts before ++ t.textContent n ++ t.joinTexts after ∧
        u.textContent m = t.joinTexts before ++ text ++ t.joinTexts after) ∧
      ∀ m, m < t.size → ¬ (t.text? m = none ∧ (m = n ∨ m ∈ t.ancestors n)) →
        u.textContent m = t.textContent m := by
  refine ⟨fun hclosed => hclosed.exists_setText? hn text, fun u hu => ?_⟩
  have h := hasNewText_of_setText? ht hn hu
  refine ⟨fun m hm habove => ?_, fun m hlt hm => ?_⟩
  · obtain ⟨before, after, hbefore, hafter⟩ :=
      exists_descendants_splice ht h.wellFormed h.children_of_ne (ht.atOrAbove_iff.mpr habove)
    have hmlt : m < t.size := by
      rcases (ht.atOrAbove_iff.mpr habove).eq_or_above with rfl | hmn
      · exact hn
      · exact ht.lt_size_of_above hmn
    refine ⟨before, after, hbefore, ?_, ?_⟩
    · rw [textContent_of_none hm, textContent_of_none hplain, hbefore, joinTexts_append, joinTexts_append]
    · have hb : u.joinTexts before = t.joinTexts before :=
        h.joinTexts_eq (r := m) ht fun x hx => by rw [hbefore]; simp [hx]
      have ha : u.joinTexts after = t.joinTexts after :=
        h.joinTexts_eq (r := m) ht fun x hx => by rw [hbefore]; simp [hx]
      rw [textContent_of_none ((h.text?_of_lt hmlt).trans hm), hafter, h.descendants_self hn, joinTexts_append,
        joinTexts_append, joinTexts_singleton (text?_of_content? h.content?_new), hb, ha]
  · cases htext : t.text? m with
    | some data =>
      rw [textContent_of_text? htext, textContent_of_text? ((h.text?_of_lt hlt).trans htext)]
    | none =>
      have haway : ¬ t.AtOrAbove m n := fun hmn => hm ⟨htext, ht.atOrAbove_iff.mp hmn⟩
      rw [textContent_of_none htext, textContent_of_none ((h.text?_of_lt hlt).trans htext),
        descendants_eq_of_not_atOrAbove ht h.wellFormed h.children_of_ne haway,
        h.joinTexts_eq ht fun _ hx => hx]

/-- A text is set below a text node, which has children as other nodes may, and a text behind it. -/
theorem setText?_below_text : ∃ t u,
    (load
      "[\x7b\"text\": \"a\", \"children\": [[\"i\", \x7b\x7d, [\x7b\"text\": \"b\"\x7d]]]\x7d, \x7b\"text\": \"c\"\x7d]"
      .none).1 = .ok t ∧
    t.setText? 2 "x" = some u ∧ t.textContent 0 = "abc" ∧ u.textContent 0 = "axc" ∧
    (∃ before after, [1, 2, 3, 4] = before ++ [3] ++ after ∧
      "abc" = t.joinTexts before ++ "b" ++ t.joinTexts after ∧
      "axc" = t.joinTexts before ++ "x" ++ t.joinTexts after) ∧
    u.textContent 1 = "a" ∧ u.textContent 3 = "b" := by
  let t : Tree := ⟨#[⟨.document, none, [1, 4], none, none⟩,
    ⟨.text "a", some 0, [2], none, some 4⟩, ⟨.element (.ofTag "i"), some 1, [3], none, none⟩,
    ⟨.text "b", some 2, [], none, none⟩, ⟨.text "c", some 0, [], some 1, none⟩]⟩
  have hload : (load
      "[\x7b\"text\": \"a\", \"children\": [[\"i\", \x7b\x7d, [\x7b\"text\": \"b\"\x7d]]]\x7d, \x7b\"text\": \"c\"\x7d]"
      .none).1 = .ok t := by
    decide +kernel
  have hlinked := linked_load hload
  have hspliced : (t.setText? 2 "x").map (·.textContent 0) = some "axc" := by decide +kernel
  obtain ⟨u, hu, hdocument⟩ := Option.map_eq_some_iff.mp hspliced
  obtain ⟨habove, hother⟩ :=
    (setText?_splices hlinked.toWellFormed (t := t) (n := 2) (by decide) (by decide) "x").2 u hu
  obtain ⟨before, after, hlisted, hbefore, hafter⟩ := habove 0 (by decide) (by decide)
  exact ⟨t, u, hload, hu, by decide +kernel, hdocument,
    ⟨before, after, hlisted, hbefore, hdocument.symm.trans hafter⟩,
    hother 1 (by decide) (by decide), hother 3 (by decide) (by decide)⟩

end Selectors.Tree
