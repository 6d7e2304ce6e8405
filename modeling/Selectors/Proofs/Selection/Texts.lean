import Mathlib.Data.List.Induction
import Selectors.Proofs.Tree.Texts
import Selectors.Selection

/-!
# Texts of selected nodes

The text is set at one selected node after another. A node may be selected again, and by then stand outside of the
tree, because a node above it had its children removed before. None of this makes a difference: setting a text looks
only at the children of one node, and these change only where that node is selected itself.

* `foldlM_exists`: a loop whose steps succeed and keep a property;
* `HasNewTexts`, `HasNewTexts.concat`, **`hasNewTexts_of_foldlM`**: the tree after some of the nodes, and after one more;
* **`setText?_each`**: the tree after all of them.
-/

namespace Selectors

open Selectors.Tree

variable {t u v : Tree} {n : NodeId} {nodes : List NodeId} {text : String}

/-- A loop succeeds, and keeps a property, if each of its steps does. -/
theorem foldlM_exists {α β : Type} {f : β → α → Option β} {P : β → Prop} {l : List α} {b : β}
    (hstep : ∀ b, P b → ∀ a ∈ l, ∃ b', f b a = some b' ∧ P b') (hb : P b) :
    ∃ b', l.foldlM f b = some b' ∧ P b' := by
  induction l generalizing b with
  | nil => exact ⟨b, rfl, hb⟩
  | cons a l ih =>
    obtain ⟨c, hc, hP⟩ := hstep b hb a List.mem_cons_self
    obtain ⟨b', hb', hP'⟩ := ih (fun b hb a ha => hstep b hb a (List.mem_cons_of_mem _ ha)) hP
    refine ⟨b', ?_, hP'⟩
    rw [List.foldlM_cons, hc]
    exact hb'

/-! ## One node after another -/

/-- **Each node of a list has a new text node for its only child**, and the rest of the tree is as before. -/
structure HasNewTexts (nodes : List NodeId) (text : String) (t u : Tree) : Prop where
  size_eq : u.size = t.size + nodes.length
  wellFormed : u.WellFormed
  content?_of_lt : ∀ m, m < t.size → u.content? m = t.content? m
  children_of_not_mem : ∀ m, m < t.size → m ∉ nodes → u.children m = t.children m
  only_child : ∀ n ∈ nodes, ∃ c, u.children n = [c] ∧ u.children c = [] ∧ u.content? c = some (.text text) ∧
    t.size ≤ c ∧ c < u.size

namespace HasNewTexts

theorem nil (ht : t.WellFormed) (text : String) : HasNewTexts [] text t t :=
  ⟨rfl, ht, fun _ _ => rfl, fun _ _ _ => rfl, fun _ hn => absurd hn List.not_mem_nil⟩

/-- **One more node**, be it among those before, or below them, or above them. -/
theorem concat (h : HasNewTexts nodes text t u) (hn : n < t.size) (hv : HasNewText n text u v) :
    HasNewTexts (nodes ++ [n]) text t v := by
  have hle : t.size ≤ u.size := by rw [h.size_eq]; exact Nat.le_add_right _ _
  refine ⟨?_, hv.wellFormed, fun m hm => ?_, fun m hm hmem => ?_, fun m hmem => ?_⟩
  · rw [hv.size_eq, h.size_eq, List.length_append, List.length_singleton, Nat.add_assoc]
  · rw [hv.content?_of_lt m (Nat.lt_of_lt_of_le hm hle), h.content?_of_lt m hm]
  · obtain ⟨hmem, hne⟩ := not_or.mp fun hor => hmem (List.mem_append.mpr hor)
    rw [hv.children_of_ne m fun e => hne (List.mem_singleton.mpr e), h.children_of_not_mem m hm hmem]
  · by_cases hm : m = n
    · subst hm
      exact ⟨u.size, hv.children_self, hv.children_new (Nat.lt_of_lt_of_le hn hle), hv.content?_new, hle,
        by rw [hv.size_eq]; exact Nat.lt_succ_self _⟩
    · -- the text node that it has was allocated later than `n`, so it is not emptied
      have hmem : m ∈ nodes := (List.mem_append.mp hmem).resolve_right fun h => hm (List.mem_singleton.mp h)
      obtain ⟨c, hchildren, hnone, hcontent, hnew, hlt⟩ := h.only_child m hmem
      refine ⟨c, ?_, ?_, ?_, hnew, ?_⟩
      · rw [hv.children_of_ne m hm, hchildren]
      · rw [hv.children_of_ne c (Nat.ne_of_gt (Nat.lt_of_lt_of_le hn hnew)), hnone]
      · rw [hv.content?_of_lt c hlt, hcontent]
      · rw [hv.size_eq]
        exact Nat.lt_succ_of_lt hlt

end HasNewTexts

/-- **What setting a text at one node after another does.** -/
theorem hasNewTexts_of_foldlM (ht : t.WellFormed) (hnodes : ∀ n ∈ nodes, n < t.size)
    (h : nodes.foldlM (·.setText? · text) t = some u) : HasNewTexts nodes text t u := by
  induction nodes using List.reverseRecOn generalizing u with
  | nil =>
    obtain rfl := Option.some.inj h
    exact .nil ht text
  | append_singleton nodes n ih =>
    rw [List.foldlM_append] at h
    obtain ⟨v, hv, hu⟩ := Option.bind_eq_some_iff.mp h
    rw [List.foldlM_cons] at hu
    obtain ⟨w, hw, hlast⟩ := Option.bind_eq_some_iff.mp hu
    obtain rfl := Option.some.inj hlast
    have hbefore := ih (fun m hm => hnodes m (List.mem_append_left _ hm)) hv
    have hn : n < t.size := hnodes n (List.mem_append_right _ List.mem_cons_self)
    have hlt : n < v.size := by
      rw [hbefore.size_eq]
      exact Nat.lt_add_right _ hn
    exact hbefore.concat hn (hasNewText_of_setText? hbefore.wellFormed hlt hw)

/-! ## All selected nodes -/

namespace Selection

variable {s : Selection}

theorem exists_setText? {P : Tree → Prop} (text : String)
    (hP : ∀ v : Tree, P v → ∀ n < v.size, ∃ w, v.setText? n text = some w ∧ P w) (ht : P t)
    (hnodes : ∀ n ∈ s.nodes, n < t.size) : ∃ u, s.setText? t text = some u ∧ P u := by
  have hstep : ∀ v : Tree, P v ∧ t.size ≤ v.size → ∀ n ∈ s.nodes,
      ∃ w, v.setText? n text = some w ∧ P w ∧ t.size ≤ w.size := by
    rintro v ⟨hv, hle⟩ n hn
    obtain ⟨w, hw, hPw⟩ := hP v hv n (Nat.lt_of_lt_of_le (hnodes n hn) hle)
    exact ⟨w, hw, hPw, by rw [size_setText? hw]; exact Nat.le_succ_of_le hle⟩
  obtain ⟨u, hu, hPu, -⟩ := foldlM_exists hstep ⟨ht, Nat.le_refl _⟩
  exact ⟨u, hu, hPu⟩

/-- **The text of all selected nodes is set**, in whatever order they are selected, one below another or more than
once; this succeeds where links lead to nodes. Each of them then has one child, a new text node without children, and
together they have the text as often as there are entries. The children of the other nodes are the same as before, the
links still describe one tree, and as many nodes are allocated as there are entries. -/
theorem setText?_each (ht : t.WellFormed) (hnodes : ∀ n ∈ s.nodes, n < t.size ∧ t.text? n = none) (text : String) :
    (t.Closed → ∃ u, s.setText? t text = some u) ∧ ∀ u, s.setText? t text = some u →
      (∀ n ∈ s.nodes, ∃ c, u.children n = [c] ∧ u.children c = [] ∧ u.content? c = some (.text text) ∧
        t.size ≤ c ∧ c < u.size) ∧
      s.text u = (if s.nodes = [] then none
        else some (String.join (List.replicate s.nodes.length text))) ∧
      (∀ m, m < t.size → m ∉ s.nodes → u.children m = t.children m) ∧
      u.WellFormed ∧ (t.Linked → u.Linked) ∧ u.size = t.size + s.nodes.length := by
  have hlt : ∀ n ∈ s.nodes, n < t.size := fun n hn => (hnodes n hn).1
  refine ⟨fun hclosed => ?_, fun u hu => ?_⟩
  · obtain ⟨u, hu, -⟩ := exists_setText? (P := Tree.Closed) text
      (fun v hv n hn => (hv.exists_setText? hn text).imp fun w hw => ⟨hw, hv.setText? hw⟩) hclosed hlt
    exact ⟨u, hu⟩
  have h : HasNewTexts s.nodes text t u := hasNewTexts_of_foldlM ht hlt hu
  have htexts : s.nodes.map u.textContent = List.replicate s.nodes.length text := by
    rw [← List.length_map u.textContent]
    refine List.eq_replicate_length.mpr fun x hx => ?_
    obtain ⟨n, hn, rfl⟩ := List.mem_map.mp hx
    obtain ⟨c, hchildren, hnone, hc, -⟩ := h.only_child n hn
    have hplain : u.text? n = none :=
      (text?_congr (h.content?_of_lt n (hlt n hn))).trans (hnodes n hn).2
    exact textContent_of_only_child h.wellFormed hplain hchildren hnone (text?_of_content? hc)
  refine ⟨h.only_child, ?_, h.children_of_not_mem, h.wellFormed, fun hlinked => ?_, h.size_eq⟩
  · unfold Selection.text
    rw [htexts]
  · obtain ⟨w, hw, hlinked⟩ := exists_setText? text (fun v hv n hn => hv.setText? hn text) hlinked hlt
    obtain rfl : w = u := Option.some.inj (hw.symm.trans hu)
    exact hlinked

/-- A paragraph is selected, then the division around it, then the paragraph again, which by then is outside. -/
theorem setText?_nested : ∃ t u,
    (load "[[\"div\", \x7b\x7d, [[\"p\", \x7b\x7d, [[\"b\"]]], [\"p\"]]]]" .none).1 = .ok t ∧
    (ofNodes [2, 1, 2]).setText? t "x" = some u ∧ u.descendants 0 = [1, 6] ∧ u.children 2 = [7] ∧
    (∃ c, u.children 1 = [c] ∧ u.children c = [] ∧ u.content? c = some (.text "x") ∧ 5 ≤ c ∧ c < u.size) ∧
    (ofNodes [2, 1, 2]).text u = some "xxx" ∧ u.children 0 = [1] ∧ u.size = 8 ∧ u.Linked := by
  let t : Tree := ⟨#[⟨.document, none, [1], none, none⟩,
    ⟨.element (.ofTag "div"), some 0, [2, 4], none, none⟩,
    ⟨.element (.ofTag "p"), some 1, [3], none, some 4⟩, ⟨.element (.ofTag "b"), some 2, [], none, none⟩,
    ⟨.element (.ofTag "p"), some 1, [], some 2, none⟩]⟩
  have hload : (load "[[\"div\", \x7b\x7d, [[\"p\", \x7b\x7d, [[\"b\"]]], [\"p\"]]]]" .none).1 = .ok t := by
    decide +kernel
  have hlinked := linked_load hload
  have hlists : ((ofNodes [2, 1, 2]).setText? t "x").map (fun u => (u.descendants 0, u.children 2)) =
      some ([1, 6], [7]) := by decide +kernel
  obtain ⟨u, hu, heq⟩ := Option.map_eq_some_iff.mp hlists
  obtain ⟨hdescendants, hchildren⟩ := Prod.mk.inj heq
  obtain ⟨honly, htext, hother, -, hstays, hsize⟩ :=
    (setText?_each (s := ofNodes [2, 1, 2]) hlinked.toWellFormed (by decide) "x").2 u hu
  exact ⟨t, u, hload, hu, hdescendants, hchildren, honly 1 (by decide), htext, hother 0 (by decide) (by decide), hsize,
    hstays hlinked⟩

end Selection

end Selectors
