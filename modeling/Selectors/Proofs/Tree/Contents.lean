import Mathlib.Logic.Function.Iterate
import Selectors.Proofs.Tree.Links
import Selectors.Tree.Traversal

/-!
# Changing elements

A change of the data of elements leaves all links alone, and with them everything that is found by walking
along links. Of a list of nodes each element is changed as often as it is listed.

* `Node.mapElement`, `Tree.updateElements`;
* **`node?_updateElements`**: every node after the changes; `element?_updateElements`;
  **`updateElements_twice_iff`**: when they make no difference a second time;
* `SameLinks`, **`sameLinks_updateElements`**, `SameLinks.descendants_eq`;
* `element?_updateElements_of_idem`, **`updateElements_updateElements`**: changes of which one is as good
  as two.
-/

namespace Selectors

variable {f : Element → Element} {x : Node}

/-! ## Nodes -/

/-- A node with its data changed, if it is an element. -/
def Node.mapElement (f : Element → Element) (x : Node) : Node :=
  match x.content with
  | .element data => { x with content := .element (f data) }
  | _ => x

namespace Node

theorem mapElement_of_ne (h : ∀ data, x.content ≠ .element data) : x.mapElement f = x := by
  unfold mapElement
  split
  · exact absurd ‹_› (h _)
  · rfl

@[simp] theorem parent_mapElement (f : Element → Element) (x : Node) :
    (x.mapElement f).parent = x.parent := by
  unfold mapElement
  split <;> rfl

@[simp] theorem children_mapElement (f : Element → Element) (x : Node) :
    (x.mapElement f).children = x.children := by
  unfold mapElement
  split <;> rfl

@[simp] theorem previous_mapElement (f : Element → Element) (x : Node) :
    (x.mapElement f).previous = x.previous := by
  unfold mapElement
  split <;> rfl

@[simp] theorem next_mapElement (f : Element → Element) (x : Node) :
    (x.mapElement f).next = x.next := by
  unfold mapElement
  split <;> rfl

theorem mapElement_id (x : Node) : x.mapElement id = x := by
  cases x with
  | mk content => cases content <;> rfl

theorem mapElement_congr {g : Element → Element} (h : ∀ data, x.content = .element data → f data = g data) :
    x.mapElement f = x.mapElement g := by
  unfold mapElement
  split
  · rename_i data hdata
    rw [h data hdata]
  · rfl

theorem mapElement_mapElement (f g : Element → Element) (x : Node) :
    (x.mapElement f).mapElement g = x.mapElement (g ∘ f) := by
  cases x with
  | mk content => cases content <;> rfl

end Node

namespace Tree

variable {t u : Tree} {n : NodeId} {nodes : List NodeId}

theorem ext_node? (h : ∀ n, t.node? n = u.node? n) : t = u := by
  cases t
  cases u
  exact congrArg Tree.mk (Array.ext_getElem? h)

/-! ## Trees -/

/-- Change the element at each node of a list, as often as the node is listed. -/
def updateElements (t : Tree) (nodes : List NodeId) (f : Element → Element) : Tree :=
  nodes.foldl (·.updateElement · f) t

theorem node?_updateElement (t : Tree) (n m : NodeId) (f : Element → Element) :
    (t.updateElement n f).node? m = (t.node? m).map fun x => if m = n then x.mapElement f else x :=
  node?_update_map t n m (Node.mapElement f)

/-- **Every node after the changes.** -/
theorem node?_updateElements (t : Tree) (nodes : List NodeId) (f : Element → Element) (m : NodeId) :
    (t.updateElements nodes f).node? m = (t.node? m).map (Node.mapElement f^[nodes.count m]) := by
  unfold updateElements
  induction nodes generalizing t with
  | nil =>
    rw [List.foldl_nil, List.count_nil, Function.iterate_zero, funext Node.mapElement_id, Option.map_id']
  | cons n nodes ih =>
    rw [List.foldl_cons, ih, node?_updateElement, Option.map_map]
    congr 1
    funext x
    by_cases h : m = n
    · subst h
      simp [Node.mapElement_mapElement]
    · simp [h, List.count_cons_of_ne (Ne.symm h)]

theorem element?_eq (t : Tree) (n : NodeId) : t.element? n = (t.node? n).bind fun x =>
    match x.content with
    | .element data => some data
    | _ => none := by
  unfold element? content?
  cases t.node? n with
  | none => rfl
  | some x =>
    cases x with
    | mk content => cases content <;> rfl

/-- **Every element after the changes.** -/
theorem element?_updateElements (t : Tree) (nodes : List NodeId) (f : Element → Element) (m : NodeId) :
    (t.updateElements nodes f).element? m = (t.element? m).map f^[nodes.count m] := by
  rw [element?_eq, element?_eq, node?_updateElements]
  cases t.node? m with
  | none => rfl
  | some x =>
    cases x with
    | mk content => cases content <;> rfl

/-- **The changes make no difference a second time** exactly if they make none to each element, which is changed
as often as it is listed. -/
theorem updateElements_twice_iff (t : Tree) (nodes : List NodeId) (f : Element → Element) :
    (t.updateElements nodes f).updateElements nodes f = t.updateElements nodes f ↔
      ∀ n e, t.element? n = some e → f^[nodes.count n] (f^[nodes.count n] e) = f^[nodes.count n] e := by
  constructor
  · intro h n e he
    have hn := congrArg (element? · n) h
    simpa only [element?_updateElements, he, Option.map_some, Option.some.injEq] using hn
  · intro h
    apply ext_node?
    intro m
    rw [node?_updateElements, node?_updateElements]
    cases hnode : t.node? m with
    | none => rfl
    | some x =>
      rw [Option.map_some, Option.map_some, Node.mapElement_mapElement, Option.some.injEq]
      apply Node.mapElement_congr
      intro data hdata
      apply h m data
      rw [element?_eq, hnode, Option.bind_some, hdata]

theorem content?_updateElements (h : t.element? n = none) :
    (t.updateElements nodes f).content? n = t.content? n := by
  rw [element?_eq] at h
  unfold content?
  rw [node?_updateElements]
  cases hnode : t.node? n with
  | none => rfl
  | some x =>
    rw [hnode] at h
    rw [Option.map_some, Node.mapElement_of_ne]
    intro data hdata
    simp [hdata] at h

/-! ## Links -/

/-- **The trees have the same nodes with the same links.** -/
structure SameLinks (t u : Tree) : Prop where
  size_eq : u.size = t.size
  parent?_eq : ∀ n, u.parent? n = t.parent? n
  children_eq : ∀ n, u.children n = t.children n
  previous?_eq : ∀ n, u.previous? n = t.previous? n
  next?_eq : ∀ n, u.next? n = t.next? n

theorem size_updateElements (t : Tree) (nodes : List NodeId) (f : Element → Element) :
    (t.updateElements nodes f).size = t.size := by
  unfold updateElements
  induction nodes generalizing t with
  | nil => rfl
  | cons n nodes ih => rw [List.foldl_cons, ih, updateElement, size_update]

/-- **Changes of elements leave the links alone.** -/
theorem sameLinks_updateElements (t : Tree) (nodes : List NodeId) (f : Element → Element) :
    SameLinks t (t.updateElements nodes f) where
  size_eq := size_updateElements t nodes f
  parent?_eq n := by
    simp only [parent?, node?_updateElements, Option.bind_map, Function.comp_def, Node.parent_mapElement]
  children_eq n := by
    simp only [children, node?_updateElements, Option.map_map, Function.comp_def, Node.children_mapElement]
  previous?_eq n := by
    simp only [previous?, node?_updateElements, Option.bind_map, Function.comp_def, Node.previous_mapElement]
  next?_eq n := by
    simp only [next?, node?_updateElements, Option.bind_map, Function.comp_def, Node.next_mapElement]

theorem SameLinks.descendants_eq (h : SameLinks t u) (n : NodeId) :
    u.descendants n = t.descendants n := by
  have hbelow : ∀ levels n, u.below levels n = t.below levels n := by
    intro levels
    induction levels with
    | zero => exact fun _ => rfl
    | succ levels ih => intro n; simp only [below, h.children_eq, ih]
  rw [descendants, descendants, h.size_eq, hbelow]

/-! ## Changes that are made once -/

section

variable (hf : ∀ e, f (f e) = f e)
include hf

theorem iterate_of_idem {k : Nat} (hk : k ≠ 0) (e : Element) : f^[k] e = f e := by
  obtain ⟨k, rfl⟩ := Nat.exists_eq_succ_of_ne_zero hk
  rw [Function.iterate_succ_apply]
  exact Function.iterate_fixed (hf e) k

theorem element?_updateElements_of_idem (t : Tree) (nodes : List NodeId) (m : NodeId) :
    (t.updateElements nodes f).element? m =
      (t.element? m).map fun e => if m ∈ nodes then f e else e := by
  rw [element?_updateElements]
  congr 1
  funext e
  split
  · rename_i hm
    exact iterate_of_idem hf (Nat.pos_iff_ne_zero.mp (List.count_pos_iff.mpr hm)) e
  · rename_i hm
    rw [List.count_eq_zero.mpr hm, Function.iterate_zero, id]

/-- **A second time they change nothing.** -/
theorem updateElements_updateElements (t : Tree) (nodes : List NodeId) :
    (t.updateElements nodes f).updateElements nodes f = t.updateElements nodes f := by
  rw [updateElements_twice_iff]
  intro m e _
  rcases Nat.eq_zero_or_pos (nodes.count m) with hzero | hpos
  · rw [hzero]
    rfl
  · have hk := Nat.pos_iff_ne_zero.mp hpos
    rw [iterate_of_idem hf hk, iterate_of_idem hf hk, hf]

end

end Tree

end Selectors
