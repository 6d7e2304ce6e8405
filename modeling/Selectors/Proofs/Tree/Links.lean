import Selectors.Proofs.Tree.Ancestry
import Selectors.Tree.Mutation

/-!
# Links after a change

What the changes of links do to every node of a tree, and from there to each kind of link.

* **`node?_attach`**, **`node?_detach`**: every node after the change;
* `parent?_attach`, `children_attach`, `previous?_attach`, `next?_attach`, and the same for `detach`;
* `parent?_alloc`, `children_alloc`, `previous?_alloc`, `next?_alloc`: a new node changes no links;
* `content?_alloc`, `content?_attach`, `content?_detach`: what the nodes are.
-/

namespace Selectors.Tree

variable {t : Tree} {n m p c : NodeId}

theorem exists_node? (h : n < t.size) : ∃ x, t.node? n = some x :=
  ⟨t.nodes[n], Array.getElem?_eq_getElem h⟩

theorem node?_eq_none (h : t.size ≤ n) : t.node? n = none := Array.getElem?_eq_none h

theorem parent?_eq_none (h : t.size ≤ n) : t.parent? n = none := by
  unfold parent?
  rw [node?_eq_none h]
  rfl

theorem children_eq_nil (h : t.size ≤ n) : t.children n = [] := by
  unfold children
  rw [node?_eq_none h]
  rfl

theorem node?_update_map (t : Tree) (n m : NodeId) (f : Node → Node) :
    (t.update n f).node? m = (t.node? m).map fun x => if m = n then f x else x := by
  rw [node?_update]
  by_cases h : m = n
  · simp only [h, if_true]
  · simp only [h, Ne.symm h, if_false, Option.map_id']

/-! ## A new node -/

section Alloc

variable (t) (content : Content)

@[simp] theorem size_alloc : (t.alloc content).1.size = t.size + 1 := Array.size_push _

theorem node?_alloc (m : NodeId) : (t.alloc content).1.node? m =
    if m = t.size then some (.detached content) else t.node? m := Array.getElem?_push

theorem apply_node?_alloc {α : Type} (f : Option Node → α)
    (hf : f (some (.detached content)) = f none) (m : NodeId) :
    f ((t.alloc content).1.node? m) = f (t.node? m) := by
  rw [node?_alloc]
  split
  · rename_i hm
    rw [node?_eq_none (Nat.le_of_eq hm.symm), hf]
  · rfl

theorem parent?_alloc (m : NodeId) : (t.alloc content).1.parent? m = t.parent? m :=
  apply_node?_alloc t content (·.bind Node.parent) rfl m

theorem children_alloc (m : NodeId) : (t.alloc content).1.children m = t.children m :=
  apply_node?_alloc t content (fun x => (x.map Node.children).getD []) rfl m

theorem previous?_alloc (m : NodeId) : (t.alloc content).1.previous? m = t.previous? m :=
  apply_node?_alloc t content (·.bind Node.previous) rfl m

theorem next?_alloc (m : NodeId) : (t.alloc content).1.next? m = t.next? m :=
  apply_node?_alloc t content (·.bind Node.next) rfl m

theorem content?_alloc (m : NodeId) : (t.alloc content).1.content? m =
    if m = t.size then some content else t.content? m := by
  unfold content?
  rw [node?_alloc]
  split <;> rfl

end Alloc

/-! ## A new last child -/

/-- **Every node after `attach`.** -/
theorem node?_attach (t : Tree) (p c m : NodeId) : (t.attach p c).node? m = (t.node? m).map fun x =>
    { x with
      parent := if m = c then some p else x.parent
      children := if m = p then x.children ++ [c] else x.children
      previous := if m = c ∧ t.children p ≠ [] then (t.children p).getLast? else x.previous
      next := if (t.children p).getLast? = some m then some c else x.next } := by
  unfold attach linkSiblings
  cases hl : (t.children p).getLast? with
  | none =>
    have hnil := List.getLast?_eq_none_iff.mp hl
    simp only [node?_update_map, Option.map_map]
    refine congrArg (Option.map · (t.node? m)) (funext fun x => ?_)
    ext <;> grind
  | some last =>
    have hne : t.children p ≠ [] := by rintro h; rw [h] at hl; cases hl
    simp only [node?_update_map, Option.map_map]
    refine congrArg (Option.map · (t.node? m)) (funext fun x => ?_)
    ext <;> grind

@[simp] theorem size_attach (t : Tree) (p c : NodeId) : (t.attach p c).size = t.size := by
  unfold attach linkSiblings
  cases (t.children p).getLast? <;> simp only [size_update]

theorem children_attach (hp : p < t.size) : (t.attach p c).children m =
    if m = p then t.children p ++ [c] else t.children m := by
  obtain ⟨x, hx⟩ := exists_node? hp
  unfold children
  rw [node?_attach]
  by_cases h : m = p
  · subst h; simp [hx]
  · cases hm : t.node? m <;> simp [h]

theorem parent?_attach (hc : c < t.size) : (t.attach p c).parent? m =
    if m = c then some p else t.parent? m := by
  obtain ⟨x, hx⟩ := exists_node? hc
  unfold parent?
  rw [node?_attach]
  by_cases h : m = c
  · subst h; simp [hx]
  · cases hm : t.node? m <;> simp [h]

theorem previous?_attach (hc : c < t.size) : (t.attach p c).previous? m =
    if m = c ∧ t.children p ≠ [] then (t.children p).getLast? else t.previous? m := by
  obtain ⟨x, hx⟩ := exists_node? hc
  unfold previous?
  rw [node?_attach]
  by_cases h : m = c
  · subst h; simp [hx]
  · cases hm : t.node? m <;> simp [h]

theorem next?_attach (hl : ∀ s ∈ t.children p, s < t.size) : (t.attach p c).next? m =
    if (t.children p).getLast? = some m then some c else t.next? m := by
  unfold next?
  rw [node?_attach]
  by_cases h : (t.children p).getLast? = some m
  · obtain ⟨x, hx⟩ := exists_node? (hl m (List.mem_of_getLast? h))
    simp [h, hx]
  · cases hm : t.node? m <;> simp [h]

@[simp] theorem content?_attach (t : Tree) (p c m : NodeId) :
    (t.attach p c).content? m = t.content? m := by
  unfold content?
  rw [node?_attach, Option.map_map]
  rfl

/-! ## A child removed -/

/-- **Every node after `detach`.** -/
theorem node?_detach (t : Tree) (p c m : NodeId) : (t.detach p c).node? m = (t.node? m).map fun x =>
    { x with
      parent := if m = c then none else x.parent
      children := if m = p then x.children.erase c else x.children
      previous := if t.next? c = some m then t.previous? c else if m = c then none else x.previous
      next := if t.previous? c = some m then t.next? c else if m = c then none else x.next } := by
  unfold detach
  cases hl : t.previous? c <;> cases hr : t.next? c <;>
    simp only [node?_update_map, Option.map_map] <;>
    refine congrArg (Option.map · (t.node? m)) (funext fun x => ?_) <;>
    ext <;> grind

@[simp] theorem size_detach (t : Tree) (p c : NodeId) : (t.detach p c).size = t.size := by
  unfold detach
  cases t.previous? c <;> cases t.next? c <;> simp only [size_update]

theorem children_detach (t : Tree) (p c m : NodeId) : (t.detach p c).children m =
    if m = p then (t.children p).erase c else t.children m := by
  unfold children
  rw [node?_detach]
  by_cases h : m = p
  · subst h; cases hm : t.node? m <;> simp
  · cases hm : t.node? m <;> simp [h]

theorem parent?_detach (t : Tree) (p c m : NodeId) : (t.detach p c).parent? m =
    if m = c then none else t.parent? m := by
  unfold parent?
  rw [node?_detach]
  by_cases h : m = c <;> cases hm : t.node? m <;> simp [h]

theorem previous?_detach (hr : ∀ s, t.next? c = some s → s < t.size) :
    (t.detach p c).previous? m = if t.next? c = some m then t.previous? c
      else if m = c then none else t.previous? m := by
  have hm : t.previous? m = (t.node? m).bind (·.previous) := rfl
  rw [previous?, node?_detach, hm]
  by_cases h : t.next? c = some m
  · obtain ⟨x, hx⟩ := exists_node? (hr m h)
    simp [h, hx]
  · by_cases hc : m = c
    · subst hc; cases t.node? m <;> simp [h]
    · cases t.node? m <;> simp [h, hc]

theorem next?_detach (hl : ∀ s, t.previous? c = some s → s < t.size) :
    (t.detach p c).next? m = if t.previous? c = some m then t.next? c
      else if m = c then none else t.next? m := by
  have hm : t.next? m = (t.node? m).bind (·.next) := rfl
  rw [next?, node?_detach, hm]
  by_cases h : t.previous? c = some m
  · obtain ⟨x, hx⟩ := exists_node? (hl m h)
    simp [h, hx]
  · by_cases hc : m = c
    · subst hc; cases t.node? m <;> simp [h]
    · cases t.node? m <;> simp [h, hc]

@[simp] theorem content?_detach (t : Tree) (p c m : NodeId) :
    (t.detach p c).content? m = t.content? m := by
  unfold content?
  rw [node?_detach, Option.map_map]
  rfl

end Selectors.Tree
