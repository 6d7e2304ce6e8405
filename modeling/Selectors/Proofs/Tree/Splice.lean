import Selectors.Proofs.Document.Loaded
import Selectors.Proofs.Tree.Order

/-!
# Changes below one node

Where two trees differ in the children of one node only, the listing of every node that is not at or above it is the
same in both. In the other listings one stretch is exchanged: what is listed below the node where the trees differ.
A child that is removed takes its own listing out of those of the nodes above it, and is the top of the chains that
led through it.

* **`descendants_eq_of_not_atOrAbove`**, **`exists_descendants_splice`**: the listings of two such trees;
* `UpFrom.graft`: a chain of parents that goes on differently from one of its nodes on;
* `exists_descendants_detach`, `ancestors_detach`, `exists_ancestors_detach`: listings and chains after a removal;
* **`removeChild?_removes`**: all that is seen of the removal of a child.
-/

namespace Selectors.Tree

variable {t u : Tree} {c n p r x : NodeId}

/-! ## One stretch of a listing -/

theorem flatMap_blocks_congr {l : List NodeId} (h : ∀ d ∈ l, u.descendants d = t.descendants d) :
    (l.flatMap fun d => d :: u.descendants d) = l.flatMap fun d => d :: t.descendants d :=
  List.flatMap_congr fun d hd => by rw [h d hd]

section Splice

variable (ht : t.WellFormed) (hu : u.WellFormed) (h : ∀ m, m ≠ n → u.children m = t.children m)
include ht hu h

/-- **Away from the node where the trees differ** nothing changes. -/
theorem descendants_eq_of_not_atOrAbove (hr : ¬ t.AtOrAbove r n) :
    u.descendants r = t.descendants r := by
  induction r using ht.induction_down with
  | step r ih =>
    have hne : r ≠ n := by rintro rfl; exact hr .refl
    rw [hu.descendants_eq, ht.descendants_eq, h r hne]
    exact flatMap_blocks_congr fun c hc => ih c hc fun hcn => hr (.head (ht.isParent_of_mem hc) hcn)

theorem descendants_eq_of_sibling {left right : List NodeId} (hlr : t.children p = left ++ c :: right)
    (hcn : t.AtOrAbove c n) : ∀ d ∈ left ++ right, u.descendants d = t.descendants d := by
  intro d hd
  have hc : t.IsParent p c := ht.isParent_of_mem (by rw [hlr]; simp)
  have hne : c ≠ d := by
    rintro rfl
    exact ht.not_mem_of_children_eq hlr hd
  refine descendants_eq_of_not_atOrAbove ht hu h fun hdn => ?_
  exact ht.disjoint_siblings hc (ht.isParent_of_children_eq hlr d hd) hne hcn hdn

/-- **At and above that node one stretch of the listing is exchanged.** -/
theorem exists_descendants_splice (hr : t.AtOrAbove r n) : ∃ before after,
    t.descendants r = before ++ t.descendants n ++ after ∧
      u.descendants r = before ++ u.descendants n ++ after := by
  induction hr using Relation.ReflTransGen.head_induction_on with
  | refl => exact ⟨[], [], by simp, by simp⟩
  | @head r c hrc hcn ih =>
    obtain ⟨before, after, hbefore, hafter⟩ := ih
    obtain ⟨left, right, hlr⟩ := List.append_of_mem (ht.mem_of_isParent hrc)
    have hne : r ≠ n := by
      rintro rfl
      exact not_above_self (ht.acc r) (Relation.TransGen.head' hrc hcn)
    have hsame := descendants_eq_of_sibling ht hu h hlr hcn
    have hleft := flatMap_blocks_congr fun d hd => hsame d (List.mem_append_left right hd)
    have hright := flatMap_blocks_congr fun d hd => hsame d (List.mem_append_right left hd)
    refine ⟨(left.flatMap fun d => d :: t.descendants d) ++ c :: before,
      after ++ right.flatMap fun d => d :: t.descendants d, ?_, ?_⟩
    · rw [ht.descendants_eq r, hlr, List.flatMap_append, List.flatMap_cons, hbefore]
      simp only [List.append_assoc, List.cons_append]
    · rw [hu.descendants_eq r, h r hne, hlr, List.flatMap_append, List.flatMap_cons, hafter, hleft, hright]
      simp only [List.append_assoc, List.cons_append]

end Splice

/-! ## Chains of parents -/

theorem UpFrom.congr {l : List NodeId} (h : t.UpFrom n l) (hsame : ∀ m ∈ n :: l, u.parent? m = t.parent? m) :
    u.UpFrom n l := by
  induction l generalizing n with
  | nil => exact (hsame n List.mem_cons_self).trans h
  | cons p l ih =>
    exact ⟨(hsame n List.mem_cons_self).trans h.1, ih h.2 fun m hm => hsame m (List.mem_cons_of_mem n hm)⟩

theorem UpFrom.graft {l rest rest' : List NodeId} (h : t.UpFrom n (l ++ c :: rest))
    (hsame : ∀ m ∈ n :: l, u.parent? m = t.parent? m) (hc : u.UpFrom c rest') :
    u.UpFrom n (l ++ c :: rest') := by
  induction l generalizing n with
  | nil => exact ⟨(hsame n List.mem_cons_self).trans h.1, hc⟩
  | cons p l ih =>
    exact ⟨(hsame n List.mem_cons_self).trans h.1, ih h.2 fun m hm => hsame m (List.mem_cons_of_mem n hm)⟩

/-! ## A child removed -/

section Detach

theorem element?_detach (t : Tree) (p c m : NodeId) : (t.detach p c).element? m = t.element? m := by
  unfold element?
  rw [content?_detach]

theorem id?_detach (t : Tree) (p c m : NodeId) : (t.detach p c).id? m = t.id? m := by
  unfold id?
  rw [element?_detach]

theorem hasTag_detach (t : Tree) (p c m : NodeId) (tag : String) :
    (t.detach p c).hasTag m tag = t.hasTag m tag := by
  unfold hasTag tag?
  rw [element?_detach]

theorem hasClass_detach (t : Tree) (p c m : NodeId) (name : String) :
    (t.detach p c).hasClass m name = t.hasClass m name := by
  unfold hasClass
  rw [element?_detach]

variable (ht : t.WellFormed) (hc : c ∈ t.children p)
include ht hc

theorem descendants_detach_of_not_atOrAbove (hr : ¬ t.AtOrAbove r p) :
    (t.detach p c).descendants r = t.descendants r := by
  refine descendants_eq_of_not_atOrAbove ht (ht.detach hc) (fun m hm => ?_) hr
  rw [children_detach, if_neg hm]

/-- **The child and what is listed below it go out of the listings** of the nodes above it. -/
theorem exists_descendants_detach (hr : t.AtOrAbove r p) : ∃ before after,
    t.descendants r = before ++ (c :: t.descendants c) ++ after ∧
      (t.detach p c).descendants r = before ++ after := by
  have hother : ∀ m, m ≠ p → (t.detach p c).children m = t.children m := fun m hm => by
    rw [children_detach, if_neg hm]
  obtain ⟨left, right, hlr⟩ := List.append_of_mem hc
  have hleft : c ∉ left := fun hmem => ht.not_mem_of_children_eq hlr (List.mem_append_left _ hmem)
  have hchildren : (t.detach p c).children p = left ++ right := by
    rw [children_detach, if_pos rfl, hlr, List.erase_append_right _ hleft, List.erase_cons_head]
  have hsame : ∀ d ∈ left ++ right, (t.detach p c).descendants d = t.descendants d := by
    intro d hd
    refine descendants_detach_of_not_atOrAbove ht hc fun hdp => ?_
    exact not_above_self (ht.acc p) (Relation.TransGen.head' (ht.isParent_of_children_eq hlr d hd) hdp)
  obtain ⟨before, after, hbefore, hafter⟩ := exists_descendants_splice ht (ht.detach hc) hother hr
  refine ⟨before ++ left.flatMap fun d => d :: t.descendants d,
    (right.flatMap fun d => d :: t.descendants d) ++ after, ?_, ?_⟩
  · rw [hbefore, ht.descendants_eq p, hlr, List.flatMap_append, List.flatMap_cons]
    simp only [List.append_assoc]
  · rw [hafter, (ht.detach hc).descendants_eq p, hchildren, flatMap_blocks_congr hsame, List.flatMap_append]
    simp only [List.append_assoc]

theorem descendants_detach_sublist (r : NodeId) :
    ((t.detach p c).descendants r).Sublist (t.descendants r) := by
  by_cases hr : t.AtOrAbove r p
  · obtain ⟨before, after, hbefore, hafter⟩ := exists_descendants_detach ht hc hr
    rw [hbefore, hafter]
    exact (List.sublist_append_left before _).append_right after
  · rw [descendants_detach_of_not_atOrAbove ht hc hr]

/-- **The chains that lead through the child end at it.** -/
theorem exists_ancestors_detach (hx : t.Above c x) : ∃ below,
    t.ancestors x = below ++ c :: t.ancestors c ∧ (t.detach p c).ancestors x = below ++ [c] := by
  obtain ⟨below, hbelow⟩ := exists_ancestors_append (ht.acc x) hx
  have hchain := upFrom_ancestors (ht.acc x)
  have hnd := nodup_ancestors (ht.acc x)
  rw [hbelow] at hchain hnd
  refine ⟨below, hbelow, ancestors_eq ((ht.detach hc).acc x) (hchain.graft (fun m hm => ?_) ?_)⟩
  · have hne : m ≠ c := by
      rintro rfl
      rw [← List.cons_append, List.nodup_middle, List.nodup_cons] at hnd
      exact hnd.1 (List.mem_append_left _ hm)
    rw [parent?_detach, if_neg hne]
  · show (t.detach p c).parent? c = none
    rw [parent?_detach, if_pos rfl]

theorem ancestors_detach (hx : ¬ t.AtOrAbove c x) : (t.detach p c).ancestors x = t.ancestors x := by
  refine ancestors_eq ((ht.detach hc).acc x) ((upFrom_ancestors (ht.acc x)).congr fun m hm => ?_)
  have hne : m ≠ c := by
    rintro rfl
    rcases List.mem_cons.mp hm with rfl | hm
    · exact hx .refl
    · exact hx ((mem_ancestors (ht.acc x)).mp hm).to_reflTransGen
  rw [parent?_detach, if_neg hne]

end Detach

/-- **The removal of a child**, which succeeds where links lead to nodes. The child and what is listed below it go out
of the listings of its parent and of what lies above that, as one stretch; all other listings stay, that of the child
included. The child has no ancestors any more, for the nodes below it the chain of ancestors ends at it, and all other
chains stay. Lookups find what they found before, as far as it is still listed. -/
theorem removeChild?_removes (ht : t.WellFormed) (hc : c ∈ t.children p) :
    (t.Closed → ∃ u, t.removeChild? p c = some u) ∧ ∀ u, t.removeChild? p c = some u →
      (∀ r, (r = p ∨ r ∈ t.ancestors p) → ∃ before after,
        t.descendants r = before ++ (c :: t.descendants c) ++ after ∧ u.descendants r = before ++ after) ∧
      (∀ r, ¬ (r = p ∨ r ∈ t.ancestors p) → u.descendants r = t.descendants r) ∧
      u.ancestors c = [] ∧
      (∀ x ∈ t.descendants c, ∃ below,
        t.ancestors x = below ++ c :: t.ancestors c ∧ u.ancestors x = below ++ [c]) ∧
      (∀ x, x ≠ c → x ∉ t.descendants c → u.ancestors x = t.ancestors x) ∧
      (∀ r id, u.elementById? r id = (u.descendants r).find? fun m => t.id? m == some id) ∧
      (∀ r tag, u.elementsByTag r tag = (t.elementsByTag r tag).filter (· ∈ u.descendants r)) ∧
      ∀ r name, u.elementsByClass r name = (t.elementsByClass r name).filter (· ∈ u.descendants r) := by
  refine ⟨fun hclosed => ⟨_, removeChild?_eq hclosed (lt_size_of_mem_children hc)⟩, fun u hu => ?_⟩
  obtain rfl : u = t.detach p c := by rw [eq_of_removeChild? hu, if_pos hc]
  have hkept : ∀ r (test : NodeId → Bool), ((t.detach p c).descendants r).filter test =
      ((t.descendants r).filter test).filter (· ∈ (t.detach p c).descendants r) := by
    intro r test
    rw [List.filter_comm, filter_mem_of_sublist (ht.nodup_descendants r) (descendants_detach_sublist ht hc r)]
  refine ⟨fun r hr => exists_descendants_detach ht hc (ht.atOrAbove_iff.mpr hr),
    fun r hr => descendants_detach_of_not_atOrAbove ht hc fun h => hr (ht.atOrAbove_iff.mp h), ?_,
    fun x hx => exists_ancestors_detach ht hc (ht.mem_descendants.mp hx), fun x hne hx => ?_,
    fun r id => ?_, fun r tag => ?_, fun r name => ?_⟩
  · refine ancestors_of_top ?_
    rw [parent?_detach, if_pos rfl]
  · refine ancestors_detach ht hc fun hcx => ?_
    exact hcx.eq_or_above.elim (fun h => hne h.symm) fun h => hx (ht.mem_descendants.mpr h)
  · unfold elementById?
    simp only [id?_detach]
  · unfold elementsByTag
    simp only [hasTag_detach]
    exact hkept r _
  · unfold elementsByClass
    simp only [hasClass_detach]
    exact hkept r _

/-- The first of two lists is removed, with an item in it, and is seen from itself as before. -/
theorem removeChild?_first_list : ∃ t u,
    (load "[[\"div\", \x7b\x7d, [[\"ul\", \x7b\x7d, [[\"li\"]]], [\"ol\", \x7b\x7d, [[\"li\"]]]]]]" .none).1 =
      .ok t ∧
    t.removeChild? 1 2 = some u ∧
    (∃ before after, [1, 2, 3, 4, 5] = before ++ [2, 3] ++ after ∧ u.descendants 0 = before ++ after) ∧
    u.descendants 2 = [3] ∧ u.ancestors 2 = [] ∧ u.ancestors 5 = [4, 1, 0] ∧
    u.elementsByTag 0 "li" = [3, 5].filter (· ∈ u.descendants 0) := by
  let li : Content := .element (.ofTag "li")
  let t : Tree := ⟨#[⟨.document, none, [1], none, none⟩,
    ⟨.element (.ofTag "div"), some 0, [2, 4], none, none⟩,
    ⟨.element (.ofTag "ul"), some 1, [3], none, some 4⟩, ⟨li, some 2, [], none, none⟩,
    ⟨.element (.ofTag "ol"), some 1, [5], some 2, none⟩, ⟨li, some 4, [], none, none⟩]⟩
  have hload : (load
      "[[\"div\", \x7b\x7d, [[\"ul\", \x7b\x7d, [[\"li\"]]], [\"ol\", \x7b\x7d, [[\"li\"]]]]]]" .none).1 =
      .ok t := by
    decide +kernel
  have hlinked := linked_load hload
  obtain ⟨hexists, hseen⟩ := removeChild?_removes hlinked.toWellFormed (t := t) (p := 1) (c := 2) (by decide)
  obtain ⟨u, hu⟩ := hexists hlinked.closed
  obtain ⟨habove, hother, htop, -, hchains, -, htag, -⟩ := hseen u hu
  exact ⟨t, u, hload, hu, habove 0 (by decide), hother 2 (by decide), htop,
    hchains 5 (by decide) (by decide), htag 0 "li"⟩

end Selectors.Tree
