import Selectors.Proofs.Tree.Ancestry

/-!
# Walks down that end

The links of a tree are data. A walk down along the children may come to a node more than once, by way of several
parents, or go around for ever. Where it ends, no node lies below itself; so no path down is longer than there are
nodes, and `descendants` is the whole walk, with every node as often as the walk comes to it.

* `IsChild`: all paths down from a node end if the node is accessible by this relation;
* **`descendants_eq_of_acc`**: the listing of such a node is that of its children, one behind the other;
* `Visits`: the walk that keeps a stack of nodes; **`Visits.eq`**: in every tree it visits what is listed;
* **`visits_iff_of_acc`**: where all paths down end, it ends.
-/

namespace Selectors.Tree

variable {t : Tree} {m n : NodeId} {path stack l : List NodeId}

/-- `c` is listed as a child of `n`. -/
def IsChild (t : Tree) (c n : NodeId) : Prop := c ∈ t.children n

/-! ## The listing -/

theorem lt_size_of_transGen_isChild (h : Relation.TransGen t.IsChild n m) : m < t.size := by
  obtain ⟨_, -, hc⟩ := Relation.TransGen.tail'_iff.mp h
  exact lt_size_of_mem_children hc

theorem nodup_cons_of_below (hn : Acc t.IsChild n) (hpath : path.Nodup)
    (hdown : ∀ m ∈ path, Relation.TransGen t.IsChild n m) : (n :: path).Nodup :=
  List.nodup_cons.mpr ⟨fun hmem => not_transGen_self hn (hdown n hmem), hpath⟩

/-- The levels below a node that lies under as many nodes as are missing from the levels show all that lies below
it: a further node on the way down would be one node too many. -/
theorem below_succ_of_acc (hn : Acc t.IsChild n) (hpath : path.Nodup)
    (hdown : ∀ m ∈ path, Relation.TransGen t.IsChild n m) {levels : Nat}
    (h : t.size ≤ path.length + levels) : t.below (levels + 1) n = t.below levels n := by
  induction levels generalizing n path with
  | zero =>
    have hnone : t.children n = [] := by
      refine List.eq_nil_iff_forall_not_mem.mpr fun c hc => ?_
      have hlt : ∀ m ∈ n :: path, m < t.size := by
        intro m hm
        rcases List.mem_cons.mp hm with rfl | hm
        · exact lt_size_of_mem_children hc
        · exact lt_size_of_transGen_isChild (hdown m hm)
      have hle := length_le_of_nodup (nodup_cons_of_below hn hpath hdown) hlt
      rw [List.length_cons] at hle
      omega
    change (t.children n).flatMap _ = []
    rw [hnone, List.flatMap_nil]
  | succ levels ih =>
    rw [below, below]
    refine List.flatMap_congr fun c hc => ?_
    have hbelow : ∀ m ∈ n :: path, Relation.TransGen t.IsChild c m := by
      intro m hm
      rcases List.mem_cons.mp hm with rfl | hm
      · exact .single hc
      · exact .head hc (hdown m hm)
    have hlevels : t.size ≤ (n :: path).length + levels := by
      rw [List.length_cons]
      omega
    rw [ih (hn.inv hc) (nodup_cons_of_below hn hpath hdown) hbelow hlevels]

/-- **The listing of a node from which all paths down end**: each child, and behind it the listing of that child. -/
theorem descendants_eq_of_acc (hn : Acc t.IsChild n) :
    t.descendants n = (t.children n).flatMap fun c => c :: t.descendants c := by
  unfold descendants
  rw [← below_succ_of_acc hn .nil (fun _ hm => absurd hm List.not_mem_nil) (Nat.le_add_left _ _), below]

/-! ## The walk with a stack -/

/-- The nodes visited from a stack: the children of the node on top take its place. -/
inductive Visits (t : Tree) : List NodeId → List NodeId → Prop
  | done : Visits t [] []
  | next {n : NodeId} {stack l : List NodeId} (h : Visits t (t.children n ++ stack) l) :
    Visits t (n :: stack) (n :: l)

namespace Visits

theorem acc (h : t.Visits stack l) : ∀ n ∈ stack, Acc t.IsChild n := by
  induction h with
  | done => exact fun _ hn => absurd hn List.not_mem_nil
  | next _ ih =>
    intro m hm
    rcases List.mem_cons.mp hm with rfl | hm
    · exact .intro m fun c hc => ih c (List.mem_append_left _ hc)
    · exact ih m (List.mem_append_right _ hm)

/-- **The walk visits each node of its stack, and behind it what is listed below it.** -/
theorem eq (h : t.Visits stack l) : l = stack.flatMap fun c => c :: t.descendants c := by
  induction h with
  | done => rfl
  | @next n stack l h ih =>
    have hn : Acc t.IsChild n := .intro n fun c hc => h.acc c (List.mem_append_left _ hc)
    rw [List.flatMap_append, ← descendants_eq_of_acc hn] at ih
    rw [List.flatMap_cons, ih, List.cons_append]

end Visits

theorem visits_cons (hn : Acc t.IsChild n) (h : t.Visits stack l) :
    t.Visits (n :: stack) (n :: t.descendants n ++ l) := by
  induction hn generalizing stack l with
  | intro n hacc ih =>
    have hall : ∀ cs, (∀ c ∈ cs, c ∈ t.children n) →
        t.Visits (cs ++ stack) ((cs.flatMap fun c => c :: t.descendants c) ++ l) := by
      intro cs
      induction cs with
      | nil => exact fun _ => h
      | cons c cs ihcs =>
        intro hcs
        rw [List.flatMap_cons, List.append_assoc]
        exact ih c (hcs c List.mem_cons_self) (ihcs fun d hd => hcs d (List.mem_cons_of_mem c hd))
    rw [descendants_eq_of_acc (.intro n hacc)]
    exact .next (hall _ fun _ hc => hc)

/-- **Where all paths down end, the walk visits the nodes below a node as `descendants` lists them.** -/
theorem visits_iff_of_acc (hn : Acc t.IsChild n) :
    t.Visits (t.children n) l ↔ l = t.descendants n := by
  constructor
  · intro h
    rw [h.eq, ← descendants_eq_of_acc hn]
  · rintro rfl
    have h := visits_cons hn .done
    rw [List.append_nil] at h
    cases h with
    | next h => rwa [List.append_nil] at h

end Selectors.Tree
