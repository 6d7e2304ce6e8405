import Selectors.Proofs.Tree.Links

/-!
# Links that lead to nodes

The operations follow links without looking where they lead. That is safe as long as every link leads to a node of
the tree, and every operation keeps it so: also one that lists a node below several parents, twice below one, or
below itself. An operation then fails only for a number that is no node.

* **`Closed`**: every link leads to a node; `Closed.alloc`, **`Closed.attach`**, **`Closed.detach`**: what keeps it;
* `appendChild?_eq_none_iff`, `removeChild?_eq_none_iff`: where the operations fail;
* `EmptiesTo`: the loop that removes the first child as long as there is one; **`empty?_eq_some_iff`**: emptying is
  that loop; `EmptiesTo.keeps`, **`Closed.exists_emptiesTo`**: what it keeps, and that it ends;
* `exists_of_setText?`: the tree after a text is set; `Closed.exists_setText?`: there is one.
-/

namespace Selectors.Tree

variable {t u : Tree} {n m p c : NodeId}

/-- **Every link leads to a node of the tree.** -/
structure Closed (t : Tree) : Prop where
  parent : ∀ {n p}, t.parent? n = some p → p < t.size
  child : ∀ {n c}, c ∈ t.children n → c < t.size
  previous : ∀ {n s}, t.previous? n = some s → s < t.size
  next : ∀ {n s}, t.next? n = some s → s < t.size

/-! ## Changes of links -/

namespace Closed

variable (ht : t.Closed)
include ht

theorem lt_size (h : t.parent? n = some m ∨ m ∈ t.children n ∨ t.previous? n = some m ∨
    t.next? n = some m) : m < t.size := by
  rcases h with h | h | h | h
  · exact ht.parent h
  · exact ht.child h
  · exact ht.previous h
  · exact ht.next h

theorem alloc (content : Content) : (t.alloc content).1.Closed := by
  refine ⟨fun {n m} h => ?_, fun {n m} h => ?_, fun {n m} h => ?_, fun {n m} h => ?_⟩ <;>
    rw [size_alloc] <;> refine Nat.lt_succ_of_lt ?_
  · rw [parent?_alloc] at h
    exact ht.parent h
  · rw [children_alloc] at h
    exact ht.child h
  · rw [previous?_alloc] at h
    exact ht.previous h
  · rw [next?_alloc] at h
    exact ht.next h

/-- **Appending any node to any node** makes no link that leads out of the tree. -/
theorem attach (hp : p < t.size) (hc : c < t.size) : (t.attach p c).Closed := by
  refine ⟨fun {n m} h => ?_, fun {n m} h => ?_, fun {n m} h => ?_, fun {n m} h => ?_⟩ <;> rw [size_attach]
  · rw [parent?_attach hc] at h
    split at h
    · exact Option.some.inj h ▸ hp
    · exact ht.parent h
  · rw [children_attach hp] at h
    split at h
    · rcases List.mem_append.mp h with h | h
      · exact ht.child h
      · exact List.mem_singleton.mp h ▸ hc
    · exact ht.child h
  · rw [previous?_attach hc] at h
    split at h
    · exact ht.child (List.mem_of_getLast? h)
    · exact ht.previous h
  · rw [next?_attach fun s hs => ht.child hs] at h
    split at h
    · exact Option.some.inj h ▸ hc
    · exact ht.next h

/-- **Removing a child** makes no link that leads out of the tree: its siblings get links that it had. -/
theorem detach (p c : NodeId) : (t.detach p c).Closed := by
  refine ⟨fun {n m} h => ?_, fun {n m} h => ?_, fun {n m} h => ?_, fun {n m} h => ?_⟩ <;> rw [size_detach]
  · rw [parent?_detach] at h
    split at h
    · cases h
    · exact ht.parent h
  · rw [children_detach] at h
    split at h
    · exact ht.child (List.mem_of_mem_erase h)
    · exact ht.child h
  · rw [previous?_detach fun s hs => ht.next hs] at h
    split at h
    · exact ht.previous h
    · split at h
      · cases h
      · exact ht.previous h
  · rw [next?_detach fun s hs => ht.previous hs] at h
    split at h
    · exact ht.next h
    · split at h
      · cases h
      · exact ht.next h

end Closed

/-! ## Appending and removing -/

section Operations

theorem lt_of_appendChild? (h : t.appendChild? p c = some u) :
    p < t.size ∧ c < t.size ∧ u = t.attach p c := by
  unfold appendChild? allocated at h
  split at h
  · rename_i hall
    simp only [List.all_cons, Bool.and_eq_true, decide_eq_true_eq] at hall
    exact ⟨hall.1, hall.2.1, (Option.some.inj h).symm⟩
  · cases h

theorem eq_of_removeChild? (h : t.removeChild? p c = some u) :
    u = if c ∈ t.children p then t.detach p c else t := by
  unfold removeChild? at h
  split at h <;> rename_i hc
  · rw [if_pos hc]
    split at h
    · exact (Option.some.inj h).symm
    · cases h
  · rw [if_neg hc]
    split at h
    · exact (Option.some.inj h).symm
    · cases h

theorem children_of_removeChild? (h : t.removeChild? n c = some u) : u.children n = (t.children n).erase c := by
  rw [eq_of_removeChild? h]
  split
  · rw [children_detach, if_pos rfl]
  · rw [List.erase_of_not_mem ‹_›]

variable (ht : t.Closed)
include ht

theorem appendChild?_eq (hp : p < t.size) (hc : c < t.size) :
    t.appendChild? p c = some (t.attach p c) := by
  unfold appendChild? allocated
  rw [if_pos]
  simp only [List.all_cons, hp, hc, decide_true, Bool.true_and, List.all_eq_true, decide_eq_true_eq]
  exact fun s hs => ht.child (List.mem_of_getLast? (Option.mem_toList.mp hs))

theorem appendChild?_eq_none_iff : t.appendChild? p c = none ↔ ¬ (p < t.size ∧ c < t.size) := by
  constructor
  · rintro h ⟨hp, hc⟩
    exact Option.some_ne_none _ ((appendChild?_eq ht hp hc).symm.trans h)
  · refine fun h => Option.eq_none_iff_forall_ne_some.mpr fun u hu => h ?_
    obtain ⟨hp, hc, -⟩ := lt_of_appendChild? hu
    exact ⟨hp, hc⟩

theorem removeChild?_eq (hp : p < t.size) :
    t.removeChild? p c = some (if c ∈ t.children p then t.detach p c else t) := by
  unfold removeChild? allocated
  by_cases hc : c ∈ t.children p
  · rw [if_pos hc, if_pos hc, if_pos]
    simp only [List.cons_append, List.all_cons, List.all_append, Bool.and_eq_true,
      decide_eq_true_eq, List.all_eq_true]
    exact ⟨ht.child hc, fun s hs => ht.previous (Option.mem_toList.mp hs),
      fun s hs => ht.next (Option.mem_toList.mp hs)⟩
  · rw [if_neg hc, if_neg hc, if_pos]
    simp only [List.all_cons, List.all_nil, hp, decide_true, Bool.and_true]

theorem removeChild?_eq_none_iff : t.removeChild? p c = none ↔ ¬ p < t.size := by
  constructor
  · intro h hp
    exact Option.some_ne_none _ ((removeChild?_eq ht hp).symm.trans h)
  · intro hp
    have hc : c ∉ t.children p := fun hc => hp (lt_size_of_mem_children hc)
    unfold removeChild? allocated
    rw [if_neg hc, if_neg]
    simp only [List.all_cons, List.all_nil, hp, decide_false, Bool.and_true, Bool.false_eq_true,
      not_false_eq_true]

end Operations

/-! ## Emptying -/

/-- **The first child is removed as long as there is one**; the last tree is the result. -/
inductive EmptiesTo (n : NodeId) : Tree → Tree → Prop
  | done {t : Tree} (h : t.children n = []) : EmptiesTo n t t
  | next {t mid u : Tree} {c : NodeId} (h : (t.children n).head? = some c)
      (hmid : t.removeChild? n c = some mid) (rest : EmptiesTo n mid u) : EmptiesTo n t u

theorem empty?_of_nil (h : t.children n = []) : t.empty? n = some t := by
  unfold empty?
  rw [h]
  rfl

theorem empty?_of_head? (h : (t.children n).head? = some c) :
    t.empty? n = (t.removeChild? n c).bind (·.empty? n) := by
  obtain ⟨l, hl⟩ := List.head?_eq_some_iff.mp h
  unfold empty?
  rw [hl, List.foldlM_cons]
  refine Option.bind_congr fun mid hmid => ?_
  rw [children_of_removeChild? hmid, hl, List.erase_cons_head]

/-- **Emptying is that loop.** -/
theorem empty?_eq_some_iff : t.empty? n = some u ↔ EmptiesTo n t u := by
  constructor
  · intro h
    induction hl : t.children n generalizing t with
    | nil =>
      rw [empty?_of_nil hl] at h
      exact Option.some.inj h ▸ .done hl
    | cons c l ih =>
      have hc : (t.children n).head? = some c := by rw [hl, List.head?_cons]
      rw [empty?_of_head? hc, Option.bind_eq_some_iff] at h
      obtain ⟨mid, hmid, hu⟩ := h
      exact .next hc hmid (ih hu (by rw [children_of_removeChild? hmid, hl, List.erase_cons_head]))
  · intro h
    induction h with
    | done h => exact empty?_of_nil h
    | next h hmid _ ih => rw [empty?_of_head? h, hmid, Option.bind_some, ih]

namespace EmptiesTo

theorem children_eq (h : EmptiesTo n t u) : u.children n = [] := by
  induction h with
  | done h => exact h
  | next _ _ _ ih => exact ih

theorem keeps {P : Tree → Prop} (hP : ∀ {t c}, P t → c ∈ t.children n → P (t.detach n c))
    (h : EmptiesTo n t u) (ht : P t) : P u := by
  induction h with
  | done _ => exact ht
  | next h hmid _ ih =>
    have hc := List.mem_of_mem_head? h
    rw [eq_of_removeChild? hmid, if_pos hc] at ih
    exact ih (hP ht hc)

theorem size_eq (h : EmptiesTo n t u) : u.size = t.size :=
  h.keeps (P := fun v => v.size = t.size) (fun hv _ => (size_detach _ _ _).trans hv) rfl

theorem closed (h : EmptiesTo n t u) (ht : t.Closed) : u.Closed := h.keeps (fun hv _ => hv.detach n _) ht

end EmptiesTo

/-- **Where no link leads out of the tree, the loop ends** for every number. -/
theorem Closed.exists_emptiesTo (ht : t.Closed) (n : NodeId) : ∃ u, EmptiesTo n t u := by
  induction hl : t.children n generalizing t with
  | nil => exact ⟨t, .done hl⟩
  | cons c l ih =>
    have hc : c ∈ t.children n := by rw [hl]; exact List.mem_cons_self
    have hremove := removeChild?_eq (c := c) ht (lt_size_of_mem_children hc)
    rw [if_pos hc] at hremove
    have hdetach : (t.detach n c).children n = l := by
      rw [children_of_removeChild? hremove, hl, List.erase_cons_head]
    obtain ⟨u, hu⟩ := ih (ht.detach n c) hdetach
    exact ⟨u, .next (by rw [hl, List.head?_cons]) hremove hu⟩

/-! ## Setting a text -/

/-- The node is emptied, and a new text node appended to it. Only the last step looks at the number of the node,
when there is one node more. -/
theorem exists_of_setText? {text : String} (h : t.setText? n text = some u) :
    ∃ v, EmptiesTo n t v ∧ n ≤ t.size ∧ u = (v.alloc (.text text)).1.attach n t.size := by
  obtain ⟨v, hv, happend⟩ := Option.bind_eq_some_iff.mp h
  have hempties := empty?_eq_some_iff.mp hv
  have happend : (v.alloc (.text text)).1.appendChild? n v.size = some u := happend
  obtain ⟨hn, -, rfl⟩ := lt_of_appendChild? happend
  rw [size_alloc, hempties.size_eq] at hn
  rw [hempties.size_eq]
  exact ⟨v, hempties, Nat.le_of_lt_succ hn, rfl⟩

theorem size_setText? {text : String} (h : t.setText? n text = some u) : u.size = t.size + 1 := by
  obtain ⟨v, hv, -, rfl⟩ := exists_of_setText? h
  rw [size_attach, size_alloc, hv.size_eq]

/-- **A text can be set at every node.** -/
theorem Closed.exists_setText? (ht : t.Closed) (hn : n < t.size) (text : String) :
    ∃ u, t.setText? n text = some u := by
  obtain ⟨v, hv⟩ := ht.exists_emptiesTo n
  have hp : n < (v.alloc (.text text)).1.size := by
    rw [size_alloc, hv.size_eq]
    exact Nat.lt_succ_of_lt hn
  have hc : v.size < (v.alloc (.text text)).1.size := by
    rw [size_alloc]
    exact Nat.lt_succ_self _
  unfold Tree.setText?
  rw [empty?_eq_some_iff.mpr hv]
  exact ⟨_, appendChild?_eq ((hv.closed ht).alloc _) hp hc⟩

theorem Closed.setText? {text : String} (ht : t.Closed) (h : t.setText? n text = some u) : u.Closed := by
  obtain ⟨v, hv, hn, rfl⟩ := exists_of_setText? h
  refine ((hv.closed ht).alloc (.text text)).attach ?_ ?_ <;> rw [size_alloc, hv.size_eq]
  · exact Nat.lt_succ_of_le hn
  · exact Nat.lt_succ_self _

end Selectors.Tree
