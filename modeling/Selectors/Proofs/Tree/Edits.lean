import Selectors.Proofs.Tree.Linked

/-!
# Runs of changes

The changes that callers make one after another, each of them permitted where it stands: only a node
without a parent is appended, and to no node at or below itself. Along such a run the links stay
consistent, and nothing but a node that was never allocated can stop it.

* `Edit`, `Edit.run?`, `Edit.Permitted`: one change; `edit?`, `Permits`: a run of them;
* `Linked.appendChild?`, `Linked.removeChild?`, `Linked.empty?`, `Linked.setText?`;
* **`Linked.edit`**, **`Linked.edits`**: what a permitted change and a run of them keep;
* `eq_append_of_run?_eq_none`, `exists_append_of_edit?_eq_none`: where they fail.
-/

namespace Selectors.Tree

variable {t u : Tree} {n m p c : NodeId}

/-! ## The single operations -/

section Operations

variable (ht : t.Linked)
include ht

theorem Linked.appendChild? (h : t.appendChild? p c = some u) (hd : t.parent? c = none)
    (hne : c ≠ p) (ha : ¬ t.Above c p) : u.Linked := by
  obtain ⟨hp, hc, rfl⟩ := lt_of_appendChild? h
  exact ht.attach hp hc hd hne ha

theorem Linked.removeChild? (hp : p < t.size) :
    ∃ u, t.removeChild? p c = some u ∧ u.Linked := by
  refine ⟨_, removeChild?_eq ht.closed hp, ?_⟩
  split
  · exact ht.detach ‹_›
  · exact ht

/-- **Emptying a node leaves it without children**, and allocates nothing. -/
theorem Linked.empty? (n : NodeId) :
    ∃ u, t.empty? n = some u ∧ u.Linked ∧ u.size = t.size ∧ u.children n = [] := by
  obtain ⟨u, hu⟩ := ht.closed.exists_emptiesTo n
  have hlinked : u.Linked := hu.keeps (fun hv hc => Linked.detach hv hc) ht
  exact ⟨u, empty?_eq_some_iff.mpr hu, hlinked, hu.size_eq, hu.children_eq⟩

theorem Linked.attach_alloc (content : Content) (hn : n < t.size) :
    ((t.alloc content).1.attach n t.size).Linked := by
  have hp : n < (t.alloc content).1.size := by rw [size_alloc]; exact Nat.lt_succ_of_lt hn
  have hc : t.size < (t.alloc content).1.size := by rw [size_alloc]; exact Nat.lt_succ_self _
  exact (ht.alloc content).attach hp hc (parent?_alloc_size t content) (Nat.ne_of_gt hn)
    (ht.not_above_alloc content)

theorem Linked.setText? (hn : n < t.size) (text : String) :
    ∃ u, t.setText? n text = some u ∧ u.Linked := by
  obtain ⟨u, hu⟩ := ht.closed.exists_setText? hn text
  obtain ⟨v, hv, -, rfl⟩ := exists_of_setText? hu
  have hlinked : v.Linked := hv.keeps (fun hw hc => Linked.detach hw hc) ht
  refine ⟨_, hu, ?_⟩
  rw [← hv.size_eq] at hn ⊢
  exact hlinked.attach_alloc (.text text) hn

end Operations

/-! ## Runs -/

/-- A change of a tree. -/
inductive Edit where
  | alloc (content : Content)
  | append (parent child : NodeId)
  | remove (parent child : NodeId)
  | empty (n : NodeId)
  | setText (n : NodeId) (text : String)

namespace Edit

/-- The tree after a change. -/
def run? (t : Tree) : Edit → Option Tree
  | alloc content => some (t.alloc content).1
  | append parent child => t.appendChild? parent child
  | remove parent child => t.removeChild? parent child
  | empty n => t.empty? n
  | setText n text => t.setText? n text

/-- What callers keep to. -/
def Permitted (t : Tree) : Edit → Prop
  | append parent child =>
    t.parent? child = none ∧ child ≠ parent ∧ child ∉ t.ancestors parent
  | remove parent _ => parent < t.size
  | setText n _ => n < t.size
  | alloc _ | empty _ => True

instance (t : Tree) : DecidablePred (Permitted t)
  | alloc _ => .isTrue trivial
  | append parent child => inferInstanceAs
    (Decidable (t.parent? child = none ∧ child ≠ parent ∧ child ∉ t.ancestors parent))
  | remove parent _ => inferInstanceAs (Decidable (parent < t.size))
  | empty _ => .isTrue trivial
  | setText n _ => inferInstanceAs (Decidable (n < t.size))

end Edit

/-- The tree after several changes. -/
def edit? (t : Tree) (edits : List Edit) : Option Tree := edits.foldlM Edit.run? t

/-- Each change is permitted where it stands. -/
def Permits (t : Tree) : List Edit → Prop
  | [] => True
  | e :: edits => e.Permitted t ∧ ∀ u ∈ e.run? t, u.Permits edits

instance decidablePermits : (t : Tree) → (es : List Edit) → Decidable (t.Permits es)
  | _, [] => .isTrue trivial
  | t, e :: es =>
    have : DecidablePred fun u : Tree => u.Permits es := fun u => decidablePermits u es
    inferInstanceAs (Decidable (e.Permitted t ∧ ∀ u ∈ e.run? t, u.Permits es))

variable {e : Edit} {es : List Edit}

/-- **A permitted change keeps the links consistent.** -/
theorem Linked.edit (ht : t.Linked) (he : e.Permitted t) (h : e.run? t = some u) : u.Linked := by
  cases e with
  | alloc content => exact Option.some.inj h ▸ ht.alloc content
  | append p c =>
    obtain ⟨hd, hne, ha⟩ := he
    exact ht.appendChild? h hd hne fun h => ha ((mem_ancestors (ht.grounded.apply p)).mpr h)
  | remove p c =>
    obtain ⟨v, hv, hlinked⟩ := ht.removeChild? (c := c) he
    exact Option.some.inj (hv.symm.trans h) ▸ hlinked
  | empty n =>
    obtain ⟨v, hv, hlinked, -⟩ := ht.empty? n
    exact Option.some.inj (hv.symm.trans h) ▸ hlinked
  | setText n text =>
    obtain ⟨v, hv, hlinked⟩ := ht.setText? he text
    exact Option.some.inj (hv.symm.trans h) ▸ hlinked

theorem eq_append_of_run?_eq_none (ht : t.Linked) (he : e.Permitted t) (h : e.run? t = none) :
    ∃ p c, e = .append p c ∧ ¬ (p < t.size ∧ c < t.size) := by
  cases e with
  | alloc content => cases h
  | append p c =>
    refine ⟨p, c, rfl, fun ⟨hp, hc⟩ => ?_⟩
    exact Option.some_ne_none _ ((appendChild?_eq ht.closed hp hc).symm.trans h)
  | remove p c =>
    obtain ⟨v, hv, -⟩ := ht.removeChild? (c := c) he
    exact absurd (hv.symm.trans h) (Option.some_ne_none v)
  | empty n =>
    obtain ⟨v, hv, -⟩ := ht.empty? n
    exact absurd (hv.symm.trans h) (Option.some_ne_none v)
  | setText n text =>
    obtain ⟨v, hv, -⟩ := ht.setText? he text
    exact absurd (hv.symm.trans h) (Option.some_ne_none v)

theorem edit?_cons (t : Tree) (e : Edit) (es : List Edit) :
    t.edit? (e :: es) = (e.run? t).bind (·.edit? es) := by
  unfold edit?
  rw [List.foldlM_cons]
  rfl

/-- **A run of permitted changes keeps the links consistent.** -/
theorem Linked.edits (ht : t.Linked) (hes : t.Permits es) (h : t.edit? es = some u) : u.Linked := by
  induction es generalizing t with
  | nil => exact Option.some.inj h ▸ ht
  | cons e es ih =>
    obtain ⟨he, hrest⟩ := hes
    rw [edit?_cons, Option.bind_eq_some_iff] at h
    obtain ⟨v, hv, hu⟩ := h
    exact ih (ht.edit he hv) (hrest v hv) hu

theorem exists_append_of_edit?_eq_none (ht : t.Linked) (hes : t.Permits es)
    (h : t.edit? es = none) : ∃ before p c after u, es = before ++ .append p c :: after ∧
      t.edit? before = some u ∧ ¬ (p < u.size ∧ c < u.size) := by
  induction es generalizing t with
  | nil => cases h
  | cons e es ih =>
    obtain ⟨he, hrest⟩ := hes
    cases hv : e.run? t with
    | none =>
      obtain ⟨p, c, rfl, hr⟩ := eq_append_of_run?_eq_none ht he hv
      exact ⟨[], p, c, es, t, rfl, rfl, hr⟩
    | some v =>
      rw [edit?_cons, hv, Option.bind_some] at h
      obtain ⟨before, p, c, after, u, rfl, hu, hr⟩ := ih (ht.edit he hv) (hrest v hv) h
      refine ⟨e :: before, p, c, after, u, rfl, ?_, hr⟩
      rw [edit?_cons, hv, Option.bind_some, hu]

end Selectors.Tree
