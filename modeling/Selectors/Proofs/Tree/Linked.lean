import Selectors.Proofs.Tree.Closed

/-!
# Trees with consistent links

The four kinds of links of a tree say the same thing four times. `Linked` states how they agree; every
change of links keeps it, provided that only detached nodes are appended, and to no node at or below
themselves.

* **`Linked`**: the agreement; `Consistent`: what follows from it, since no link leads out of the tree;
* `WellFormed.alloc`, `WellFormed.attach`, `WellFormed.detach`: what keeps parents and children in agreement;
* **`Linked.alloc`**, **`Linked.attach`**, **`Linked.detach`**: what keeps all links in agreement.
-/

namespace Selectors.Tree

variable {t : Tree} {n m p c : NodeId}

/-- **The links agree**: parents and children describe one tree, the siblings of a child are its
neighbours in the list of children, and a node without a parent has no siblings. -/
structure Linked (t : Tree) : Prop extends t.WellFormed where
  neighbours : ∀ p l a r, t.children p = l ++ a :: r →
    t.previous? a = l.getLast? ∧ t.next? a = r.head?
  loose : ∀ n, t.parent? n = none → t.previous? n = none ∧ t.next? n = none

/-- The links agree, no node lies above itself, and every link leads to a node of the tree. -/
structure Consistent (t : Tree) : Prop extends t.Linked where
  not_above_self : ∀ n, ¬ t.Above n n
  valid : ∀ n m, (t.parent? n = some m ∨ m ∈ t.children n ∨ t.previous? n = some m ∨
    t.next? n = some m) → m < t.size

/-! ## Where links lead -/

namespace Linked

variable (ht : t.Linked)
include ht

theorem parent?_of_sibling (h : t.previous? n = some m ∨ t.next? n = some m) :
    m ≠ n ∧ ∃ q, t.parent? n = some q ∧ t.parent? m = some q := by
  cases hq : t.parent? n with
  | none =>
    rw [(ht.loose n hq).1, (ht.loose n hq).2] at h
    rcases h with h | h <;> cases h
  | some q =>
    obtain ⟨l, r, hl⟩ := List.append_of_mem (ht.mem_of_isParent hq)
    obtain ⟨hprev, hnext⟩ := ht.neighbours q l n r hl
    have hm : m ∈ l ++ r := by
      rw [hprev, hnext] at h
      exact List.mem_append.mpr (h.imp List.mem_of_getLast? List.mem_of_mem_head?)
    exact ⟨fun e => ht.not_mem_of_children_eq hl (e ▸ hm), q, rfl, ht.isParent_of_children_eq hl m hm⟩

/-- **Every link leads to a node of the tree**, since every node that a link leads to has a link itself. -/
theorem closed : t.Closed where
  parent h := lt_size_of_mem_children (ht.mem_of_isParent h)
  child h := lt_size_of_isParent (ht.isParent_of_mem h)
  previous h := by
    obtain ⟨-, q, -, hq⟩ := ht.parent?_of_sibling (Or.inl h)
    exact lt_size_of_isParent hq
  next h := by
    obtain ⟨-, q, -, hq⟩ := ht.parent?_of_sibling (Or.inr h)
    exact lt_size_of_isParent hq

theorem consistent : t.Consistent :=
  ⟨ht, fun n => Tree.not_above_self (ht.grounded.apply n), fun _ _ => ht.closed.lt_size⟩

end Linked

theorem linked_new : Tree.new.Linked := by
  have hroot : ∀ n x, Tree.new.node? n = some x → x = .detached .document := by
    intro n x hx
    obtain ⟨hn, rfl⟩ := Array.getElem?_eq_some_iff.mp hx
    have h0 : n = 0 := Nat.lt_one_iff.mp hn
    subst h0
    rfl
  have hparent : ∀ n, Tree.new.parent? n = none := by
    intro n
    unfold parent?
    cases h : Tree.new.node? n with
    | none => rfl
    | some x => rw [hroot n x h]; rfl
  have hchildren : ∀ n, Tree.new.children n = [] := by
    intro n
    unfold children
    cases h : Tree.new.node? n with
    | none => rfl
    | some x => rw [hroot n x h]; rfl
  refine ⟨⟨fun p c => ?_, fun p => ?_, ⟨fun n => .intro n fun p hp => ?_⟩⟩, fun p l a r h => ?_,
    fun n _ => ?_⟩
  · rw [hparent, hchildren]; simp
  · rw [hchildren]; exact .nil
  · rw [IsParent, hparent] at hp; cases hp
  · rw [hchildren] at h; simp at h
  · unfold previous? next?
    cases h : Tree.new.node? n with
    | none => exact ⟨rfl, rfl⟩
    | some x => rw [hroot n x h]; exact ⟨rfl, rfl⟩

/-! ## Allocation -/

theorem isParent_alloc (content : Content) :
    (t.alloc content).1.IsParent = t.IsParent := by
  funext p c
  unfold IsParent
  rw [parent?_alloc]

theorem WellFormed.alloc (ht : t.WellFormed) (content : Content) :
    (t.alloc content).1.WellFormed := by
  refine ⟨fun p c => ?_, fun p => ?_, ?_⟩
  · rw [children_alloc, parent?_alloc]; exact ht.mem_children_iff p c
  · rw [children_alloc]; exact ht.nodup_children p
  · rw [isParent_alloc]; exact ht.grounded

theorem WellFormed.not_above_alloc (ht : t.WellFormed) (content : Content) :
    ¬ (t.alloc content).1.Above t.size n := by
  intro h
  rw [Above, isParent_alloc] at h
  exact Nat.lt_irrefl _ (ht.lt_size_of_above h)

theorem parent?_alloc_size (t : Tree) (content : Content) :
    (t.alloc content).1.parent? t.size = none := by
  rw [parent?_alloc]
  exact parent?_eq_none (Nat.le_refl _)

/-- **A new node changes no links.** -/
theorem Linked.alloc (ht : t.Linked) (content : Content) : (t.alloc content).1.Linked := by
  refine ⟨ht.toWellFormed.alloc content, fun p l a r h => ?_, fun n h => ?_⟩
  · rw [children_alloc] at h
    rw [previous?_alloc, next?_alloc]
    exact ht.neighbours p l a r h
  · rw [parent?_alloc] at h
    rw [previous?_alloc, next?_alloc]
    exact ht.loose n h

/-! ## Appending a detached node -/

theorem getLast?_append_cons_ne {l r : List NodeId} {a b : NodeId} (h : a ∉ b :: r) :
    (l ++ a :: b :: r).getLast? ≠ some a := by
  rw [List.getLast?_append_of_ne_nil _ (List.cons_ne_nil _ _), List.getLast?_cons_cons]
  exact fun hl => h (List.mem_of_getLast? hl)

theorem append_cons_of_concat {xs l r : List NodeId} {a : NodeId} (h : xs ++ [c] = l ++ a :: r) :
    l = xs ∧ a = c ∧ r = [] ∨ ∃ r', r = r' ++ [c] ∧ xs = l ++ a :: r' := by
  rcases List.eq_nil_or_concat r with rfl | ⟨r', y, rfl⟩
  · obtain ⟨rfl, hca⟩ := List.append_inj' h rfl
    exact Or.inl ⟨rfl, (List.head_eq_of_cons_eq hca).symm, rfl⟩
  · rw [List.concat_eq_append, ← List.cons_append, ← List.append_assoc] at h
    obtain ⟨hl, hy⟩ := List.append_inj' h rfl
    exact Or.inr ⟨r', by rw [List.head_eq_of_cons_eq hy, List.concat_eq_append], hl⟩

namespace WellFormed

variable (ht : t.WellFormed) (hp : p < t.size) (hc : c < t.size) (hd : t.parent? c = none)
include ht hd

theorem not_mem_children (q : NodeId) : c ∉ t.children q := by
  intro h
  rw [ht.isParent_of_mem h] at hd
  cases hd

omit hd in
include hc in
theorem grounded_attach (hne : c ≠ p) (ha : ¬ t.Above c p) :
    WellFounded (t.attach p c).IsParent := by
  have hstep : ∀ {x y}, (t.attach p c).IsParent x y → y = c ∧ x = p ∨ y ≠ c ∧ t.IsParent x y := by
    intro x y h
    unfold IsParent at h
    rw [parent?_attach hc] at h
    by_cases hy : y = c
    · rw [if_pos hy] at h; exact Or.inl ⟨hy, (Option.some.inj h).symm⟩
    · rw [if_neg hy] at h; exact Or.inr ⟨hy, h⟩
  -- above `p` nothing has changed, so the chain of `c` goes on with one that ends
  have hup : ∀ y, Acc t.IsParent y → y ≠ c → ¬ t.Above c y → Acc (t.attach p c).IsParent y := by
    intro y hy
    induction hy with
    | intro y _ ih =>
      intro hyc hcy
      refine .intro y fun x hx => ?_
      rcases hstep hx with ⟨h, -⟩ | ⟨-, h⟩
      · exact absurd h hyc
      · exact ih x h (fun e => hcy (e ▸ .single h)) fun hcx => hcy (hcx.tail h)
  have hcacc : Acc (t.attach p c).IsParent c := by
    refine .intro c fun x hx => ?_
    rcases hstep hx with ⟨-, rfl⟩ | ⟨h, -⟩
    · exact hup x (ht.grounded.apply x) (Ne.symm hne) ha
    · exact absurd rfl h
  refine ⟨fun n => ?_⟩
  induction ht.grounded.apply n with
  | intro n _ ih =>
    refine .intro n fun x hx => ?_
    rcases hstep hx with ⟨rfl, -⟩ | ⟨-, h⟩
    · exact hcacc.inv hx
    · exact ih x h

include hp hc in
theorem attach (hne : c ≠ p) (ha : ¬ t.Above c p) : (t.attach p c).WellFormed := by
  have hmem := ht.not_mem_children hd
  refine ⟨fun q d => ?_, fun q => ?_, ht.grounded_attach hc hne ha⟩
  · rw [children_attach hp, parent?_attach hc]
    by_cases hq : q = p
    · subst hq
      by_cases hdc : d = c
      · simp [hdc]
      · simp [hdc, ht.mem_children_iff]
    · rw [if_neg hq, ht.mem_children_iff]
      by_cases hdc : d = c
      · simp [hdc, hd, Ne.symm hq]
      · simp [hdc]
  · rw [children_attach hp]
    by_cases hq : q = p
    · rw [if_pos hq]
      exact List.nodup_append.mpr ⟨ht.nodup_children p, List.nodup_singleton c,
        fun x hx y hy e => hmem p (List.mem_singleton.mp hy ▸ e ▸ hx)⟩
    · rw [if_neg hq]; exact ht.nodup_children q

omit hd in
theorem attach_alloc (content : Content) (hn : n < t.size) :
    ((t.alloc content).1.attach n t.size).WellFormed := by
  have hp : n < (t.alloc content).1.size := by rw [size_alloc]; exact Nat.lt_succ_of_lt hn
  have hc : t.size < (t.alloc content).1.size := by rw [size_alloc]; exact Nat.lt_succ_self _
  exact (ht.alloc content).attach hp hc (parent?_alloc_size t content) (Nat.ne_of_gt hn)
    (ht.not_above_alloc content)

end WellFormed

section Attach

variable (ht : t.Linked) (hp : p < t.size) (hc : c < t.size) (hd : t.parent? c = none)
include ht hc hd

omit hd in
theorem siblings_attach_of_not_mem (hm : m ∉ t.children p) (hmc : m ≠ c) :
    (t.attach p c).previous? m = t.previous? m ∧ (t.attach p c).next? m = t.next? m := by
  rw [previous?_attach hc, next?_attach fun s hs => ht.closed.child hs,
    if_neg fun h => hmc h.1, if_neg fun hl => hm (List.mem_of_getLast? hl)]
  exact ⟨rfl, rfl⟩

theorem neighbours_attach {l r : List NodeId} {a : NodeId} (h : t.children p ++ [c] = l ++ a :: r) :
    (t.attach p c).previous? a = l.getLast? ∧ (t.attach p c).next? a = r.head? := by
  have hmem := ht.not_mem_children hd p
  rw [previous?_attach hc, next?_attach fun s hs => ht.closed.child hs]
  rcases append_cons_of_concat h with ⟨rfl, rfl, rfl⟩ | ⟨r', rfl, hl⟩
  · rw [if_neg fun hl => hmem (List.mem_of_getLast? hl)]
    refine ⟨?_, (ht.loose a hd).2⟩
    by_cases hnil : t.children p = []
    · rw [if_neg fun h => h.2 hnil, hnil, (ht.loose a hd).1]; rfl
    · rw [if_pos ⟨rfl, hnil⟩]
  · have hac : a ≠ c := by rintro rfl; exact hmem (by rw [hl]; simp)
    obtain ⟨hprev, hnext⟩ := ht.neighbours p l a r' hl
    rw [if_neg fun h => hac h.1, hnext, hl]
    refine ⟨hprev, ?_⟩
    have hnd : (a :: r').Nodup := (List.nodup_append.mp (hl ▸ ht.nodup_children p)).2.1
    cases r' with
    | nil => simp
    | cons b r' => rw [if_neg (getLast?_append_cons_ne (List.nodup_cons.mp hnd).1)]; rfl

include hp in
/-- **Appending a detached node**, to no node at or below it, **keeps the links consistent.** -/
theorem Linked.attach (hne : c ≠ p) (ha : ¬ t.Above c p) : (t.attach p c).Linked := by
  refine ⟨ht.toWellFormed.attach hp hc hd hne ha, fun q l a r h => ?_, fun n h => ?_⟩
  · rw [children_attach hp] at h
    by_cases hq : q = p
    · rw [if_pos hq] at h
      exact neighbours_attach ht hc hd h
    · rw [if_neg hq] at h
      have haq : a ∈ t.children q := by rw [h]; simp
      have hap : a ∉ t.children p := fun hap =>
        hq (isParent_unique (ht.isParent_of_mem haq) (ht.isParent_of_mem hap))
      have hac : a ≠ c := by rintro rfl; exact ht.not_mem_children hd q haq
      obtain ⟨hprev, hnext⟩ := siblings_attach_of_not_mem ht hc hap hac
      rw [hprev, hnext]
      exact ht.neighbours q l a r h
  · rw [parent?_attach hc] at h
    by_cases hn : n = c
    · rw [if_pos hn] at h; cases h
    · rw [if_neg hn] at h
      obtain ⟨hprev, hnext⟩ := siblings_attach_of_not_mem ht hc (ht.not_mem_children h p) hn
      rw [hprev, hnext]
      exact ht.loose n h

end Attach

/-! ## Removing a child -/

theorem isParent_of_detach (h : (t.detach p c).IsParent n m) : m ≠ c ∧ t.IsParent n m := by
  unfold IsParent at h
  rw [parent?_detach] at h
  by_cases hm : m = c
  · rw [if_pos hm] at h; cases h
  · rw [if_neg hm] at h; exact ⟨hm, h⟩

theorem WellFormed.detach (ht : t.WellFormed) (hc : c ∈ t.children p) : (t.detach p c).WellFormed := by
  have hnd := ht.nodup_children p
  have hcp := ht.isParent_of_mem hc
  refine ⟨fun q d => ?_, fun q => ?_,
    Subrelation.wf (fun h => (isParent_of_detach h).2) ht.grounded⟩
  · rw [children_detach, parent?_detach]
    by_cases hq : q = p
    · subst hq
      rw [if_pos rfl, hnd.mem_erase_iff, ht.mem_children_iff]
      by_cases hd : d = c <;> simp [hd]
    · rw [if_neg hq, ht.mem_children_iff]
      by_cases hd : d = c
      · subst hd
        rw [if_pos rfl]
        exact ⟨fun h => absurd (isParent_unique h hcp) hq, fun h => by cases h⟩
      · rw [if_neg hd]
  · rw [children_detach]
    split
    · exact hnd.erase c
    · exact ht.nodup_children q

section Detach

variable (ht : t.Linked)
include ht

theorem siblings_detach_of_not_isParent (hc : c ∈ t.children p) (hm : ¬ t.IsParent p m) :
    (t.detach p c).previous? m = t.previous? m ∧ (t.detach p c).next? m = t.next? m := by
  have hcp := ht.isParent_of_mem hc
  have hmc : m ≠ c := by rintro rfl; exact hm hcp
  have hsibling : ¬ (t.previous? c = some m ∨ t.next? c = some m) := by
    intro h
    obtain ⟨-, x, hx, hy⟩ := ht.parent?_of_sibling h
    exact hm (by rw [IsParent, hy, ← hx]; exact hcp)
  rw [previous?_detach fun s hs => ht.closed.next hs,
    next?_detach fun s hs => ht.closed.previous hs, if_neg hmc, if_neg hmc,
    if_neg fun h => hsibling (Or.inr h), if_neg fun h => hsibling (Or.inl h)]
  exact ⟨rfl, rfl⟩

theorem siblings_detach_self (c : NodeId) :
    (t.detach p c).previous? c = none ∧ (t.detach p c).next? c = none := by
  have hself : ¬ (t.previous? c = some c ∨ t.next? c = some c) := fun h =>
    (ht.parent?_of_sibling h).1 rfl
  rw [previous?_detach fun s hs => ht.closed.next hs,
    next?_detach fun s hs => ht.closed.previous hs, if_pos rfl, if_pos rfl,
    if_neg fun h => hself (Or.inr h), if_neg fun h => hself (Or.inl h)]
  exact ⟨rfl, rfl⟩

theorem neighbours_detach {left right l r : List NodeId} {a : NodeId}
    (hlr : t.children p = left ++ c :: right) (h : left ++ right = l ++ a :: r) :
    (t.detach p c).previous? a = l.getLast? ∧ (t.detach p c).next? a = r.head? := by
  obtain ⟨hprev, hnext⟩ := ht.neighbours p left c right hlr
  rw [previous?_detach fun s hs => ht.closed.next hs,
    next?_detach fun s hs => ht.closed.previous hs, hprev, hnext]
  have hright : ∀ mid, l = left ++ mid → right = mid ++ a :: r →
      (if right.head? = some a then left.getLast? else if a = c then none else t.previous? a) =
        l.getLast? ∧
      (if left.getLast? = some a then right.head? else if a = c then none else t.next? a) =
        r.head? := by
    rintro mid rfl rfl
    have hfull : t.children p = (left ++ c :: mid) ++ a :: r := by rw [hlr]; simp
    obtain ⟨hp, hn⟩ := ht.neighbours p _ a r hfull
    have hal : a ∉ left ++ c :: mid := fun ha =>
      ht.not_mem_of_children_eq hfull (List.mem_append_left r ha)
    have hac : a ≠ c := by rintro rfl; exact hal (by simp)
    have hlast : left.getLast? ≠ some a := fun h =>
      hal (List.mem_append_left _ (List.mem_of_getLast? h))
    rw [if_neg hac, if_neg hac, if_neg hlast, hp, hn]
    refine ⟨?_, rfl⟩
    cases mid with
    | nil => simp
    | cons b mid =>
      have hb : (b :: mid ++ a :: r).head? ≠ some a := by
        rintro h
        exact hal (Option.some.inj h ▸ by simp)
      rw [if_neg hb, List.getLast?_append_of_ne_nil _ (by simp), List.getLast?_cons_cons,
        List.getLast?_append_of_ne_nil _ (by simp)]
  rcases List.append_eq_append_iff.mp h with ⟨mid, hl, hr⟩ | ⟨mid, hl, hr⟩
  · exact hright mid hl hr
  · cases mid with
    | nil => exact hright [] (by simpa using hl.symm) (by simpa using hr.symm)
    | cons b mid =>
      obtain ⟨rfl, rfl⟩ := List.cons.inj hr
      subst hl
      have hfull : t.children p = l ++ a :: (mid ++ c :: right) := by rw [hlr]; simp
      obtain ⟨hp, hn⟩ := ht.neighbours p l a _ hfull
      have har : a ∉ mid ++ c :: right := fun ha =>
        ht.not_mem_of_children_eq hfull (List.mem_append_right l ha)
      have hac : a ≠ c := by rintro rfl; exact har (by simp)
      have hhead : right.head? ≠ some a := fun h =>
        har (List.mem_append_right _ (List.mem_cons_of_mem c (List.mem_of_mem_head? h)))
      rw [if_neg hac, if_neg hac, if_neg hhead, hp, hn]
      refine ⟨rfl, ?_⟩
      cases mid with
      | nil => simp
      | cons d mid =>
        rw [if_neg (getLast?_append_cons_ne fun h => har (List.mem_append_left _ h))]
        rfl

/-- **Removing a child keeps the links consistent.** -/
theorem Linked.detach (hc : c ∈ t.children p) : (t.detach p c).Linked := by
  refine ⟨ht.toWellFormed.detach hc, fun q l a r h => ?_, fun n h => ?_⟩
  · obtain ⟨left, right, hlr⟩ := List.append_of_mem hc
    rw [children_detach] at h
    by_cases hq : q = p
    · have hleft : c ∉ left := fun h => ht.not_mem_of_children_eq hlr (List.mem_append_left _ h)
      rw [if_pos hq, hlr, List.erase_append_right _ hleft, List.erase_cons_head] at h
      exact neighbours_detach ht hlr h
    · rw [if_neg hq] at h
      have haq : t.IsParent q a := ht.isParent_of_mem (by rw [h]; simp)
      obtain ⟨hprev, hnext⟩ := siblings_detach_of_not_isParent ht hc fun hap =>
        hq (isParent_unique haq hap)
      rw [hprev, hnext]
      exact ht.neighbours q l a r h
  · by_cases hn : n = c
    · rw [hn]
      exact siblings_detach_self ht c
    · rw [parent?_detach, if_neg hn] at h
      obtain ⟨hprev, hnext⟩ := siblings_detach_of_not_isParent ht hc fun hnp => by
        rw [IsParent, h] at hnp
        cases hnp
      rw [hprev, hnext]
      exact ht.loose n h

end Detach

end Selectors.Tree
