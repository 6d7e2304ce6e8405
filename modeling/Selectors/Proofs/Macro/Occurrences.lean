import Mathlib.Data.List.Pairwise
import Mathlib.Data.List.Sort
import Selectors.Proofs.Macro.Offsets

/-!
# The leftmost references

A complete reference may start inside of another one, as in `#{a#{b}`. Of those that overlap the leftmost one
counts, and the search goes on behind it. The names that a text refers to are those of the references that are
left; the text alone determines their places.

* `Occurrence`: a name and a place; `Occurrence.Stands`: the reference to the name stands there;
* `Leftmost`: the leftmost references of a text that do not overlap; **`Leftmost.unique`**,
  `exists_leftmost`: there is one list of them;
* **`references_leftmost`**: the search, the first reference, and the names of all.
-/

namespace Selectors.Macro

open Reference

/-! ## Places -/

/-- A name, and the place at which a reference to it starts. -/
structure Occurrence where
  start : Nat
  name : List Char
  deriving DecidableEq

namespace Occurrence

variable {cs : List Char} {o o' : Occurrence}

/-- The place right behind the reference. -/
def stop (o : Occurrence) : Nat := o.start + (o.name.length + 3)

/-- The same reference, further to the right. -/
def shift (k : Nat) (o : Occurrence) : Occurrence := { o with start := k + o.start }

/-- The complete reference stands at its place in the text. -/
def Stands (cs : List Char) (o : Occurrence) : Prop :=
  ∃ after, cs.drop o.start = '#' :: '{' :: o.name ++ '}' :: after ∧ o.name ≠ [] ∧ '}' ∉ o.name

/-- The other reference starts behind the end of this one. -/
def Before (o o' : Occurrence) : Prop := o.stop ≤ o'.start

theorem start_shift (k : Nat) (o : Occurrence) : (o.shift k).start = k + o.start := rfl

theorem stop_shift (k : Nat) (o : Occurrence) : (o.shift k).stop = k + o.stop := Nat.add_assoc ..

theorem before_shift_iff {k : Nat} : (o.shift k).Before (o'.shift k) ↔ o.Before o' := by
  unfold Before
  rw [start_shift, stop_shift, Nat.add_le_add_iff_left]

theorem start_lt_stop (o : Occurrence) : o.start < o.stop := by
  unfold stop
  omega

instance : Std.Irrefl Before where
  irrefl o h := absurd h (Nat.not_le_of_lt o.start_lt_stop)

instance : Std.Antisymm Before where
  antisymm o o' h h' := by
    have ho := o.start_lt_stop
    have ho' := o'.start_lt_stop
    unfold Before at h h'
    omega

theorem Stands.startsReference (h : o.Stands cs) : StartsReference (cs.drop o.start) := ⟨o.name, h⟩

theorem Stands.eq (h : o.Stands cs) (h' : o'.Stands cs) (hstart : o.start = o'.start) : o = o' := by
  obtain ⟨after, heq, -, hbrace⟩ := h
  obtain ⟨after', heq', -, hbrace'⟩ := h'
  rw [hstart, heq'] at heq
  obtain ⟨hname, -⟩ := reference_inj hbrace' hbrace heq
  cases o
  cases o'
  simp_all

theorem stands_shift_iff {k : Nat} : (o.shift k).Stands cs ↔ o.Stands (cs.drop k) := by
  unfold Stands shift
  rw [List.drop_drop]

end Occurrence

/-- The place of a reference that has been found. -/
def Reference.occurrence (r : Reference) : Occurrence := ⟨r.before.length, r.name⟩

namespace Reference.IsFirst

variable {cs : List Char} {r : Reference}

theorem stands (h : IsFirst cs r) : r.occurrence.Stands cs :=
  ⟨r.after, by rw [occurrence, h.eq_append, List.drop_left], h.name_ne_nil, h.brace_not_mem⟩

theorem drop_stop (h : IsFirst cs r) : cs.drop r.occurrence.stop = r.after := by
  have htext : cs = (r.before ++ ('#' :: '{' :: r.name ++ ['}'])) ++ r.after := by simp [h.eq_append]
  have hstop : r.occurrence.stop = (r.before ++ ('#' :: '{' :: r.name ++ ['}'])).length := by
    simp [occurrence, Occurrence.stop]
  rw [htext, hstop, List.drop_left]

theorem start_le (h : IsFirst cs r) {i : Nat} (hi : StartsReference (cs.drop i)) : r.occurrence.start ≤ i :=
  (h.leftmost (cs.take i) (cs.drop i) (List.take_append_drop i cs).symm hi).trans
    (List.length_take_le i cs)

end Reference.IsFirst

/-! ## The leftmost ones -/

/-- **The leftmost references of a text that do not overlap**, in their order: every complete reference of
the text starts inside of one of them, at its place or behind it. -/
structure Leftmost (cs : List Char) (os : List Occurrence) : Prop where
  stands : ∀ o ∈ os, o.Stands cs
  apart : os.Pairwise Occurrence.Before
  covers : ∀ i, StartsReference (cs.drop i) → ∃ o ∈ os, o.start ≤ i ∧ i < o.stop

namespace Leftmost

variable {cs : List Char} {os os' : List Occurrence} {o o' : Occurrence} {r : Reference}

theorem eq_of_overlap (h : Leftmost cs os) (ho : o ∈ os) (ho' : o' ∈ os) (hlt : o.start < o'.stop)
    (hlt' : o'.start < o.stop) : o = o' := by
  have hsymm : Std.Symm fun o o' : Occurrence => o.Before o' ∨ o'.Before o := ⟨fun _ _ => Or.symm⟩
  by_contra hne
  rcases (h.apart.imp Or.inl).forall (R := fun o o' => o.Before o' ∨ o'.Before o) ho ho' hne with hb | hb
  · exact absurd hlt' (Nat.not_lt_of_le hb)
  · exact absurd hlt (Nat.not_lt_of_le hb)

theorem mem_of_mem (h : Leftmost cs os) (h' : Leftmost cs os') {o : Occurrence} (ho : o ∈ os) : o ∈ os' := by
  induction hstart : o.start using Nat.strong_induction_on generalizing o with
  | _ k ih =>
    subst hstart
    obtain ⟨p, hp, hle, hlt⟩ := h'.covers o.start (h.stands o ho).startsReference
    rcases Nat.eq_or_lt_of_le hle with heq | hbefore
    · exact (h'.stands p hp).eq (h.stands o ho) heq ▸ hp
    -- otherwise `p` starts further to the left, inside of some listed `q`, which both lists have
    · obtain ⟨q, hq, hqle, hqlt⟩ := h.covers p.start (h'.stands p hp).startsReference
      have hq' : q ∈ os' := ih q.start (Nat.lt_of_le_of_lt hqle hbefore) hq rfl
      have hqp : q = p := h'.eq_of_overlap hq' hp (Nat.lt_of_le_of_lt hqle p.start_lt_stop) hqlt
      have hpo : p = o := h.eq_of_overlap (hqp ▸ hq) ho (Nat.lt_trans hbefore o.start_lt_stop) hlt
      exact absurd hbefore (hpo ▸ Nat.lt_irrefl _)

/-- **There is only one list of the leftmost references.** -/
theorem unique (h : Leftmost cs os) (h' : Leftmost cs os') : os = os' :=
  h.apart.eq_of_mem_iff h'.apart fun _ => ⟨h.mem_of_mem h', h'.mem_of_mem h⟩

theorem nil (h : ¬ HoldsReference cs) : Leftmost cs [] where
  stands _ ho := absurd ho List.not_mem_nil
  apart := .nil
  covers i hi := absurd ⟨cs.take i, cs.drop i, (List.take_append_drop i cs).symm, hi⟩ h

theorem cons (h : IsFirst cs r) (hos : Leftmost r.after os) :
    Leftmost cs (r.occurrence :: os.map (Occurrence.shift r.occurrence.stop)) := by
  refine ⟨fun o ho => ?_, ?_, fun i hi => ?_⟩
  · rcases List.mem_cons.mp ho with rfl | ho
    · exact h.stands
    · obtain ⟨p, hp, rfl⟩ := List.mem_map.mp ho
      rw [Occurrence.stands_shift_iff, h.drop_stop]
      exact hos.stands p hp
  · refine List.pairwise_cons.mpr ⟨fun o ho => ?_,
      List.pairwise_map.mpr (hos.apart.imp Occurrence.before_shift_iff.mpr)⟩
    obtain ⟨p, -, rfl⟩ := List.mem_map.mp ho
    exact Nat.le_add_right _ _
  · by_cases hstop : i < r.occurrence.stop
    · exact ⟨r.occurrence, List.mem_cons_self, h.start_le hi, hstop⟩
    · obtain ⟨j, rfl⟩ := Nat.exists_eq_add_of_le (Nat.le_of_not_lt hstop)
      rw [← List.drop_drop, h.drop_stop] at hi
      obtain ⟨o, ho, hle, hlt⟩ := hos.covers j hi
      refine ⟨_, List.mem_cons_of_mem _ (List.mem_map_of_mem ho), ?_⟩
      rw [Occurrence.start_shift, Occurrence.stop_shift]
      exact ⟨Nat.add_le_add_left hle _, Nat.add_lt_add_left hlt _⟩

end Leftmost

theorem exists_leftmost (cs : List Char) : ∃ os, Leftmost cs os ∧
    references cs = os.map fun o => String.ofList o.name := by
  induction cs using fragment_induction with
  | plain cs h => exact ⟨[], .nil h, references_eq_nil_iff.mpr h⟩
  | reference cs r hfirst ih =>
    obtain ⟨os, hos, hnames⟩ := ih
    refine ⟨_, .cons hfirst hos, ?_⟩
    rw [references_of_isFirst hfirst, hnames, List.map_cons, List.map_map]
    rfl

/-- **The references of a text.** The search for the first one ends, cuts the text only between characters,
and finds nothing exactly in a text without a complete reference; otherwise it finds the parts of the text
before, in and behind the complete reference that starts first. The names referred to are those of the
leftmost references that do not overlap, in their order. -/
theorem references_leftmost (cs : List Char) :
    (∀ result, Searches cs 0 result ↔ result = first? cs) ∧
    (first? cs = none ↔ ¬ HoldsReference cs) ∧
    (∀ r, first? cs = some r ↔ IsFirst cs r) ∧
    ∃ os, (∀ os', Leftmost cs os' ↔ os' = os) ∧
      references cs = os.map fun o => String.ofList o.name := by
  obtain ⟨os, hos, hnames⟩ := exists_leftmost cs
  refine ⟨fun _ => searches_iff, first?_eq_none_iff, fun _ => first?_eq_some_iff, os, ?_, hnames⟩
  exact fun os' => ⟨fun h => h.unique hos, fun h => h ▸ hos⟩

end Selectors.Macro
