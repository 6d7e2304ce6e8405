import Mathlib.Data.List.Basic
import Selectors.Pattern.Automaton

/-!
# Ways to match

The ways in which a pattern matches at a position, each as the number of characters that it reads, the
preferred way first. Here repetitions are followed round by round, with no automaton and no states to
visit.

* `Ways`, with `andThen`, `prefer`, `upTo`, `star`: sequence, choice and repetition;
* `Ways.findSome?`: the result of what follows, tried on one way after the other;
* `Ways.head?_andThen`, `Ways.head?_andThen_of_first`: the preferred way of a sequence;
* `Ways.Bounded`; **`Ways.findSome?_star`**: if no round is empty, then another round or none;
* `Pattern.ways`.
-/

namespace Selectors

/-- The numbers of characters that may be read at a position in a text of which `rest` is left. -/
abbrev Ways := (position : Nat) → (rest : List Char) → List Nat

namespace Ways

/-- Read nothing. -/
def stay : Ways := fun _ _ => [0]

/-- Read one character of a set. -/
def one (set : CharSet) : Ways
  | _, [] => []
  | _, c :: _ => if set.contains c then [1] else []

theorem one_cons (set : CharSet) (position : Nat) (c : Char) (rest : List Char) :
    one set position (c :: rest) = if set.contains c then [1] else [] := rfl

/-- Read a fixed text. -/
def literal (text : List Char) : Ways := fun _ rest => if text.isPrefixOf rest then [text.length] else []

/-- One way of each, in sequence. -/
def andThen (v w : Ways) : Ways := fun position rest =>
  (v position rest).flatMap fun k => (w (position + k) (rest.drop k)).map (k + ·)

/-- The first ways are preferred if `greedy`, else the second. -/
def prefer (greedy : Bool) (v w : Ways) : Ways := fun position rest =>
  if greedy then v position rest ++ w position rest else w position rest ++ v position rest

/-- A number of rounds. -/
def copies (w : Ways) : Nat → Ways
  | 0 => stay
  | n + 1 => (copies w n).andThen w

/-- At most a number of rounds. -/
def upTo (w : Ways) (greedy : Bool) : Nat → Ways
  | 0 => stay
  | n + 1 => prefer greedy (w.andThen (upTo w greedy n)) stay

/-- Any number of rounds. As far as no round is empty there are no more of them than characters. -/
def star (w : Ways) (greedy : Bool) : Ways := fun position rest =>
  w.upTo greedy rest.length position rest

/-- As many rounds as the bounds allow. -/
def rounds (w : Ways) (least : Nat) (most : Option Nat) (greedy : Bool) : Ways :=
  (w.copies least).andThen <|
    match most with
    | some most => w.upTo greedy (most - least)
    | none => w.star greedy

/-! ## What follows -/

variable {α : Type} {v w : Ways} {next other : Nat → List Char → Option α} {position : Nat}
  {rest : List Char}

/-- The first result of what follows, over all ways. -/
def findSome? (w : Ways) (next : Nat → List Char → Option α) : Nat → List Char → Option α :=
  fun position rest => (w position rest).findSome? fun k => next (position + k) (rest.drop k)

@[simp] theorem findSome?_stay : stay.findSome? next = next := by
  funext position rest
  exact List.findSome?_singleton

theorem findSome?_flatMap {β γ : Type} (f : γ → Option α) (g : β → List γ) (l : List β) :
    (l.flatMap g).findSome? f = l.findSome? fun x => (g x).findSome? f := by
  induction l with
  | nil => rfl
  | cons x l ih =>
    rw [List.flatMap_cons, List.findSome?_append, ih, List.findSome?_cons]
    cases (g x).findSome? f <;> rfl

theorem findSome?_congr {β : Type} {f g : β → Option α} {l : List β} (h : ∀ x ∈ l, f x = g x) :
    l.findSome? f = l.findSome? g := by
  induction l with
  | nil => rfl
  | cons x l ih =>
    rw [List.findSome?_cons, List.findSome?_cons, h x List.mem_cons_self,
      ih fun y hy => h y (List.mem_cons_of_mem x hy)]

theorem findSome?_andThen : (v.andThen w).findSome? next = v.findSome? (w.findSome? next) := by
  funext position rest
  unfold findSome? andThen
  rw [findSome?_flatMap]
  congr 1
  funext k
  rw [List.findSome?_map]
  congr 1
  funext l
  simp only [Function.comp_apply, List.drop_drop, Nat.add_assoc]

theorem findSome?_prefer (greedy : Bool) : (prefer greedy v w).findSome? next position rest =
    if greedy then (v.findSome? next position rest).or (w.findSome? next position rest)
    else (w.findSome? next position rest).or (v.findSome? next position rest) := by
  unfold findSome? prefer
  cases greedy <;> exact List.findSome?_append

theorem findSome?_one_cons (set : CharSet) (c : Char) : (one set).findSome? next position (c :: rest) =
    if set.contains c then next (position + 1) rest else none := by
  unfold findSome? one
  by_cases hc : set.contains c = true
  · simp only [if_pos hc]
    exact List.findSome?_singleton
  · simp only [if_neg hc, List.findSome?_nil]

theorem findSome?_some (f : Nat → List Char → α) : (w.findSome? fun p r => some (f p r)) position rest =
    (w position rest).head?.map fun k => f (position + k) (rest.drop k) := by
  unfold findSome?
  cases w position rest <;> rfl

@[simp] theorem stay_andThen : stay.andThen w = w := by
  funext position rest
  show [0].flatMap _ = _
  simp

@[simp] theorem andThen_stay : w.andThen stay = w := by
  funext position rest
  show (w position rest).flatMap (fun k => [k]) = _
  exact List.flatMap_singleton' _

theorem andThen_assoc {u : Ways} : (u.andThen v).andThen w = u.andThen (v.andThen w) := by
  funext position rest
  unfold andThen
  rw [List.flatMap_assoc]
  refine List.flatMap_congr fun k _ => ?_
  rw [List.flatMap_map, List.map_flatMap]
  refine List.flatMap_congr fun l _ => ?_
  simp only [List.map_map, Function.comp_def, List.drop_drop, Nat.add_assoc]

theorem literal_cons (c : Char) (text : List Char) :
    literal (c :: text) = (one (.single c)).andThen (literal text) := by
  funext position rest
  cases rest with
  | nil => rfl
  | cons d rest =>
    have hsingle : (CharSet.single c).contains d = (c == d) := by
      rw [Bool.eq_iff_iff, CharSet.contains_single, beq_iff_eq, eq_comm]
    unfold literal andThen
    rw [one_cons, hsingle, List.isPrefixOf_cons_cons]
    by_cases hc : (c == d) = true
    · rw [hc, Bool.true_and, if_pos rfl, List.flatMap_singleton, List.drop_one, List.tail_cons]
      by_cases ht : text.isPrefixOf rest = true
      · simp only [if_pos ht, List.map_singleton, List.length_cons, Nat.add_comm]
      · simp only [if_neg ht, List.map_nil]
    · rw [Bool.not_eq_true] at hc
      rw [hc]
      rfl

/-! ## Preferred ways -/

theorem head?_andThen {f : Nat → Nat}
    (h : ∀ k ∈ v position rest, (w (position + k) (rest.drop k)).head? = some (f k)) :
    (v.andThen w position rest).head? = (v position rest).head?.map fun k => k + f k := by
  unfold andThen
  cases hv : v position rest with
  | nil => rfl
  | cons k ks =>
    have hk := h k (hv ▸ List.mem_cons_self)
    obtain ⟨l, hl⟩ := List.head?_eq_some_iff.mp hk
    rw [List.flatMap_cons, hl]
    rfl

theorem head?_andThen_of_first {n : Nat} (hn : (v position rest).head? = some n)
    (h : ∀ k ∈ v position rest, k ≠ n → w (position + k) (rest.drop k) = []) :
    (v.andThen w position rest).head? = (w (position + n) (rest.drop n)).head?.map (n + ·) := by
  obtain ⟨ks, hks⟩ := List.head?_eq_some_iff.mp hn
  have hothers : ks.flatMap (fun k => (w (position + k) (rest.drop k)).map (k + ·)) = [] ∨
      w (position + n) (rest.drop n) ≠ [] := by
    by_cases hempty : w (position + n) (rest.drop n) = []
    · refine Or.inl (List.flatMap_eq_nil_iff.mpr fun k hk => ?_)
      by_cases hkn : k = n
      · rw [hkn, hempty, List.map_nil]
      · rw [h k (hks ▸ List.mem_cons_of_mem n hk) hkn, List.map_nil]
    · exact Or.inr hempty
  unfold andThen
  rw [hks, List.flatMap_cons]
  rcases hothers with hnone | hsome
  · rw [hnone, List.append_nil, List.head?_map]
  · obtain ⟨k, l, hl⟩ := List.exists_cons_of_ne_nil hsome
    rw [hl]
    rfl

theorem literal_andThen_cons (mark : Char) (w : Ways) (position : Nat) (c : Char)
    (rest : List Char) :
    (literal [mark]).andThen w position (c :: rest) =
      if c = mark then (w (position + 1) rest).map (1 + ·) else [] := by
  unfold andThen literal
  by_cases hc : c = mark
  · subst hc
    simp
  · simp [hc, Ne.symm hc]

theorem upTo_one (set : CharSet) (n position : Nat) (rest : List Char) :
    (one set).upTo true n position rest =
      (List.range (((rest.take n).takeWhile set.contains).length + 1)).reverse := by
  induction n generalizing position rest with
  | zero => rfl
  | succ n ih =>
    show prefer true _ _ position rest = _
    unfold prefer andThen
    rw [if_pos rfl]
    cases rest with
    | nil => rfl
    | cons c rest =>
      rw [one_cons, List.take_succ_cons]
      by_cases hc : set.contains c = true
      · rw [if_pos hc, List.flatMap_singleton, ih, List.takeWhile_cons_of_pos hc, List.drop_one,
          List.tail_cons, List.length_cons]
        generalize ((rest.take n).takeWhile set.contains).length = m
        rw [List.range_succ_eq_map (n := m + 1), List.reverse_cons, ← List.map_reverse]
        congr 1
        exact List.map_congr_left fun k _ => Nat.add_comm 1 k
      · rw [if_neg hc, List.takeWhile_cons_of_neg hc]
        rfl

/-! ## Bounds -/

/-- No more is read than there is, and something is read if the pattern moves on. -/
def Bounded (w : Ways) (moves : Prop) : Prop :=
  ∀ position rest, ∀ k ∈ w position rest, k ≤ rest.length ∧ (moves → 0 < k)

theorem bounded_stay : stay.Bounded False := by
  intro position rest k hk
  rw [List.mem_singleton.mp hk]
  exact ⟨Nat.zero_le _, False.elim⟩

theorem bounded_one (set : CharSet) : (one set).Bounded True := by
  intro position rest k hk
  cases rest with
  | nil => cases hk
  | cons c rest =>
    rw [one_cons] at hk
    split at hk
    · rw [List.mem_singleton.mp hk, List.length_cons]
      exact ⟨Nat.succ_le_succ (Nat.zero_le _), fun _ => Nat.zero_lt_one⟩
    · cases hk

namespace Bounded

variable {moves moves' : Prop}

theorem mono (h : w.Bounded moves) (hm : moves' → moves) : w.Bounded moves' := fun position rest k hk =>
  ⟨(h position rest k hk).1, fun hm' => (h position rest k hk).2 (hm hm')⟩

theorem andThen (hv : v.Bounded moves) (hw : w.Bounded moves') :
    (v.andThen w).Bounded (moves ∨ moves') := by
  intro position rest k hk
  obtain ⟨i, hi, hk⟩ := List.mem_flatMap.mp hk
  obtain ⟨j, hj, rfl⟩ := List.mem_map.mp hk
  obtain ⟨hle, hpos⟩ := hv position rest i hi
  obtain ⟨hle', hpos'⟩ := hw _ _ j hj
  rw [List.length_drop] at hle'
  refine ⟨by omega, fun hm => ?_⟩
  rcases hm with hm | hm
  · exact Nat.add_pos_left (hpos hm) j
  · exact Nat.add_pos_right i (hpos' hm)

theorem prefer (greedy : Bool) (hv : v.Bounded moves) (hw : w.Bounded moves') :
    (prefer greedy v w).Bounded (moves ∧ moves') := by
  intro position rest k hk
  have hor : k ∈ v position rest ∨ k ∈ w position rest := by
    cases greedy
    · exact (List.mem_append.mp hk).symm
    · exact List.mem_append.mp hk
  rcases hor with hk | hk
  · exact ⟨(hv position rest k hk).1, fun hm => (hv position rest k hk).2 hm.1⟩
  · exact ⟨(hw position rest k hk).1, fun hm => (hw position rest k hk).2 hm.2⟩

theorem copies (hw : w.Bounded moves) (n : Nat) : (w.copies n).Bounded (0 < n ∧ moves) := by
  induction n with
  | zero => exact bounded_stay.mono fun hm => absurd hm.1 (Nat.lt_irrefl 0)
  | succ n ih => exact (ih.andThen hw).mono fun hm => Or.inr hm.2

theorem upTo (hw : w.Bounded moves) (greedy : Bool) (n : Nat) : (w.upTo greedy n).Bounded False := by
  induction n with
  | zero => exact bounded_stay
  | succ n ih => exact ((hw.andThen ih).prefer greedy bounded_stay).mono False.elim

theorem star (hw : w.Bounded moves) (greedy : Bool) : (w.star greedy).Bounded False :=
  fun position rest => hw.upTo greedy rest.length position rest

/-! ## Repetitions without a bound -/

theorem andThen_congr {v' : Ways} (hw : w.Bounded True) (position : Nat) (rest : List Char)
    (h : ∀ position' rest', rest'.length < rest.length → v position' rest' = v' position' rest') :
    w.andThen v position rest = w.andThen v' position rest := by
  refine List.flatMap_congr fun k hk => ?_
  obtain ⟨hle, hpos⟩ := hw position rest k hk
  have hlt : (rest.drop k).length < rest.length := by
    have := hpos trivial
    rw [List.length_drop]
    omega
  rw [h _ _ hlt]

theorem prefer_congr {v' : Ways} (greedy : Bool) (h : v position rest = v' position rest) :
    Ways.prefer greedy v w position rest = Ways.prefer greedy v' w position rest := by
  unfold Ways.prefer
  rw [h]

theorem upTo_eq_star (hw : w.Bounded True) (greedy : Bool) {n : Nat} (hn : rest.length ≤ n) :
    w.upTo greedy n position rest = w.star greedy position rest := by
  have hstable : ∀ n position (rest : List Char), rest.length ≤ n →
      w.upTo greedy (n + 1) position rest = w.upTo greedy n position rest := by
    intro n
    induction n with
    | zero =>
      intro position rest hn
      have hnone : w.andThen (w.upTo greedy 0) position rest = [] := by
        refine List.flatMap_eq_nil_iff.mpr fun k hk => ?_
        obtain ⟨hle, hpos⟩ := hw position rest k hk
        exact absurd (hpos trivial) (Nat.not_lt_of_le (Nat.le_trans hle hn))
      show Ways.prefer greedy _ _ position rest = _
      unfold Ways.prefer
      rw [hnone]
      cases greedy <;> rfl
    | succ n ih =>
      intro position rest hn
      refine prefer_congr greedy (hw.andThen_congr position rest fun position' rest' hlt => ?_)
      exact ih position' rest' (Nat.le_of_lt_succ (Nat.lt_of_lt_of_le hlt hn))
  induction hn with
  | refl => rfl
  | step hn ih => rw [hstable _ position rest hn, ih]

theorem star_eq (hw : w.Bounded True) (greedy : Bool) :
    w.star greedy = Ways.prefer greedy (w.andThen (w.star greedy)) stay := by
  funext position rest
  rw [← hw.upTo_eq_star greedy (Nat.le_succ rest.length)]
  refine prefer_congr greedy (hw.andThen_congr position rest fun position' rest' hlt => ?_)
  exact hw.upTo_eq_star greedy (Nat.le_of_lt hlt)

/-- **What tries another round or goes on is a repetition without a bound.** -/
theorem eq_findSome?_star {turn : Nat → List Char → Option α} (hw : w.Bounded True) (greedy : Bool)
    (h : ∀ position rest, turn position rest =
      if greedy then (w.findSome? turn position rest).or (next position rest)
      else (next position rest).or (w.findSome? turn position rest)) :
    turn = (w.star greedy).findSome? next := by
  funext position rest
  induction hl : rest.length using Nat.strongRecOn generalizing position rest with
  | ind l ih =>
  have hround : w.findSome? turn position rest =
      w.findSome? ((w.star greedy).findSome? next) position rest := by
    refine findSome?_congr fun k hk => ?_
    obtain ⟨hle, hpos⟩ := hw position rest k hk
    have hlt : (rest.drop k).length < l := by
      have := hpos trivial
      rw [List.length_drop]
      omega
    exact ih _ hlt _ _ rfl
  rw [h, hw.star_eq greedy, findSome?_prefer, findSome?_stay, findSome?_andThen, hround]

end Bounded

end Ways

/-! ## The ways of a pattern -/

namespace Pattern

/-- The ways in which a pattern matches. -/
def ways : Pattern → Ways
  | empty => .stay
  | literal text => .literal text
  | one set => .one set
  | textStart => fun position _ => if position = 0 then [0] else []
  | textEnd => fun _ rest => if rest = [] then [0] else []
  | seq p q => p.ways.andThen q.ways
  | alt p q => .prefer true p.ways q.ways
  | rep p least most greedy => p.ways.rounds least most greedy
  | group _ _ p => p.ways

theorem ways_optional (p : Pattern) : (rep p 0 (some 1) true).ways = .prefer true p.ways .stay := by
  show Ways.stay.andThen (.prefer true (p.ways.andThen .stay) .stay) = _
  rw [Ways.stay_andThen, Ways.andThen_stay]

/-- No group has a name, and every round of a repetition without a bound moves on. -/
def isSteady : Pattern → Bool
  | empty | literal _ | one _ | textStart | textEnd => true
  | seq p q | alt p q => p.isSteady && q.isSteady
  | rep p _ most _ => p.isSteady && (most.isSome || p.movesOn)
  | group _ name p => name.isNone && p.isSteady

end Pattern

end Selectors
