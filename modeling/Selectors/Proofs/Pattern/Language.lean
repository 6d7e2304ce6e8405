import Mathlib.Computability.Language
import Selectors.Proofs.Pattern.Backtrack
import Selectors.Proofs.Pattern.Bounds

/-!
# The texts that a pattern matches in full

The texts of a pattern form a language: fixed texts and characters, put together by sums, products and
stars. A pattern between two anchors occurs in a text if and only if the text belongs to the language
of what stands between them.

* `Pattern.language`: the texts of a pattern without anchors;
* **`Pattern.reads_ways`**: the ways of a pattern read its texts and nothing else;
* `Pattern.whole`, `Pattern.inner`: a pattern between anchors, and what stands there;
* **`Pattern.find?_isSome_iff_mem_language`**: where an anchored pattern is found.
-/

namespace Selectors

open scoped Computability

/-- At most a number of texts of a language, one behind the other. -/
def roundsUpTo (L : Language Char) : Nat → Language Char
  | 0 => 1
  | n + 1 => L * roundsUpTo L n + 1

section Rounds

variable {L : Language Char} {text : List Char}

theorem mem_kstar_of_mem_roundsUpTo {n : Nat} (h : text ∈ roundsUpTo L n) : text ∈ L∗ := by
  induction n generalizing text with
  | zero =>
    obtain rfl : text = [] := h
    exact Language.nil_mem_kstar L
  | succ n ih =>
    rcases h with ⟨front, hfront, back, hback, rfl⟩ | rfl
    · obtain ⟨texts, rfl, htexts⟩ := Language.mem_kstar.mp (ih hback)
      exact Language.mem_kstar.mpr
        ⟨front :: texts, rfl, List.forall_mem_cons.mpr ⟨hfront, htexts⟩⟩
    · exact Language.nil_mem_kstar L

theorem flatten_mem_roundsUpTo {texts : List (List Char)} (h : ∀ t ∈ texts, t ∈ L) {n : Nat}
    (hn : texts.length ≤ n) : texts.flatten ∈ roundsUpTo L n := by
  induction texts generalizing n with
  | nil => cases n <;> [exact Language.nil_mem_one; exact Or.inr Language.nil_mem_one]
  | cons t texts ih =>
    obtain ⟨n, rfl⟩ := Nat.exists_eq_succ_of_ne_zero (Nat.ne_zero_of_lt hn)
    have hrest := ih (fun u hu => h u (List.mem_cons_of_mem t hu)) (Nat.le_of_succ_le_succ hn)
    exact Or.inl (Language.append_mem_mul (h t List.mem_cons_self) hrest)

theorem mem_roundsUpTo_iff {n : Nat} (hn : text.length ≤ n) : text ∈ roundsUpTo L n ↔ text ∈ L∗ := by
  refine ⟨mem_kstar_of_mem_roundsUpTo, fun h => ?_⟩
  obtain ⟨texts, rfl, htexts⟩ := Language.mem_kstar_iff_exists_nonempty.mp h
  refine flatten_mem_roundsUpTo (fun t ht => (htexts t ht).1) (Nat.le_trans ?_ hn)
  clear h hn
  induction texts with
  | nil => exact Nat.zero_le _
  | cons t texts ih =>
    have hpos := List.length_pos_iff.mpr (htexts t List.mem_cons_self).2
    have hrest := ih fun u hu => htexts u (List.mem_cons_of_mem t hu)
    rw [List.flatten_cons, List.length_append, List.length_cons]
    omega

end Rounds

/-! ## Ways that read a language -/

namespace Ways

/-- The ways read the texts of a language, wherever they stand, and nothing else. -/
def Reads (w : Ways) (L : Language Char) : Prop :=
  ∀ position rest k, k ∈ w position rest ↔ ∃ text ∈ L, ∃ after, text ++ after = rest ∧ text.length = k

theorem reads_stay : stay.Reads 1 := by
  intro position rest k
  refine List.mem_singleton.trans ⟨?_, ?_⟩
  · rintro rfl
    exact ⟨[], Language.nil_mem_one, rest, rfl, rfl⟩
  · rintro ⟨text, rfl, after, -, rfl⟩
    rfl

theorem reads_literal (text : List Char) : (literal text).Reads {text} := by
  intro position rest k
  unfold literal
  constructor
  · intro hk
    split at hk
    · rename_i hfront
      obtain ⟨after, rfl⟩ := List.isPrefixOf_iff_prefix.mp hfront
      exact ⟨text, rfl, after, rfl, (List.mem_singleton.mp hk).symm⟩
    · cases hk
  · rintro ⟨text, rfl, after, rfl, rfl⟩
    rw [if_pos (List.isPrefixOf_iff_prefix.mpr (List.prefix_append text after))]
    exact List.mem_singleton_self _

theorem reads_one (set : CharSet) : (one set).Reads {text | ∃ c, set.contains c = true ∧ text = [c]} := by
  intro position rest k
  constructor
  · intro hk
    cases rest with
    | nil => cases hk
    | cons c rest =>
      rw [one_cons] at hk
      split at hk
      · exact ⟨[c], ⟨c, ‹_›, rfl⟩, rest, rfl, (List.mem_singleton.mp hk).symm⟩
      · cases hk
  · rintro ⟨text, ⟨c, hc, rfl⟩, after, rfl, rfl⟩
    rw [List.singleton_append, one_cons, if_pos hc]
    exact List.mem_singleton_self _

namespace Reads

variable {v w : Ways} {L M : Language Char}

theorem andThen (hv : v.Reads L) (hw : w.Reads M) : (v.andThen w).Reads (L * M) := by
  intro position rest k
  constructor
  · intro hk
    obtain ⟨i, hi, hk⟩ := List.mem_flatMap.mp hk
    obtain ⟨j, hj, rfl⟩ := List.mem_map.mp hk
    obtain ⟨front, hfront, rest, rfl, rfl⟩ := (hv _ _ _).mp hi
    rw [List.drop_left] at hj
    obtain ⟨back, hback, after, rfl, rfl⟩ := (hw _ _ _).mp hj
    exact ⟨front ++ back, Language.append_mem_mul hfront hback, after, List.append_assoc ..,
      List.length_append⟩
  · rintro ⟨text, htext, after, rfl, rfl⟩
    obtain ⟨front, hfront, back, hback, rfl⟩ := Language.mem_mul.mp htext
    refine List.mem_flatMap.mpr ⟨front.length, (hv _ _ _).mpr ⟨front, hfront, back ++ after,
      (List.append_assoc ..).symm, rfl⟩, List.mem_map.mpr ⟨back.length, ?_, List.length_append.symm⟩⟩
    rw [List.append_assoc, List.drop_left]
    exact (hw _ _ _).mpr ⟨back, hback, after, rfl, rfl⟩

theorem prefer (greedy : Bool) (hv : v.Reads L) (hw : w.Reads M) :
    (Ways.prefer greedy v w).Reads (L + M) := by
  intro position rest k
  have hor : k ∈ Ways.prefer greedy v w position rest ↔ k ∈ v position rest ∨ k ∈ w position rest := by
    cases greedy
    · exact List.mem_append.trans or_comm
    · exact List.mem_append
  simp only [hor, hv _ _ _, hw _ _ _, Language.mem_add, or_and_right, exists_or]

theorem copies (hw : w.Reads L) (n : Nat) : (w.copies n).Reads (L ^ n) := by
  induction n with
  | zero => exact reads_stay
  | succ n ih => exact pow_succ L n ▸ ih.andThen hw

theorem upTo (hw : w.Reads L) (greedy : Bool) (n : Nat) :
    (w.upTo greedy n).Reads (roundsUpTo L n) := by
  induction n with
  | zero => exact reads_stay
  | succ n ih => exact (hw.andThen ih).prefer greedy reads_stay

theorem star (hw : w.Reads L) (greedy : Bool) : (w.star greedy).Reads L∗ := by
  intro position rest k
  refine (hw.upTo greedy rest.length position rest k).trans (exists_congr fun text => ?_)
  have hle : ∀ {after}, text ++ after = rest → text.length ≤ rest.length := by
    rintro after rfl
    exact List.length_append ▸ Nat.le_add_right _ _
  constructor
  · rintro ⟨htext, after, heq, hk⟩
    exact ⟨(mem_roundsUpTo_iff (hle heq)).mp htext, after, heq, hk⟩
  · rintro ⟨htext, after, heq, hk⟩
    exact ⟨(mem_roundsUpTo_iff (hle heq)).mpr htext, after, heq, hk⟩

end Reads

end Ways

/-! ## The language of a pattern -/

namespace Pattern

/-- The texts that a repetition has for a language of rounds. -/
def roundsLanguage (L : Language Char) (least : Nat) (most : Option Nat) : Language Char :=
  L ^ least *
    match most with
    | some most => roundsUpTo L (most - least)
    | none => L∗

/-- The texts that a pattern without anchors matches in full. -/
def language : Pattern → Language Char
  | empty | textStart | textEnd => 1
  | literal text => {text}
  | one set => {text | ∃ c, set.contains c = true ∧ text = [c]}
  | seq p q => p.language * q.language
  | alt p q => p.language + q.language
  | rep p least most _ => roundsLanguage p.language least most
  | group _ _ p => p.language

/-- The pattern has no anchors. -/
def isFree : Pattern → Bool
  | textStart | textEnd => false
  | empty | literal _ | one _ => true
  | seq p q | alt p q => p.isFree && q.isFree
  | rep p _ _ _ | group _ _ p => p.isFree

/-- **The ways of a pattern without anchors read its texts**, and nothing else. -/
theorem reads_ways (p : Pattern) (h : p.isFree = true) : p.ways.Reads p.language := by
  induction p with
  | empty => exact Ways.reads_stay
  | literal text => exact Ways.reads_literal text
  | one set => exact Ways.reads_one set
  | textStart | textEnd => cases h
  | seq p q ihp ihq =>
    obtain ⟨hp, hq⟩ := (Bool.and_eq_true ..).mp h
    exact (ihp hp).andThen (ihq hq)
  | alt p q ihp ihq =>
    obtain ⟨hp, hq⟩ := (Bool.and_eq_true ..).mp h
    exact (ihp hp).prefer true (ihq hq)
  | rep p least most greedy ih =>
    refine ((ih h).copies least).andThen ?_
    cases most with
    | some most => exact (ih h).upTo greedy (most - least)
    | none => exact (ih h).star greedy
  | group number name p ih => exact ih h

/-! ## Between anchors -/

/-- The pattern between the start and the end of the text. -/
def whole (p : Pattern) : Pattern := ofParts (textStart :: (p.parts ++ [textEnd]))

/-- What stands between the first and the last part. -/
def inner (p : Pattern) : Pattern := ofParts p.parts.tail.dropLast

/-- The pattern has an anchor at both ends and no other. -/
def isAnchored (p : Pattern) : Bool := p = p.inner.whole && p.inner.isFree && p.isSteady

theorem ways_ofParts_cons (p : Pattern) (ps : List Pattern) :
    (ofParts (p :: ps)).ways = p.ways.andThen (ofParts ps).ways := by
  cases ps with
  | nil => exact Ways.andThen_stay.symm
  | cons => rfl

theorem ways_ofParts_append (ps qs : List Pattern) :
    (ofParts (ps ++ qs)).ways = (ofParts ps).ways.andThen (ofParts qs).ways := by
  induction ps with
  | nil => exact Ways.stay_andThen.symm
  | cons p ps ih =>
    rw [List.cons_append, ways_ofParts_cons, ih, ways_ofParts_cons, Ways.andThen_assoc]

theorem ways_ofParts_parts (p : Pattern) : (ofParts p.parts).ways = p.ways := by
  induction p with
  | seq p q ihp ihq =>
    show (ofParts (p.parts ++ q.parts)).ways = _
    rw [ways_ofParts_append, ihp, ihq]
    rfl
  | _ => rfl

theorem ways_whole (p : Pattern) : p.whole.ways = textStart.ways.andThen (p.ways.andThen textEnd.ways) := by
  show (ofParts (textStart :: (p.parts ++ [textEnd]))).ways = _
  rw [ways_ofParts_cons, ways_ofParts_append, ways_ofParts_parts]
  rfl

theorem find?_isSome_iff {p : Pattern} (h : p.isSteady = true) (position : Nat) (rest : List Char) :
    (p.automaton.find? position rest).isSome = true ↔
      ∃ front back, front ++ back = rest ∧ p.ways (position + front.length) back ≠ [] := by
  have hhere : ∀ position rest, (p.automaton.matchAt position rest).isSome = true ↔
      p.ways position rest ≠ [] := by
    intro position rest
    rw [matchAt_eq h, Option.isSome_map, List.isSome_head?]
  induction rest generalizing position with
  | nil =>
    rw [Automaton.find?_nil, hhere]
    refine ⟨fun hways => ⟨[], [], rfl, hways⟩, ?_⟩
    rintro ⟨front, back, heq, hways⟩
    obtain ⟨rfl, rfl⟩ := List.append_eq_nil_iff.mp heq
    exact hways
  | cons c rest ih =>
    rw [Automaton.find?_cons, Option.isSome_or, Bool.or_eq_true, hhere]
    refine (or_congr_right (ih (position + 1))).trans ⟨?_, ?_⟩
    · rintro (hways | ⟨front, back, rfl, hways⟩)
      · exact ⟨[], c :: rest, rfl, hways⟩
      · refine ⟨c :: front, back, rfl, ?_⟩
        rwa [List.length_cons, Nat.add_comm front.length, ← Nat.add_assoc]
    · rintro ⟨front, back, heq, hways⟩
      cases front with
      | nil =>
        obtain rfl : back = c :: rest := heq
        exact Or.inl hways
      | cons d front =>
        obtain ⟨rfl, rfl⟩ := List.cons.inj heq
        rw [List.length_cons, Nat.add_comm front.length, ← Nat.add_assoc] at hways
        exact Or.inr ⟨front, back, rfl, hways⟩

theorem find?_whole_iff {p : Pattern} (hfree : p.isFree = true) (hsteady : p.whole.isSteady = true)
    (w : List Char) : (p.whole.automaton.find? 0 w).isSome = true ↔ w ∈ p.language := by
  have hreads := p.reads_ways hfree
  have hend : ∀ position rest k, k ∈ p.ways.andThen textEnd.ways position rest ↔
      rest ∈ p.language ∧ rest.length = k := by
    intro position rest k
    constructor
    · intro hk
      obtain ⟨i, hi, hk⟩ := List.mem_flatMap.mp hk
      obtain ⟨text, htext, after, rfl, rfl⟩ := (hreads _ _ _).mp hi
      rw [List.drop_left] at hk
      cases after with
      | nil =>
        obtain rfl : k = text.length := List.mem_singleton.mp hk
        rw [List.append_nil]
        exact ⟨htext, rfl⟩
      | cons => cases hk
    · rintro ⟨hrest, rfl⟩
      refine List.mem_flatMap.mpr ⟨rest.length,
        (hreads _ _ _).mpr ⟨rest, hrest, [], List.append_nil rest, rfl⟩, ?_⟩
      rw [List.drop_length]
      exact List.mem_singleton_self _
  rw [find?_isSome_iff hsteady, ways_whole]
  constructor
  · rintro ⟨front, back, rfl, hways⟩
    obtain ⟨k, hk⟩ := List.exists_mem_of_ne_nil _ hways
    obtain ⟨i, hi, hk⟩ := List.mem_flatMap.mp hk
    obtain ⟨j, hj, rfl⟩ := List.mem_map.mp hk
    cases front with
    | cons => cases hi
    | nil =>
      obtain rfl : i = 0 := List.mem_singleton.mp hi
      exact ((hend _ _ _).mp hj).1
  · intro hw
    refine ⟨[], w, rfl, List.ne_nil_of_mem (a := w.length) ?_⟩
    show w.length ∈ ([0].flatMap _)
    rw [List.flatMap_singleton]
    exact List.mem_map.mpr ⟨w.length, (hend _ _ _).mpr ⟨hw, rfl⟩, Nat.zero_add _⟩

/-- **An anchored pattern is found in the texts of what stands between the anchors**, and in no
others. -/
theorem find?_isSome_iff_mem_language {p : Pattern} (h : p.isAnchored = true) (w : List Char) :
    (p.automaton.find? 0 w).isSome = true ↔ w ∈ p.inner.language := by
  unfold isAnchored at h
  simp only [Bool.and_eq_true, decide_eq_true_eq] at h
  obtain ⟨⟨hwhole, hfree⟩, hsteady⟩ := h
  rw [hwhole] at hsteady
  conv_lhs => rw [hwhole]
  exact find?_whole_iff hfree hsteady w

end Pattern

end Selectors
