import Selectors.Proofs.Pattern.Language

/-!
# Alternatives multiplied out

A pattern is a choice between sequences of characters and repetitions: a choice inside of a sequence is
multiplied out, and fixed texts fall apart into characters. Patterns whose sequences are the same have
the same texts, however the choices are nested.

* `Pattern.sequences`: the sequences, the preferred one first;
* **`Pattern.mem_language_iff`**: the texts are those of the sequences;
* `Pattern.describes`: one pattern is anchored and has the sequences of another between its anchors;
  **`Pattern.find?_isSome_iff_of_describes`**.
-/

namespace Selectors.Pattern

variable {w : List Char}

/-- A choice between sequences. -/
def ofSequences (choices : List (List Pattern)) : Pattern := ofBranches (choices.map ofParts)

/-- The sequences between which a pattern chooses. -/
def sequences : Pattern → List (List Pattern)
  | empty => [[]]
  | literal text => [text.map fun c => literal [c]]
  | seq p q => p.sequences.flatMap fun ps => q.sequences.map (ps ++ ·)
  | alt p q => p.sequences ++ q.sequences
  | rep p least most greedy => [[rep (ofSequences p.sequences) least most greedy]]
  | group _ _ p => p.sequences
  | p => [[p]]

theorem sequences_ne_nil (p : Pattern) : p.sequences ≠ [] := by
  induction p with
  | seq p q ihp ihq =>
    obtain ⟨ps, hps⟩ := List.exists_mem_of_ne_nil _ ihp
    obtain ⟨qs, hqs⟩ := List.exists_mem_of_ne_nil _ ihq
    exact List.ne_nil_of_mem (List.mem_flatMap.mpr ⟨ps, hps, List.mem_map_of_mem hqs⟩)
  | alt p q ihp _ => exact List.append_ne_nil_of_left_ne_nil ihp _
  | group number name p ih => exact ih
  | _ => exact List.cons_ne_nil _ _

/-! ## The texts of sequences and choices -/

theorem language_ofParts_cons (p : Pattern) (ps : List Pattern) :
    (ofParts (p :: ps)).language = p.language * (ofParts ps).language := by
  cases ps with
  | nil => exact (mul_one p.language).symm
  | cons => rfl

theorem language_ofParts_append (ps qs : List Pattern) :
    (ofParts (ps ++ qs)).language = (ofParts ps).language * (ofParts qs).language := by
  induction ps with
  | nil => exact (one_mul _).symm
  | cons p ps ih => rw [List.cons_append, language_ofParts_cons, ih, language_ofParts_cons, mul_assoc]

theorem language_ofParts_literal (text : List Char) :
    (ofParts (text.map fun c => literal [c])).language = {text} := by
  induction text with
  | nil => rfl
  | cons c text ih =>
    rw [List.map_cons, language_ofParts_cons, ih]
    exact Set.image2_singleton

theorem mem_language_ofBranches {ps : List Pattern} (h : ps ≠ []) :
    w ∈ (ofBranches ps).language ↔ ∃ p ∈ ps, w ∈ p.language := by
  induction ps with
  | nil => exact absurd rfl h
  | cons p ps ih =>
    cases ps with
    | nil => simp only [ofBranches, List.mem_singleton, exists_eq_left]
    | cons q ps =>
      rw [List.exists_mem_cons_iff, ← ih (List.cons_ne_nil q ps)]
      rfl

theorem mem_language_ofSequences {choices : List (List Pattern)} (h : choices ≠ []) :
    w ∈ (ofSequences choices).language ↔ ∃ ps ∈ choices, w ∈ (ofParts ps).language := by
  unfold ofSequences
  rw [mem_language_ofBranches (List.map_eq_nil_iff.not.mpr h)]
  simp only [List.mem_map, exists_exists_and_eq_and]

/-- **The texts of a pattern are those of its sequences.** -/
theorem mem_language_iff (p : Pattern) :
    w ∈ p.language ↔ ∃ ps ∈ p.sequences, w ∈ (ofParts ps).language := by
  induction p generalizing w with
  | literal text =>
    simp only [sequences, List.mem_singleton, exists_eq_left, language_ofParts_literal]
    rfl
  | seq p q ihp ihq =>
    simp only [language, sequences, List.mem_flatMap, List.mem_map, Language.mem_mul, ihp, ihq]
    constructor
    · rintro ⟨front, ⟨ps, hps, hfront⟩, back, ⟨qs, hqs, hback⟩, rfl⟩
      refine ⟨ps ++ qs, ⟨ps, hps, qs, hqs, rfl⟩, ?_⟩
      rw [language_ofParts_append]
      exact Language.append_mem_mul hfront hback
    · rintro ⟨_, ⟨ps, hps, qs, hqs, rfl⟩, hw⟩
      rw [language_ofParts_append] at hw
      obtain ⟨front, hfront, back, hback, rfl⟩ := Language.mem_mul.mp hw
      exact ⟨front, ⟨ps, hps, hfront⟩, back, ⟨qs, hqs, hback⟩, rfl⟩
  | alt p q ihp ihq =>
    rw [language, Language.mem_add, ihp, ihq, sequences]
    simp only [List.mem_append, or_and_right, exists_or]
  | rep p least most greedy ih =>
    have hbody : (ofSequences p.sequences).language = p.language :=
      Set.ext fun u => (mem_language_ofSequences p.sequences_ne_nil).trans ih.symm
    simp only [sequences, List.mem_singleton, exists_eq_left, ofParts, language, hbody]
  | group number name p ih => exact ih
  | empty | one | textStart | textEnd =>
    simp only [sequences, List.mem_singleton, exists_eq_left, ofParts]

theorem language_eq_of_sequences {p q : Pattern} (h : p.sequences = q.sequences) :
    p.language = q.language :=
  Set.ext fun _ => p.mem_language_iff.trans (h ▸ q.mem_language_iff.symm)

/-- The pattern is anchored, and chooses between the sequences of another one. -/
def describes (p r : Pattern) : Bool := p.isAnchored && p.inner.sequences = r.sequences

/-- **An anchored pattern is found in the texts of the pattern that it has the sequences of.** -/
theorem find?_isSome_iff_of_describes {p r : Pattern} (h : p.describes r = true) (w : List Char) :
    (p.automaton.find? 0 w).isSome = true ↔ w ∈ r.language := by
  obtain ⟨hanchored, hsequences⟩ := (Bool.and_eq_true ..).mp h
  rw [find?_isSome_iff_mem_language hanchored, language_eq_of_sequences (of_decide_eq_true hsequences)]

end Selectors.Pattern
