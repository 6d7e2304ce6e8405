import Selectors.Proofs.Text.Normal
import Selectors.Token

/-!
# Normal forms as fixed points

A text in normal form has no blanks at its ends, no separators but spaces, and no two spaces side by side.
These three properties make a text its own normal form: then all its fields are words, and joined by spaces
they give the text back. So normalizing is a projection, and scanning does not tell a selector from its normal
form.

* `exists_append_first`, `exists_append_other`: where the fields of a text stand; `joinWords_fields`;
* `IsNormal`; `isNormal_normalizeChars`, **`normalizeChars_eq_self_iff`**: the texts in normal form;
* **`normalize_projects`**: normal forms of selectors.
-/

namespace Selectors.Text

variable {cs w : List Char} {c : Char}

/-! ## Fields -/

/-- The text is empty, or begins with a separator. -/
def AtBorder (cs : List Char) : Prop := ∀ c ∈ cs.head?, isSeparator c = true

theorem exists_append_first (cs : List Char) : ∃ behind, cs = (fields cs).1 ++ behind ∧ AtBorder behind := by
  induction cs with
  | nil => exact ⟨[], rfl, fun c hc => by cases hc⟩
  | cons c cs ih =>
    rw [fields]
    by_cases hc : isSeparator c = true
    · simp only [if_pos hc, List.nil_append]
      exact ⟨c :: cs, rfl, fun d hd => by rwa [← Option.some.inj hd]⟩
    · obtain ⟨behind, heq, hborder⟩ := ih
      simp only [if_neg hc, List.cons_append]
      exact ⟨behind, congrArg (c :: ·) heq, hborder⟩

theorem exists_append_other (h : w ∈ (fields cs).2) :
    ∃ before c behind, cs = before ++ c :: (w ++ behind) ∧ isSeparator c = true ∧ AtBorder behind := by
  induction cs with
  | nil => cases h
  | cons c cs ih =>
    rw [fields] at h
    by_cases hc : isSeparator c = true
    · simp only [if_pos hc, List.mem_cons] at h
      rcases h with rfl | h
      · obtain ⟨behind, heq, hborder⟩ := exists_append_first cs
        exact ⟨[], c, behind, congrArg (c :: ·) heq, hc, hborder⟩
      · obtain ⟨before, d, behind, heq, hd⟩ := ih h
        exact ⟨c :: before, d, behind, congrArg (c :: ·) heq, hd⟩
    · simp only [if_neg hc] at h
      obtain ⟨before, d, behind, heq, hd⟩ := ih h
      exact ⟨c :: before, d, behind, congrArg (c :: ·) heq, hd⟩

theorem joinWords_fields (h : ∀ c ∈ cs, isSeparator c = true → c = ' ') :
    joinWords ((fields cs).1 :: (fields cs).2) = cs := by
  induction cs with
  | nil => rfl
  | cons c cs ih =>
    have hrest := ih fun d hd => h d (List.mem_cons_of_mem c hd)
    rw [joinWords_cons] at hrest
    rw [fields]
    by_cases hc : isSeparator c = true
    · obtain rfl := h c List.mem_cons_self hc
      simp only [if_pos hc, joinWords_cons, List.flatMap_cons, List.nil_append, List.cons_append, hrest]
    · simp only [if_neg hc, joinWords_cons, List.cons_append, hrest]

/-! ## Texts in normal form -/

/-- **The text is in normal form**: no blanks at its ends, no tabs, line breaks and form feeds in it, and no
two spaces side by side. -/
structure IsNormal (cs : List Char) : Prop where
  trimmed : Trimmed cs
  not_mem : ∀ c ∈ ['\t', '\r', '\n', '\x0c'], c ∉ cs
  not_infix : ¬ [' ', ' '] <:+: cs

namespace IsNormal

variable (h : IsNormal cs)
include h

theorem eq_space (hc : c ∈ cs) (hsep : isSeparator c = true) : c = ' ' := by
  by_contra hne
  have hmem : c ∈ ['\t', '\r', '\n', '\x0c'] := by
    simp only [isSeparator, Bool.or_eq_true, beq_iff_eq] at hsep
    rcases hsep with (((rfl | rfl) | rfl) | rfl) | rfl
    · exact absurd rfl hne
    all_goals decide
  exact h.not_mem c hmem hc

theorem words_eq (hne : cs ≠ []) : words cs = (fields cs).1 :: (fields cs).2 := by
  rw [words, List.filter_eq_self]
  intro w hw
  rw [decide_eq_true_eq]
  rintro rfl
  rcases List.mem_cons.mp hw with hfirst | hother
  · -- an empty first field: the text begins with a separator
    obtain ⟨behind, heq, hborder⟩ := exists_append_first cs
    rw [← hfirst, List.nil_append] at heq
    subst heq
    obtain ⟨c, cs, rfl⟩ := List.exists_cons_of_ne_nil hne
    have hsep := isSeparator_of_not_isBlank (h.trimmed.1 c rfl)
    exact Bool.false_ne_true (hsep.symm.trans (hborder c rfl))
  · obtain ⟨before, c, behind, rfl, hc, hborder⟩ := exists_append_other hother
    rw [List.nil_append] at h
    cases behind with
    | nil =>
      -- an empty last field: the text ends with a separator
      have hsep := isSeparator_of_not_isBlank (h.trimmed.2 c List.getLast?_concat)
      exact Bool.false_ne_true (hsep.symm.trans hc)
    | cons d behind =>
      -- any other empty field: two separators stand side by side
      have hc' := h.eq_space (by simp) hc
      have hd' := h.eq_space (c := d) (by simp) (hborder d rfl)
      exact h.not_infix ⟨before, behind, by simp [hc', hd']⟩

theorem normalizeChars_eq : normalizeChars cs = cs := by
  by_cases hne : cs = []
  · rw [hne]
    rfl
  · rw [normalizeChars, trim_eq_self h.trimmed, h.words_eq hne]
    exact joinWords_fields fun c hc => h.eq_space hc

end IsNormal

theorem not_infix_joinWords {ws : List (List Char)}
    (h : ∀ w ∈ ws, w ≠ [] ∧ ∀ c ∈ w, isSeparator c = false) : ¬ [' ', ' '] <:+: joinWords ws := by
  rintro ⟨before, behind, heq⟩
  cases ws with
  | nil => simp at heq
  | cons w ws =>
    have hfields := fields_joinWords fun v hv => (h v hv).2
    rw [← heq, List.append_assoc, List.cons_append, fields_append_separator rfl, Prod.mk.injEq] at hfields
    have hempty : [] ∈ ws := by
      rw [← hfields.2]
      exact List.mem_append_right _ List.mem_cons_self
    exact (h [] (List.mem_cons_of_mem w hempty)).1 rfl

/-- **Normal forms are in normal form.** -/
theorem isNormal_normalizeChars (cs : List Char) : IsNormal (normalizeChars cs) where
  trimmed := trimmed_normalizeChars cs
  not_mem c hc hmem := by
    have hall : ∀ d ∈ ['\t', '\r', '\n', '\x0c'], isSeparator d = true ∧ d ≠ ' ' := by
      simp [isSeparator]
    obtain ⟨hsep, hne⟩ := hall c hc
    rcases mem_joinWords hmem with hspace | ⟨w, hw, hcw⟩
    · exact hne hspace
    · exact Bool.false_ne_true (((mem_words hw).2 c hcw).symm.trans hsep)
  not_infix := not_infix_joinWords fun _ hw => mem_words hw

/-- **The texts in normal form are those that stay as they are.** -/
theorem normalizeChars_eq_self_iff : normalizeChars cs = cs ↔ IsNormal cs :=
  ⟨fun h => h ▸ isNormal_normalizeChars cs, fun h => h.normalizeChars_eq⟩

theorem words_normalizeChars (cs : List Char) : words (normalizeChars cs) = words (trim cs) :=
  words_joinWords fun _ hw => mem_words hw

end Selectors.Text

namespace Selectors

/-- **Normalizing is a projection** onto the selectors without blanks at their ends, without tabs, line breaks
and form feeds, and without two spaces side by side: its results are such selectors, and these are the ones
that it leaves as they are. The words stay those of the trimmed selector. So the input, the tokens and the
skipped texts of a run are the same for a selector and its normal form, whatever the scanner. -/
theorem normalize_projects (s : String) :
    Text.IsNormal (normalize s).toList ∧ (normalize s = s ↔ Text.IsNormal s.toList) ∧
    normalize (normalize s) = normalize s ∧
    Text.words (normalize s).toList = Text.words (Text.trim s.toList) ∧
    ∀ scanner : Scanner, scanner.run (normalize s) = scanner.run s := by
  have hfixed : ∀ s, normalize s = s ↔ Text.IsNormal s.toList := by
    intro s
    rw [← Text.normalizeChars_eq_self_iff, ← toList_normalize, String.toList_inj]
  have hnormal : Text.IsNormal (normalize s).toList := by
    rw [toList_normalize]
    exact Text.isNormal_normalizeChars s.toList
  have hidem : normalize (normalize s) = normalize s := (hfixed _).mpr hnormal
  refine ⟨hnormal, hfixed s, hidem, ?_, fun scanner => ?_⟩
  · rw [toList_normalize, Text.words_normalizeChars]
  · rw [Scanner.run, hidem]
    rfl

/-- A no-break space is trimmed at the ends with the tab behind it, and stays inside. -/
example : normalize "\u00a0\t a\u00a0 \n b \u00a0" = "a\u00a0 b" := by decide +kernel

end Selectors
