import Mathlib.Data.List.Basic
import Mathlib.Data.List.TakeWhile
import Selectors.Text.Blank

/-!
# Texts in normal form

Trimming cuts off the blanks at the ends, and whatever else a text ends in stays at its ends when its words
are joined again. So normal forms are trimmed, and a text in normal form is its own words joined by spaces.
Two such texts with a space between them are again in normal form, and words come back as they were, however
they were spaced.

* `trim_append`, `trim_eq_self`, `trim_eq_nil_iff`: trimming a text with blanks around it, a trimmed text, and
  a text of blanks;
* `words_cons`, `words_concat`, `mem_fields`: the words at the ends of a text, and what they hold;
* `joinWords_cons`, `joinWords_append`, `mem_joinWords`, `fields_joinWords`, **`words_joinWords`**: joined words;
* **`trimmed_normalizeChars`**, **`normalizeChars_append_space`**: normal forms;
* `IsWord`, **`normalizeChars_spaced`**: words with separators between them.
-/

namespace Selectors.Text

variable {as bs cs : List Char} {c : Char}

/-! ## Trimming -/

theorem dropWhile_eq_self (h : ∀ c ∈ cs.head?, isBlank c = false) : cs.dropWhile isBlank = cs := by
  cases cs with
  | nil => rfl
  | cons c cs => exact List.dropWhile_cons_of_neg (Bool.eq_false_iff.mp (h c rfl))

theorem trim_eq_self (h : Trimmed cs) : trim cs = cs := by
  unfold trim trimEnd
  rw [dropWhile_eq_self h.1, dropWhile_eq_self, List.reverse_reverse]
  rw [List.head?_reverse]
  exact h.2

theorem trim_eq_nil_iff : trim cs = [] ↔ ∀ c ∈ cs, isBlank c = true := by
  constructor
  · intro h
    obtain ⟨tail, htail, hblank⟩ := exists_append_trim cs
    rw [h, List.nil_append] at htail
    intro c hc
    rw [← List.takeWhile_append_dropWhile (p := isBlank) (l := cs), htail] at hc
    exact (List.mem_append.mp hc).elim (List.all_eq_true.mp List.all_takeWhile c) (hblank c)
  · intro h
    rw [trim, List.dropWhile_eq_nil_iff.mpr h]
    rfl

theorem trimEnd_append (h : ∀ c ∈ bs, isBlank c = true) : trimEnd (as ++ bs) = trimEnd as := by
  unfold trimEnd
  rw [List.reverse_append, List.dropWhile_append_of_pos fun c hc => h c (List.mem_reverse.mp hc)]

theorem trim_append (ha : ∀ c ∈ as, isBlank c = true) (hb : ∀ c ∈ bs, isBlank c = true)
    (cs : List Char) : trim (as ++ cs ++ bs) = trim cs := by
  unfold trim
  rw [List.append_assoc, List.dropWhile_append_of_pos ha, List.dropWhile_append]
  split
  · rename_i hnil
    rw [List.dropWhile_eq_nil_iff.mpr hb, List.isEmpty_iff.mp hnil]
  · exact trimEnd_append hb

theorem Trimmed.append (ha : Trimmed as) (hb : Trimmed bs) (hane : as ≠ []) (hbne : bs ≠ [])
    (mid : List Char) : Trimmed (as ++ mid ++ bs) := by
  constructor
  · rw [List.append_assoc, List.head?_append_of_ne_nil _ hane]
    exact ha.1
  · rw [List.getLast?_append_of_ne_nil _ hbne]
    exact hb.2

/-! ## Words -/

theorem isSeparator_of_not_isBlank (h : isBlank c = false) : isSeparator c = false :=
  Bool.eq_false_iff.mpr fun hc => Bool.false_ne_true (h.symm.trans (isBlank_of_isSeparator hc))

theorem words_cons (h : isSeparator c = false) (cs : List Char) :
    ∃ w ws, words (c :: cs) = (c :: w) :: ws :=
  ⟨(fields cs).1, (fields cs).2.filter (· ≠ []), by simp [words, fields, h]⟩

theorem fields_concat (h : isSeparator c = false) (cs : List Char) :
    ∃ ws w, (fields (cs ++ [c])).1 :: (fields (cs ++ [c])).2 = ws ++ [w ++ [c]] := by
  induction cs with
  | nil => exact ⟨[], [], by simp [fields, h]⟩
  | cons d cs ih =>
    obtain ⟨ws, w, heq⟩ := ih
    rw [List.cons_append, fields]
    by_cases hd : isSeparator d
    · exact ⟨[] :: ws, w, by simp only [hd, if_true, heq, List.cons_append]⟩
    · cases ws with
      | nil =>
        obtain ⟨hfirst, hothers⟩ := List.cons.inj heq
        exact ⟨[], d :: w, by simp [hd, hfirst, hothers]⟩
      | cons v ws =>
        obtain ⟨hfirst, hothers⟩ := List.cons.inj heq
        exact ⟨(d :: v) :: ws, w, by simp [hd, hfirst, hothers]⟩

theorem words_concat (h : isSeparator c = false) (cs : List Char) :
    ∃ ws w, words (cs ++ [c]) = ws ++ [w ++ [c]] := by
  obtain ⟨ws, w, heq⟩ := fields_concat h cs
  exact ⟨ws.filter (· ≠ []), w, by rw [words, heq, List.filter_append]; simp⟩

theorem mem_fields {cs w : List Char} (hw : w ∈ (fields cs).1 :: (fields cs).2) :
    ∀ c ∈ w, isSeparator c = false := by
  induction cs generalizing w with
  | nil =>
    rw [List.mem_singleton.mp hw]
    exact fun c hc => absurd hc List.not_mem_nil
  | cons c cs ih =>
    rw [fields] at hw
    dsimp only at hw
    split at hw
    · rcases List.mem_cons.mp hw with rfl | hw
      · exact fun c hc => absurd hc List.not_mem_nil
      · exact ih hw
    · rename_i hc
      rcases List.mem_cons.mp hw with rfl | hw
      · intro d hd
        rcases List.mem_cons.mp hd with rfl | hd
        · exact Bool.eq_false_iff.mpr hc
        · exact ih List.mem_cons_self d hd
      · exact ih (List.mem_cons_of_mem _ hw)

theorem mem_words {w : List Char} (hw : w ∈ words cs) : w ≠ [] ∧ ∀ c ∈ w, isSeparator c = false := by
  rw [words, List.mem_filter, decide_eq_true_eq] at hw
  exact ⟨hw.2, mem_fields hw.1⟩

/-! ## Joined words -/

@[simp] theorem joinWords_nil : joinWords [] = [] := rfl

@[simp] theorem joinWords_singleton (w : List Char) : joinWords [w] = w := List.intercalate_singleton

theorem joinWords_cons (w : List Char) (ws : List (List Char)) :
    joinWords (w :: ws) = w ++ ws.flatMap (' ' :: ·) := by
  induction ws generalizing w with
  | nil => rw [joinWords_singleton, List.flatMap_nil, List.append_nil]
  | cons v ws ih =>
    have hrest := ih v
    unfold joinWords at hrest ⊢
    rw [List.intercalate_cons_cons, hrest, List.flatMap_cons, List.append_assoc]
    rfl

theorem joinWords_append {vs ws : List (List Char)} (hvs : vs ≠ []) (hws : ws ≠ []) :
    joinWords (vs ++ ws) = joinWords vs ++ ' ' :: joinWords ws := by
  obtain ⟨v, vs, rfl⟩ := List.exists_cons_of_ne_nil hvs
  obtain ⟨w, ws, rfl⟩ := List.exists_cons_of_ne_nil hws
  simp only [List.cons_append, joinWords_cons, List.flatMap_append, List.flatMap_cons, List.append_assoc]

theorem mem_joinWords {ws : List (List Char)} {c : Char} (h : c ∈ joinWords ws) :
    c = ' ' ∨ ∃ w ∈ ws, c ∈ w := by
  cases ws with
  | nil => cases h
  | cons w ws =>
    rw [joinWords_cons] at h
    rcases List.mem_append.mp h with h | h
    · exact Or.inr ⟨w, List.mem_cons_self, h⟩
    · obtain ⟨v, hv, hc⟩ := List.mem_flatMap.mp h
      exact (List.mem_cons.mp hc).imp_right fun hc => ⟨v, List.mem_cons_of_mem w hv, hc⟩

theorem exists_joinWords_concat (ws : List (List Char)) (w : List Char) :
    ∃ before, joinWords (ws ++ [w]) = before ++ w := by
  by_cases hws : ws = []
  · exact ⟨[], by rw [hws, List.nil_append, joinWords_singleton, List.nil_append]⟩
  · exact ⟨joinWords ws ++ [' '], by simp [joinWords_append hws]⟩

theorem fields_joinWords {w : List Char} {ws : List (List Char)}
    (h : ∀ v ∈ w :: ws, ∀ c ∈ v, isSeparator c = false) : fields (joinWords (w :: ws)) = (w, ws) := by
  rw [joinWords_cons]
  induction ws generalizing w with
  | nil =>
    rw [List.flatMap_nil, List.append_nil]
    exact fields_of_no_separator (h w List.mem_cons_self)
  | cons v ws ih =>
    rw [List.flatMap_cons, List.cons_append, fields_append_separator rfl,
      fields_of_no_separator (h w List.mem_cons_self), ih fun u hu => h u (List.mem_cons_of_mem w hu)]
    rfl

/-- **Words that are joined are the words of the text.** -/
theorem words_joinWords {ws : List (List Char)}
    (h : ∀ w ∈ ws, w ≠ [] ∧ ∀ c ∈ w, isSeparator c = false) : words (joinWords ws) = ws := by
  cases ws with
  | nil => rfl
  | cons w ws =>
    rw [words, fields_joinWords fun v hv => (h v hv).2, List.filter_eq_self.mpr]
    exact fun v hv => decide_eq_true (h v hv).1

/-! ## Normal forms -/

theorem Trimmed.joinWords_words (h : Trimmed cs) : Trimmed (joinWords (words cs)) := by
  constructor
  · cases cs with
    | nil => exact fun c hc => by cases hc
    | cons c cs =>
      have hc := h.1 c rfl
      obtain ⟨w, ws, hwords⟩ := words_cons (isSeparator_of_not_isBlank hc) cs
      rw [hwords, joinWords_cons]
      intro d hd
      rwa [← Option.some.inj hd]
  · rcases List.eq_nil_or_concat cs with rfl | ⟨cs, c, rfl⟩
    · exact fun c hc => by cases hc
    · rw [List.concat_eq_append] at h ⊢
      have hc := h.2 c List.getLast?_concat
      obtain ⟨ws, w, hwords⟩ := words_concat (isSeparator_of_not_isBlank hc) cs
      obtain ⟨before, hjoin⟩ := exists_joinWords_concat ws (w ++ [c])
      rw [hwords, hjoin, ← List.append_assoc, List.getLast?_concat]
      intro d hd
      rwa [← Option.some.inj hd]

/-- **Normal forms are trimmed.** -/
theorem trimmed_normalizeChars (cs : List Char) : Trimmed (normalizeChars cs) :=
  (trimmed_trim cs).joinWords_words

theorem joinWords_words (h : normalizeChars cs = cs) : joinWords (words cs) = cs := by
  have htrim : trim cs = cs := trim_eq_self (h ▸ trimmed_normalizeChars cs)
  rwa [normalizeChars, htrim] at h

theorem normalizeChars_append (ha : ∀ c ∈ as, isBlank c = true) (hb : ∀ c ∈ bs, isBlank c = true)
    (cs : List Char) : normalizeChars (as ++ cs ++ bs) = normalizeChars cs := by
  rw [normalizeChars, trim_append ha hb, normalizeChars]

/-- **A space between two texts in normal form** stays, if it is not at an end. -/
theorem normalizeChars_append_space (ha : normalizeChars as = as) (hb : normalizeChars bs = bs)
    (hane : as ≠ []) (hbne : bs ≠ []) : normalizeChars (as ++ ' ' :: bs) = as ++ ' ' :: bs := by
  have hwords : ∀ {cs}, normalizeChars cs = cs → cs ≠ [] → words cs ≠ [] := by
    intro cs h hne hnil
    rw [← joinWords_words h, hnil] at hne
    exact hne rfl
  have htrimmed : Trimmed (as ++ ' ' :: bs) := by
    rw [List.append_cons]
    exact (ha ▸ trimmed_normalizeChars as).append (hb ▸ trimmed_normalizeChars bs) hane hbne [' ']
  rw [normalizeChars, trim_eq_self htrimmed, words_append_separator rfl,
    joinWords_append (hwords ha hane) (hwords hb hbne), joinWords_words ha, joinWords_words hb]

/-! ## Spaced words -/

/-- A text without blanks that is not empty. -/
def IsWord (w : List Char) : Prop := w ≠ [] ∧ ∀ c ∈ w, isBlank c = false

/-- One separator or more. -/
def IsGap (gap : List Char) : Prop := gap ≠ [] ∧ ∀ c ∈ gap, isSeparator c = true

theorem IsWord.trimmed {w : List Char} (h : IsWord w) : Trimmed w :=
  ⟨fun c hc => h.2 c (List.mem_of_mem_head? hc), fun c hc => h.2 c (List.mem_of_getLast? hc)⟩

theorem words_append_gap {gap : List Char} (h : IsGap gap) (as bs : List Char) :
    words (as ++ gap ++ bs) = words as ++ words bs := by
  obtain ⟨hne, hall⟩ := h
  induction gap generalizing as with
  | nil => exact absurd rfl hne
  | cons c gap ih =>
    have hc := hall c List.mem_cons_self
    rw [List.append_assoc, List.cons_append, words_append_separator hc]
    cases gap with
    | nil => rfl
    | cons d gap =>
      have hrest := ih [] (List.cons_ne_nil d gap) fun e he => hall e (List.mem_cons_of_mem c he)
      rw [List.nil_append] at hrest
      rw [hrest, words_nil, List.nil_append]

/-- Each word behind its gap. -/
def spaced (pieces : List (List Char × List Char)) : List Char := pieces.flatMap fun p => p.1 ++ p.2

@[simp] theorem spaced_nil : spaced [] = [] := rfl

@[simp] theorem spaced_cons (p : List Char × List Char) (pieces : List (List Char × List Char)) :
    spaced (p :: pieces) = p.1 ++ p.2 ++ spaced pieces := List.flatMap_cons

section

variable {pieces : List (List Char × List Char)} {w : List Char}
  (h : ∀ p ∈ pieces, IsGap p.1 ∧ IsWord p.2) (hw : IsWord w)
include h hw

theorem words_spaced : words (w ++ spaced pieces) = w :: pieces.map (·.2) := by
  induction pieces generalizing w with
  | nil =>
    rw [spaced_nil, List.append_nil]
    exact words_of_no_separator hw.1 fun c hc => isSeparator_of_not_isBlank (hw.2 c hc)
  | cons p pieces ih =>
    obtain ⟨hgap, hword⟩ := h p List.mem_cons_self
    have hrest := ih (fun q hq => h q (List.mem_cons_of_mem p hq)) hword
    rw [spaced_cons, List.append_assoc, ← List.append_assoc, words_append_gap hgap,
      words_of_no_separator hw.1 fun c hc => isSeparator_of_not_isBlank (hw.2 c hc)]
    exact congrArg (w :: ·) hrest

theorem trimmed_spaced : Trimmed (w ++ spaced pieces) := by
  induction pieces generalizing w with
  | nil =>
    rw [spaced_nil, List.append_nil]
    exact hw.trimmed
  | cons p pieces ih =>
    obtain ⟨-, hword⟩ := h p List.mem_cons_self
    have hrest := ih (fun q hq => h q (List.mem_cons_of_mem p hq)) hword
    rw [spaced_cons, List.append_assoc, ← List.append_assoc]
    exact hw.trimmed.append hrest hw.1 (List.append_ne_nil_of_left_ne_nil hword.1 _) p.1

/-- **The normal form of spaced words**, with blanks around them, is the words joined. -/
theorem normalizeChars_spaced {lead trail : List Char} (hlead : ∀ c ∈ lead, isBlank c = true)
    (htrail : ∀ c ∈ trail, isBlank c = true) :
    normalizeChars (lead ++ (w ++ spaced pieces) ++ trail) = joinWords (w :: pieces.map (·.2)) := by
  rw [normalizeChars_append hlead htrail, normalizeChars, trim_eq_self (trimmed_spaced h hw), words_spaced h hw]

end

end Selectors.Text
