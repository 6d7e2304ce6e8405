/-!
# Blanks, trimming and words

Two notions of blank meet in selector text. A *blank* is a code point with the Unicode property
`White_Space`; a *separator* is one of space, tab, line feed, form feed and carriage return. Only
the ends of a selector are trimmed of blanks; inside it, only separators part the words.

* `isBlank`, `isSeparator`: the two classes (`isBlank_of_isSeparator`);
* `trim`: the text without the blanks at its ends (`exists_append_trim`, `trimmed_trim`);
* `words`: the words between separators (`words_append_separator`, `words_of_no_separator`);
* `normalize`: trimmed, and every run of separators one space.
-/

namespace Selectors.Text

/-! ## Classes -/

/-- A code point with the Unicode property `White_Space`. -/
def isBlank (c : Char) : Bool :=
  let n := c.toNat
  (9 ≤ n && n ≤ 13) || n == 0x20 || n == 0x85 || n == 0xA0 || n == 0x1680 ||
    (0x2000 ≤ n && n ≤ 0x200A) || n == 0x2028 || n == 0x2029 || n == 0x202F || n == 0x205F ||
    n == 0x3000

/-- Space, tab, line feed, form feed or carriage return. -/
def isSeparator (c : Char) : Bool :=
  c == ' ' || c == '\t' || c == '\n' || c == '\x0c' || c == '\r'

theorem isBlank_of_isSeparator {c : Char} (h : isSeparator c = true) : isBlank c = true := by
  simp only [isSeparator, Bool.or_eq_true, beq_iff_eq] at h
  rcases h with (((rfl | rfl) | rfl) | rfl) | rfl <;> rfl

/-! ## Trimming -/

/-- Without the blanks at the end. -/
def trimEnd (cs : List Char) : List Char := (cs.reverse.dropWhile isBlank).reverse

/-- Without the blanks at both ends. -/
def trim (cs : List Char) : List Char := trimEnd (cs.dropWhile isBlank)

@[simp] theorem trim_nil : trim [] = [] := rfl

/-- The text neither starts nor ends with a blank. -/
def Trimmed (cs : List Char) : Prop :=
  (∀ c ∈ cs.head?, isBlank c = false) ∧ ∀ c ∈ cs.getLast?, isBlank c = false

theorem not_isBlank_of_mem_head? {cs : List Char} {c : Char} (h : c ∈ (cs.dropWhile isBlank).head?) :
    isBlank c = false := by
  have hnot := List.head?_dropWhile_not isBlank cs
  rwa [Option.mem_def.mp h] at hnot

/-- Behind the blanks at the front, nothing but blanks is trimmed. -/
theorem exists_append_trim (cs : List Char) :
    ∃ tail, cs.dropWhile isBlank = trim cs ++ tail ∧ ∀ c ∈ tail, isBlank c = true := by
  refine ⟨((cs.dropWhile isBlank).reverse.takeWhile isBlank).reverse, ?_, fun c hc => ?_⟩
  · rw [trim, trimEnd, ← List.reverse_append, List.takeWhile_append_dropWhile, List.reverse_reverse]
  · exact List.all_eq_true.mp List.all_takeWhile c (List.mem_reverse.mp hc)

/-- No blank is left at the ends. -/
theorem trimmed_trim (cs : List Char) : Trimmed (trim cs) := by
  refine ⟨fun c hc => ?_, fun c hc => ?_⟩
  · obtain ⟨tail, htail, -⟩ := exists_append_trim cs
    have hhead : c ∈ (cs.dropWhile isBlank).head? := by
      rw [htail, List.head?_append]
      exact Option.or_eq_some_iff.mpr (.inl hc)
    exact not_isBlank_of_mem_head? hhead
  · rw [trim, trimEnd, List.getLast?_reverse] at hc
    exact not_isBlank_of_mem_head? hc

/-! ## Words -/

/-- The text before the first separator, and the fields behind it; a field may be empty. -/
def fields : List Char → List Char × List (List Char)
  | [] => ([], [])
  | c :: cs =>
    let (first, others) := fields cs
    if isSeparator c then ([], first :: others) else (c :: first, others)

/-- The non-empty fields between separators, in order. -/
def words (cs : List Char) : List (List Char) :=
  ((fields cs).1 :: (fields cs).2).filter (· ≠ [])

@[simp] theorem words_nil : words [] = [] := rfl

theorem fields_append_separator {c : Char} (h : isSeparator c = true) (as bs : List Char) :
    fields (as ++ c :: bs) =
      ((fields as).1, (fields as).2 ++ (fields bs).1 :: (fields bs).2) := by
  induction as with
  | nil => simp [fields, h]
  | cons a as ih =>
    simp only [List.cons_append, fields, ih]
    split <;> rfl

/-- A separator parts the words before it from those behind it. -/
theorem words_append_separator {c : Char} (h : isSeparator c = true) (as bs : List Char) :
    words (as ++ c :: bs) = words as ++ words bs := by
  rw [words, fields_append_separator h, ← List.cons_append, List.filter_append]
  rfl

theorem fields_of_no_separator {cs : List Char} (h : ∀ c ∈ cs, isSeparator c = false) :
    fields cs = (cs, []) := by
  induction cs with
  | nil => rfl
  | cons c cs ih =>
    rw [fields, ih fun d hd => h d (List.mem_cons_of_mem c hd), h c List.mem_cons_self]
    rfl

theorem words_of_no_separator {cs : List Char} (hne : cs ≠ [])
    (h : ∀ c ∈ cs, isSeparator c = false) : words cs = [cs] := by
  rw [words, fields_of_no_separator h]
  simp [hne]

/-! ## Normal form -/

/-- The words, one space between two of them. -/
def joinWords (ws : List (List Char)) : List Char := [' '].intercalate ws

/-- Trimmed of blanks, and every run of separators inside replaced by one space. -/
def normalizeChars (cs : List Char) : List Char := joinWords (words (trim cs))

end Selectors.Text

namespace Selectors

/-- The normal form of a selector: no blanks at its ends, and one space for every run of separators
inside. -/
def normalize (selector : String) : String :=
  .ofList (Text.normalizeChars selector.toList)

@[simp] theorem toList_normalize (s : String) :
    (normalize s).toList = Text.normalizeChars s.toList := String.toList_ofList

end Selectors
