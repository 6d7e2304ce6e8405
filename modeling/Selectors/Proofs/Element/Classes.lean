import Mathlib.Logic.Function.Iterate
import Selectors.Proofs.Text.Normal
import Selectors.Tree.Element

/-!
# The classes of an element

The classes are the words of the attribute `class`. Joined by spaces they are read back as they were, so a
class that is removed takes nothing with it. A class that is added takes the place of a text of blanks.
Such a text may hold classes: a blank that is no separator is part of a word.

* `IsClassName`: the texts that can be classes; `wordsOf_intercalate`;
* **`classes_removeClass`**, `removeClass_of_not_hasClass`, `removeClass_removeClass`;
* `OverwrittenBy`: the classes that adding another one loses;
* **`hasClass_addClass`**, `addClass_keeps_iff`, `addClass_addClass`;
* `Absorbs`, **`iterate_addClass_iff`**: when a name that is added again makes no difference.
-/

namespace Selectors.Element

variable {e : Element} {name d text : String}

/-! ## Words -/

/-- The text is not empty and holds no separator. -/
def IsClassName (name : String) : Prop :=
  name ≠ "" ∧ ∀ c ∈ name.toList, Text.isSeparator c = false

instance (name : String) : Decidable (IsClassName name) :=
  decidable_of_iff (name ≠ "" ∧ name.toList.all (!Text.isSeparator ·)) (by simp [IsClassName])

theorem isClassName_of_mem (h : d ∈ wordsOf text) : IsClassName d := by
  obtain ⟨w, hw, rfl⟩ := List.mem_map.mp h
  obtain ⟨hne, hsep⟩ := Text.mem_words hw
  refine ⟨fun hnil => hne ?_, by simpa using hsep⟩
  simpa using congrArg String.toList hnil

theorem wordsOf_singleton (h : IsClassName name) : wordsOf name = [name] := by
  have hne : name.toList ≠ [] := by simpa using h.1
  rw [wordsOf, Text.words_of_no_separator hne h.2]
  simp

/-- **Class names that are joined by spaces are the words of the text.** -/
theorem wordsOf_intercalate {l : List String} (h : ∀ d ∈ l, IsClassName d) :
    wordsOf (" ".intercalate l) = l := by
  have htext : (" ".intercalate l).toList = Text.joinWords (l.map String.toList) :=
    String.toList_intercalate
  rw [wordsOf, htext, Text.words_joinWords]
  · simp
  · intro w hw
    obtain ⟨d, hd, rfl⟩ := List.mem_map.mp hw
    exact ⟨by simpa using (h d hd).1, (h d hd).2⟩

@[simp] theorem classes_setAttr (e : Element) (text : String) :
    (e.setAttr "class" text).classes = wordsOf text := by
  simp [classes, classText]

theorem hasClass_iff : e.hasClass d = true ↔ d ∈ e.classes := List.contains_iff_mem

/-! ## Removing -/

theorem removeClass_of_not_hasClass (h : e.hasClass name = false) : e.removeClass name = e := by
  simp [removeClass, h]

theorem tag_removeClass (e : Element) (name : String) : (e.removeClass name).tag = e.tag := by
  unfold removeClass
  split <;> rfl

theorem attr?_removeClass {other : String} (h : other ≠ "class") (e : Element) (name : String) :
    (e.removeClass name).attr? other = e.attr? other := by
  unfold removeClass
  split
  · exact attr?_setAttr_ne e h _
  · rfl

/-- **The other classes stay**, in their order and as often as they are there. -/
theorem classes_removeClass (e : Element) (name : String) :
    (e.removeClass name).classes = e.classes.filter (· ≠ name) := by
  cases h : e.hasClass name with
  | false =>
    have hnot : name ∉ e.classes := fun hmem => Bool.false_ne_true (h.symm.trans (hasClass_iff.mpr hmem))
    rw [removeClass_of_not_hasClass h, List.filter_eq_self.mpr]
    intro d hd
    simpa using ne_of_mem_of_not_mem hd hnot
  | true =>
    rw [removeClass, if_pos h, classes_setAttr, wordsOf_intercalate]
    intro d hd
    exact isClassName_of_mem (List.mem_of_mem_filter hd)

example : (((ofTag "p").setAttr "class" " a\tb a  c b").removeClass "a").classText = "b c b" := by
  decide +kernel

theorem hasClass_removeClass :
    (e.removeClass name).hasClass d = true ↔ e.hasClass d = true ∧ d ≠ name := by
  rw [hasClass_iff, hasClass_iff, classes_removeClass, List.mem_filter, decide_eq_true_eq]

theorem removeClass_removeClass (e : Element) (name : String) :
    (e.removeClass name).removeClass name = e.removeClass name := by
  apply removeClass_of_not_hasClass
  simp [← Bool.not_eq_true, hasClass_removeClass]

/-! ## Adding -/

/-- **Adding a class overwrites the others**: there are some, all of them made of blanks. -/
def OverwrittenBy (e : Element) (name : String) : Prop :=
  e.classes ≠ [] ∧ Text.trim e.classText.toList = [] ∧ e.hasClass name = false

instance (e : Element) (name : String) : Decidable (e.OverwrittenBy name) :=
  inferInstanceAs (Decidable (_ ∧ _ ∧ _))

section

variable (h : IsClassName name)
include h

theorem wordsOf_appendClass (text : String) : wordsOf (appendClass text name) =
    if Text.trim text.toList = [] then [name] else wordsOf text ++ [name] := by
  unfold appendClass
  split
  · exact wordsOf_singleton h
  · have hwords := congrArg (List.map String.ofList)
      (Text.words_append_separator (c := ' ') rfl text.toList name.toList)
    rw [List.map_append] at hwords
    have htext : (text ++ " " ++ name).toList = text.toList ++ ' ' :: name.toList := by simp
    rw [wordsOf, htext, hwords, ← wordsOf, ← wordsOf, wordsOf_singleton h]

theorem classes_addClass (e : Element) : (e.addClass name).classes =
    if e.hasClass name then e.classes
    else if Text.trim e.classText.toList = [] then [name] else e.classes ++ [name] := by
  unfold addClass
  by_cases hclass : e.hasClass name = true
  · simp [hclass]
  · rw [if_neg (not_or.mpr ⟨h.1, hclass⟩), if_neg hclass, classes_setAttr, wordsOf_appendClass h]
    rfl

/-- **The classes with one more**: the new one, and the former ones unless they are overwritten. -/
theorem hasClass_addClass : (e.addClass name).hasClass d = true ↔
    d = name ∨ e.hasClass d = true ∧ ¬ e.OverwrittenBy name := by
  rw [hasClass_iff (e := e) (d := d), hasClass_iff, classes_addClass h]
  cases hclass : e.hasClass name with
  | true =>
    have hnot : ¬ e.OverwrittenBy name := fun hover => Bool.false_ne_true (hover.2.2.symm.trans hclass)
    rw [if_pos rfl, and_iff_left hnot]
    exact ⟨Or.inr, fun hd => hd.elim (fun heq => heq ▸ hasClass_iff.mp hclass) id⟩
  | false =>
    rw [if_neg Bool.false_ne_true]
    by_cases htrim : Text.trim e.classText.toList = []
    · have hover : d ∈ e.classes → e.OverwrittenBy name := fun hd =>
        ⟨List.ne_nil_of_mem hd, htrim, hclass⟩
      rw [if_pos htrim, List.mem_singleton]
      exact ⟨Or.inl, fun hd => hd.elim id fun hd => absurd (hover hd.1) hd.2⟩
    · have hnot : ¬ e.OverwrittenBy name := fun hover => htrim hover.2.1
      rw [if_neg htrim, and_iff_left hnot, List.mem_append, List.mem_singleton, or_comm]

theorem addClass_keeps_iff :
    (∀ d, d ≠ name → (e.addClass name).hasClass d = e.hasClass d) ↔ ¬ e.OverwrittenBy name := by
  constructor
  · intro hkeeps hover
    obtain ⟨d, hd⟩ := List.exists_mem_of_ne_nil _ hover.1
    have hhas : e.hasClass d = true := hasClass_iff.mpr hd
    have hne : d ≠ name := by
      rintro rfl
      exact Bool.false_ne_true (hover.2.2.symm.trans hhas)
    rw [← hkeeps d hne, hasClass_addClass h] at hhas
    exact hhas.elim hne fun hkept => hkept.2 hover
  · intro hnot d hne
    rw [Bool.eq_iff_iff, hasClass_addClass h, and_iff_left hnot, or_iff_right hne]

theorem addClass_addClass (e : Element) : (e.addClass name).addClass name = e.addClass name := by
  have hclass : (e.addClass name).hasClass name = true := (hasClass_addClass h).mpr (Or.inl rfl)
  rw [addClass, if_pos (Or.inr hclass)]

end

/-! ## Adding a name twice -/

/-- **Adding the name once more makes no difference**: no separator parts it into words; or it is made of
blanks, and so is the class text. -/
def Absorbs (e : Element) (name : String) : Prop :=
  (∀ c ∈ name.toList, Text.isSeparator c = false) ∨
    Text.trim name.toList = [] ∧ Text.trim e.classText.toList = []

@[simp] theorem classText_setAttr (e : Element) (text : String) :
    (e.setAttr "class" text).classText = text := by
  simp [classText]

theorem trim_appendClass_iff : Text.trim (appendClass text name).toList = [] ↔
    Text.trim text.toList = [] ∧ Text.trim name.toList = [] := by
  unfold appendClass
  split
  · rename_i htext
    rw [and_iff_right htext]
  · rename_i htext
    rw [Text.trim_eq_nil_iff] at htext
    simp only [Text.trim_eq_nil_iff, String.toList_append]
    exact ⟨fun h => absurd (fun c hc => h c (by simp [hc])) htext, fun h => absurd h.1 htext⟩

theorem length_lt_length_appendClass (h : Text.trim text.toList ≠ []) (name : String) :
    text.length < (appendClass text name).length := by
  rw [appendClass, if_neg h, String.length_append, String.length_append]
  have hspace : " ".length = 1 := rfl
  omega

section

variable (h : ¬ ∀ c ∈ name.toList, Text.isSeparator c = false)
include h

theorem addClass_of_separator (e : Element) :
    e.addClass name = e.setAttr "class" (appendClass e.classText name) := by
  have hne : name ≠ "" := by
    rintro rfl
    exact h (by simp)
  have hclass : ¬ e.hasClass name = true := fun hmem => h (isClassName_of_mem (hasClass_iff.mp hmem)).2
  rw [addClass, if_neg (not_or.mpr ⟨hne, hclass⟩)]

theorem length_add_le_iterate_addClass (he : Text.trim e.classText.toList ≠ []) (k : Nat) :
    Text.trim ((·.addClass name)^[k] e).classText.toList ≠ [] ∧
      e.classText.length + k ≤ ((·.addClass name)^[k] e).classText.length := by
  induction k with
  | zero => exact ⟨he, Nat.le_refl _⟩
  | succ k ih =>
    obtain ⟨hblank, hle⟩ := ih
    have hlt := length_lt_length_appendClass hblank name
    rw [Function.iterate_succ_apply', addClass_of_separator h, classText_setAttr, ne_eq, trim_appendClass_iff]
    exact ⟨fun hall => hblank hall.1, by omega⟩

end

theorem Absorbs.addClass_addClass (h : e.Absorbs name) :
    (e.addClass name).addClass name = e.addClass name := by
  by_cases hname : ∀ c ∈ name.toList, Text.isSeparator c = false
  · by_cases hne : name = ""
    · simp [addClass, hne]
    · exact Element.addClass_addClass ⟨hne, hname⟩ e
  · obtain ⟨hblank, htext⟩ := h.resolve_left hname
    simp [addClass_of_separator hname, appendClass, hblank, htext]

/-- **Once or twice, each time a number of times**: an added name makes no difference the second time exactly
if it is absorbed. -/
theorem iterate_addClass_iff {k : Nat} (hk : k ≠ 0) :
    (·.addClass name)^[k] ((·.addClass name)^[k] e) = (·.addClass name)^[k] e ↔ e.Absorbs name := by
  obtain ⟨k, rfl⟩ := Nat.exists_eq_add_one_of_ne_zero hk
  constructor
  · intro heq
    by_contra hnot
    obtain ⟨hname, hblank⟩ := not_or.mp hnot
    have hone : Text.trim (e.addClass name).classText.toList ≠ [] := by
      rw [addClass_of_separator hname, classText_setAttr, ne_eq, trim_appendClass_iff, and_comm]
      exact hblank
    -- from the first time on the text is not made of blanks, so it is longer the second time
    have hfirst : Text.trim ((·.addClass name)^[k + 1] e).classText.toList ≠ [] :=
      (length_add_le_iterate_addClass hname hone k).1
    have hle := (length_add_le_iterate_addClass hname hfirst (k + 1)).2
    rw [heq] at hle
    omega
  · intro h
    have honce : (·.addClass name)^[k + 1] e = e.addClass name := by
      rw [Function.iterate_succ_apply]
      exact Function.iterate_fixed h.addClass_addClass k
    rw [honce]
    exact Function.iterate_fixed h.addClass_addClass (k + 1)

end Selectors.Element
