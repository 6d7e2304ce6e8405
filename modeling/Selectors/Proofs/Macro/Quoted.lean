import Selectors.Proofs.Pattern.Sequences
import Selectors.Proofs.Scanner.Items

/-!
# Quoted texts

The patterns of quoted texts read one character, escape or line break after the other. Whether they
match a text can be told without the order in which these are read, by what stands right before each
character: the quote needs a backslash before it, and a line feed needs an escape or a carriage return.
Where line breaks may not stand alone, the other two need an escape as well.

* `AtEach`: a condition on every character and on what stands before it;
* `EndsEscape`, `MayFollow`, `BreakEscaped`: the conditions on quoted texts;
* `quotedPattern`; **`mem_language_quotedPattern_iff`**: the texts that it matches.
-/

namespace Selectors

open scoped Computability

/-! ## Conditions on each character -/

/-- Every character of a text meets a condition together with what stands before it. -/
def AtEach (P : List Char → Char → Prop) (w : List Char) : Prop :=
  ∀ before c after, w = before ++ c :: after → P before c

namespace AtEach

variable {P Q : List Char → Char → Prop} {v w : List Char} {c : Char}

theorem nil : AtEach P [] :=
  fun before c after h => absurd h.symm (List.append_ne_nil_of_right_ne_nil before (List.cons_ne_nil c after))

theorem cons_iff : AtEach P (c :: w) ↔ P [] c ∧ AtEach (fun before => P (c :: before)) w := by
  constructor
  · intro h
    refine ⟨h [] c w rfl, fun before d after heq => h (c :: before) d after ?_⟩
    rw [heq, List.cons_append]
  · rintro ⟨hc, hw⟩ before d after heq
    cases before with
    | nil =>
      obtain ⟨rfl, rfl⟩ := List.cons.inj heq
      exact hc
    | cons e before =>
      obtain ⟨rfl, rfl⟩ := List.cons.inj heq
      exact hw before d after rfl

theorem append_iff : AtEach P (v ++ w) ↔ AtEach P v ∧ AtEach (fun before => P (v ++ before)) w := by
  induction v generalizing P with
  | nil => exact (and_iff_right nil).symm
  | cons c v ih => rw [List.cons_append, cons_iff, cons_iff, ih, and_assoc]; rfl

theorem concat_iff : AtEach P (w ++ [c]) ↔ AtEach P w ∧ P w c := by
  rw [append_iff, cons_iff, List.append_nil]
  exact and_congr_right' (and_iff_left nil)

theorem and_iff : AtEach (fun before c => P before c ∧ Q before c) w ↔ AtEach P w ∧ AtEach Q w :=
  ⟨fun h => ⟨fun b c a heq => (h b c a heq).1, fun b c a heq => (h b c a heq).2⟩,
    fun h b c a heq => ⟨h.1 b c a heq, h.2 b c a heq⟩⟩

theorem of_forall (h : ∀ c ∈ w, ∀ before, P before c) : AtEach P w := by
  rintro before c after rfl
  exact h c (List.mem_append_right before List.mem_cons_self) before

theorem append (hP : ∀ v before c, P before c → P (v ++ before) c) (hv : AtEach P v)
    (hw : AtEach P w) : AtEach P (v ++ w) :=
  append_iff.mpr ⟨hv, fun before c after heq => hP v before c (hw before c after heq)⟩

end AtEach

/-! ## Escapes before a character -/

/-- A text ends with a backslash and no more than six hexadecimal digits, perhaps none. -/
def EndsEscape (w : List Char) : Prop :=
  ∃ front digits, w = front ++ '\\' :: digits ∧ digits.length ≤ 6 ∧ ∀ d ∈ digits, Lexer.isHex d = true

/-- What may stand behind a text between quotes: a quote needs a backslash right before it, and a line
feed an escape or a carriage return. -/
def MayFollow (quote : Char) (before : List Char) (c : Char) : Prop :=
  (c = quote → before.getLast? = some '\\') ∧
    (c = '\n' → EndsEscape before ∨ before.getLast? = some '\r')

/-- A carriage return or a form feed has an escape right before it. -/
def BreakEscaped (before : List Char) (c : Char) : Prop := c = '\r' ∨ c = '\x0c' → EndsEscape before

/-- The condition on the characters between quotes; line breaks may stand `bare`, or need an escape. -/
def Quotable (quote : Char) (bare : Bool) (before : List Char) (c : Char) : Prop :=
  MayFollow quote before c ∧ (bare = false → BreakEscaped before c)

section Conditions

variable {quote c : Char} {bare : Bool} {v w before : List Char}

theorem EndsEscape.append (h : EndsEscape w) (v : List Char) : EndsEscape (v ++ w) := by
  obtain ⟨front, digits, rfl, hdigits⟩ := h
  exact ⟨v ++ front, digits, (List.append_assoc ..).symm, hdigits⟩

theorem Quotable.append (v before : List Char) (c : Char) (h : Quotable quote bare before c) :
    Quotable quote bare (v ++ before) c := by
  have hlast : ∀ d, before.getLast? = some d → (v ++ before).getLast? = some d := by
    intro d hd
    rw [List.getLast?_append, hd, Option.some_or]
  obtain ⟨⟨hquote, hfeed⟩, hbreak⟩ := h
  exact ⟨⟨fun hc => hlast _ (hquote hc), fun hc => (hfeed hc).imp (·.append v) (hlast _)⟩,
    fun hbare hc => (hbreak hbare hc).append v⟩

/-- A character that is neither the quote nor part of a line break. -/
def Ordinary (quote c : Char) : Prop := c ≠ quote ∧ c ≠ '\n' ∧ c ≠ '\r' ∧ c ≠ '\x0c'

instance : Decidable (Ordinary quote c) := inferInstanceAs (Decidable (_ ∧ _))

theorem Ordinary.quotable (h : Ordinary quote c) : Quotable quote bare before c :=
  ⟨⟨fun hc => absurd hc h.1, fun hc => absurd hc h.2.1⟩,
    fun _ hc => (hc.elim h.2.2.1 h.2.2.2).elim⟩

theorem endsEscape_cons_iff (hquote : quote ≠ '\\') : EndsEscape (quote :: w) ↔ EndsEscape w := by
  refine ⟨?_, fun h => h.append [quote]⟩
  rintro ⟨front, digits, heq, hdigits⟩
  cases front with
  | nil => exact absurd (List.cons.inj heq).1 hquote
  | cons d front => exact ⟨front, digits, (List.cons.inj heq).2, hdigits⟩

theorem breaksEscaped_quoted_iff (hquote : Ordinary '\\' quote) :
    AtEach BreakEscaped (quote :: (w ++ [quote])) ↔ AtEach BreakEscaped w := by
  have hnone : ∀ before, BreakEscaped before quote := fun before hc =>
    (hc.elim hquote.2.2.1 hquote.2.2.2).elim
  have hsame : (fun before => BreakEscaped (quote :: before)) = BreakEscaped := by
    funext before c
    exact propext (imp_congr_right fun _ => endsEscape_cons_iff hquote.1)
  rw [AtEach.cons_iff, hsame, AtEach.concat_iff]
  exact ⟨fun h => h.2.1, fun h => ⟨hnone [], h, hnone w⟩⟩

end Conditions

/-! ## Patterns -/

open Pattern Lexer

/-- Neither the quote nor part of a line break. -/
def quotedSet (quote : Char) : CharSet :=
  (CharClass.mk [('\n', '\n'), ('\r', '\r'), ('\x0c', '\x0c'), (quote, quote)] true).toSet false

/-- The line breaks between quotes: `bare`, where only the line feed has a backslash before it, or
behind a backslash throughout. -/
def breakPattern : (bare : Bool) → Pattern
  | true => .alt (.literal ['\\', '\n'])
      (.alt (.literal ['\r', '\n']) (.alt (.literal ['\r']) (.literal ['\x0c'])))
  | false => .seq (.literal ['\\'])
      (.alt (.literal ['\n']) (.alt (.literal ['\r', '\n']) (.alt (.literal ['\r']) (.literal ['\x0c']))))

/-- What is read between quotes in one round. -/
def unitPattern (quote : Char) (bare : Bool) : Pattern :=
  .alt (.one (quotedSet quote)) (.alt (breakPattern bare) (.alt (.one nonAsciiSet) escapePattern))

/-- A quoted text. -/
def quotedPattern (quote : Char) (bare : Bool) : Pattern :=
  .seq (.literal [quote]) (.seq (.rep (unitPattern quote bare) 0 none true) (.literal [quote]))

/-! ## Texts of escapes and units -/

section Texts

variable {quote c : Char} {bare : Bool} {v w : List Char}

theorem mem_roundsUpTo_one {set : CharSet} {n : Nat} :
    w ∈ roundsUpTo (Pattern.one set).language n ↔ w.length ≤ n ∧ ∀ c ∈ w, set.contains c = true := by
  induction n generalizing w with
  | zero =>
    show w = [] ↔ _
    rw [Nat.le_zero, List.length_eq_zero_iff]
    exact (and_iff_left_of_imp fun h c hc => absurd (h ▸ hc) List.not_mem_nil).symm
  | succ n ih =>
    rw [roundsUpTo, Language.mem_add, Language.mem_mul]
    constructor
    · rintro (⟨_, ⟨c, hc, rfl⟩, rest, hrest, rfl⟩ | rfl)
      · obtain ⟨hlength, hall⟩ := ih.mp hrest
        exact ⟨Nat.succ_le_succ hlength, List.forall_mem_cons.mpr ⟨hc, hall⟩⟩
      · exact ⟨Nat.zero_le _, fun c hc => absurd hc List.not_mem_nil⟩
    · rintro ⟨hlength, hall⟩
      cases w with
      | nil => exact Or.inr rfl
      | cons c w =>
        obtain ⟨hc, hall⟩ := List.forall_mem_cons.mp hall
        exact Or.inl ⟨[c], ⟨c, hc, rfl⟩, w, ih.mpr ⟨Nat.le_of_succ_le_succ hlength, hall⟩, rfl⟩

/-- What may stand behind the digits of an escape. -/
def IsTail (w : List Char) : Prop := w = [] ∨ w = ['\r', '\n'] ∨ ∃ c, blankSet.contains c = true ∧ w = [c]

theorem mem_spacePattern : w ∈ spacePattern.language ↔ IsTail w := by
  show w ∈ roundsLanguage _ 0 (some 1) ↔ _
  rw [roundsLanguage, pow_zero, one_mul]
  show w ∈ _ * 1 + 1 ↔ _
  rw [mul_one, add_comm]
  rfl

theorem mem_escapePattern : w ∈ escapePattern.language ↔
    (∃ digits tail, w = '\\' :: (digits ++ tail) ∧ digits ≠ [] ∧ digits.length ≤ 6 ∧
      (∀ d ∈ digits, isHex d = true) ∧ IsTail tail) ∨
    ∃ c, otherSet.contains c = true ∧ w = ['\\', c] := by
  have hdigits : ∀ digits, digits ∈ (Pattern.rep (.one hexSet) 1 (some 6) true).language ↔
      digits ≠ [] ∧ digits.length ≤ 6 ∧ ∀ d ∈ digits, isHex d = true := by
    intro digits
    show digits ∈ (Pattern.one hexSet).language ^ 1 * roundsUpTo (Pattern.one hexSet).language 5 ↔ _
    rw [pow_one, Language.mem_mul]
    constructor
    · rintro ⟨_, ⟨d, hd, rfl⟩, rest, hrest, rfl⟩
      obtain ⟨hlength, hall⟩ := mem_roundsUpTo_one.mp hrest
      refine ⟨List.cons_ne_nil d rest, Nat.succ_le_succ hlength, List.forall_mem_cons.mpr ?_⟩
      exact ⟨contains_hexSet ▸ hd, fun e he => contains_hexSet ▸ hall e he⟩
    · rintro ⟨hne, hlength, hall⟩
      obtain ⟨d, rest, rfl⟩ := List.exists_cons_of_ne_nil hne
      obtain ⟨hd, hall⟩ := List.forall_mem_cons.mp hall
      refine ⟨[d], ⟨d, contains_hexSet.trans hd, rfl⟩, rest, mem_roundsUpTo_one.mpr ?_, rfl⟩
      exact ⟨Nat.le_of_succ_le_succ hlength, fun e he => contains_hexSet.trans (hall e he)⟩
  refine or_congr ?_ ?_
  · constructor
    · rintro ⟨_, rfl, _, ⟨digits, hmem, tail, htail, rfl⟩, rfl⟩
      obtain ⟨hne, hlength, hall⟩ := (hdigits digits).mp hmem
      exact ⟨digits, tail, rfl, hne, hlength, hall, mem_spacePattern.mp htail⟩
    · rintro ⟨digits, tail, rfl, hne, hlength, hall, htail⟩
      exact ⟨_, rfl, _, ⟨digits, (hdigits digits).mpr ⟨hne, hlength, hall⟩, tail,
        mem_spacePattern.mpr htail, rfl⟩, rfl⟩
  · constructor
    · rintro ⟨_, rfl, _, ⟨c, hc, rfl⟩, rfl⟩
      exact ⟨c, hc, rfl⟩
    · rintro ⟨c, hc, rfl⟩
      exact ⟨_, rfl, _, ⟨c, hc, rfl⟩, rfl⟩

end Texts

/-! ## Texts between quotes -/

/-- The quotes that a text may stand between. -/
def IsQuote (c : Char) : Prop := c = '\"' ∨ c = '\''

/-- A line break. -/
def IsBreak (w : List Char) : Prop := w = ['\n'] ∨ w = ['\r', '\n'] ∨ w = ['\r'] ∨ w = ['\x0c']

section Quoted

variable {quote c : Char} {bare : Bool} {v w : List Char}

theorem contains_quotedSet (h : IsQuote quote) : (quotedSet quote).contains c = true ↔ Ordinary quote c := by
  have hlast := toNat_le_last c
  have hdouble : quotedSet '\"' = ⟨[(0, 9), (11, 11), (14, 33), (35, 1114111)]⟩ := by decide +kernel
  have hsingle : quotedSet '\'' = ⟨[(0, 9), (11, 11), (14, 38), (40, 1114111)]⟩ := by decide +kernel
  rcases h with rfl | rfl
  · rw [hdouble]
    simp [CharSet.contains, Ordinary, ← Char.toNat_inj]
    omega
  · rw [hsingle]
    simp [CharSet.contains, Ordinary, ← Char.toNat_inj]
    omega

theorem ordinary_of_isHex (h : IsQuote quote) (hc : isHex c = true) : Ordinary quote c := by
  rw [isHex_iff] at hc
  rcases h with rfl | rfl
  all_goals
    simp only [Ordinary, ne_eq, ← Char.toNat_inj, Char.reduceToNat]
    omega

theorem ordinary_of_nonAscii (h : IsQuote quote) (hc : nonAsciiSet.contains c = true) :
    Ordinary quote c := by
  simp [nonAsciiSet, CharSet.contains] at hc
  rcases h with rfl | rfl
  all_goals
    simp only [Ordinary, ne_eq, ← Char.toNat_inj, Char.reduceToNat]
    omega

theorem ordinary_backslash (h : IsQuote quote) : Ordinary quote '\\' := by
  rcases h with rfl | rfl <;> decide

theorem ne_quote_of_blank (h : IsQuote quote) (hc : blankSet.contains c = true) : c ≠ quote := by
  rintro rfl
  rcases h with rfl | rfl <;> exact absurd hc (by decide)

theorem isTail_of_isBreak (h : IsBreak w) : IsTail w := by
  rcases h with rfl | rfl | rfl | rfl
  · exact Or.inr (Or.inr ⟨_, by decide, rfl⟩)
  · exact Or.inr (Or.inl rfl)
  · exact Or.inr (Or.inr ⟨_, by decide, rfl⟩)
  · exact Or.inr (Or.inr ⟨_, by decide, rfl⟩)

theorem atEach_of_ordinary (h : ∀ c ∈ w, Ordinary quote c) : AtEach (Quotable quote bare) w :=
  .of_forall fun c hc _ => (h c hc).quotable

theorem atEach_feed (h : IsQuote quote) (hw : AtEach (Quotable quote bare) (w ++ ['\r'])) :
    AtEach (Quotable quote bare) (w ++ ['\r', '\n']) := by
  rw [show w ++ ['\r', '\n'] = w ++ ['\r'] ++ ['\n'] by simp]
  refine AtEach.concat_iff.mpr ⟨hw, ⟨fun heq => ?_, fun _ => Or.inr ?_⟩, fun _ hbreak => ?_⟩
  · exact absurd heq (ne_quote_of_blank h (by decide))
  · exact List.getLast?_concat
  · exact absurd hbreak (by decide)

theorem atEach_escape (h : IsQuote quote) {digits tail : List Char} (hlength : digits.length ≤ 6)
    (hdigits : ∀ d ∈ digits, isHex d = true) (htail : IsTail tail) :
    AtEach (Quotable quote bare) ('\\' :: (digits ++ tail)) := by
  have hends : EndsEscape ('\\' :: digits) := ⟨[], digits, rfl, hlength, hdigits⟩
  have hfront : AtEach (Quotable quote bare) ('\\' :: digits) := by
    refine atEach_of_ordinary (List.forall_mem_cons.mpr ⟨ordinary_backslash h, fun d hd => ?_⟩)
    exact ordinary_of_isHex h (hdigits d hd)
  have hblank : ∀ d, blankSet.contains d = true →
      AtEach (Quotable quote bare) ('\\' :: digits ++ [d]) := fun d hd =>
    AtEach.concat_iff.mpr ⟨hfront, ⟨fun heq => absurd heq (ne_quote_of_blank h hd),
      fun _ => Or.inl hends⟩, fun _ _ => hends⟩
  rcases htail with rfl | rfl | ⟨d, hd, rfl⟩
  · rw [List.append_nil]
    exact hfront
  · exact atEach_feed h (hblank '\r' (by decide))
  · exact hblank d hd

theorem atEach_of_mem_unitPattern (h : IsQuote quote) (hw : w ∈ (unitPattern quote bare).language) :
    AtEach (Quotable quote bare) w := by
  have hescaped : ∀ tail, IsBreak tail → AtEach (Quotable quote bare) ('\\' :: tail) := by
    intro tail htail
    have hnone : ([] : List Char).length ≤ 6 := Nat.zero_le _
    exact atEach_escape h hnone (fun d hd => absurd hd List.not_mem_nil) (isTail_of_isBreak htail)
  rcases hw with ⟨c, hc, rfl⟩ | hw | ⟨c, hc, rfl⟩ | hw
  · exact atEach_of_ordinary (List.forall_mem_singleton.mpr ((contains_quotedSet h).mp hc))
  · cases bare with
    | false =>
      obtain ⟨_, rfl, tail, htail, rfl⟩ := Language.mem_mul.mp hw
      exact hescaped tail htail
    | true =>
      have hbreak : ∀ d, d = '\r' ∨ d = '\x0c' → AtEach (Quotable quote true) [d] := by
        intro d hd
        refine AtEach.cons_iff.mpr ⟨⟨⟨fun heq => ?_, fun heq => ?_⟩, fun hbare => ?_⟩, AtEach.nil⟩
        · rcases hd with rfl | rfl <;> exact absurd heq (ne_quote_of_blank h (by decide))
        · rcases hd with rfl | rfl <;> exact absurd heq (by decide)
        · cases hbare
      rcases hw with rfl | rfl | rfl | rfl
      · exact hescaped _ (Or.inl rfl)
      · exact atEach_feed (w := []) h (hbreak '\r' (Or.inl rfl))
      · exact hbreak _ (Or.inl rfl)
      · exact hbreak _ (Or.inr rfl)
  · exact atEach_of_ordinary (List.forall_mem_singleton.mpr (ordinary_of_nonAscii h hc))
  · rcases mem_escapePattern.mp hw with ⟨digits, tail, rfl, -, hlength, hdigits, htail⟩ | ⟨c, hc, rfl⟩
    · exact atEach_escape h hlength hdigits htail
    · refine AtEach.concat_iff (w := ['\\']).mpr ⟨?_, ⟨fun _ => rfl, ?_⟩, fun _ => ?_⟩
      · exact atEach_of_ordinary (List.forall_mem_singleton.mpr (ordinary_backslash h))
      · rintro rfl
        exact absurd hc (by decide)
      · rintro (rfl | rfl) <;> exact absurd hc (by decide)

/-! ## Reading a quoted text -/

theorem append_mem_kstar {L : Language Char} (hv : v ∈ L∗) (hw : w ∈ L∗) : v ++ w ∈ L∗ :=
  kstar_mul_kstar L ▸ Language.append_mem_mul hv hw

theorem mem_kstar_of_mem {L : Language Char} (hw : w ∈ L) : w ∈ L∗ := (le_kstar : L ≤ L∗) hw

theorem escape_mem_kstar (h : IsQuote quote) {digits tail : List Char} (hlength : digits.length ≤ 6)
    (hdigits : ∀ d ∈ digits, isHex d = true) (htail : IsBreak tail) :
    '\\' :: (digits ++ tail) ∈ (unitPattern quote bare).language∗ := by
  by_cases hne : digits = []
  · subst hne
    cases bare with
    | false => exact mem_kstar_of_mem (Or.inr (Or.inl ⟨['\\'], rfl, tail, htail, rfl⟩))
    | true =>
      have hbackslash : ['\\'] ∈ (unitPattern quote true).language :=
        Or.inl ⟨_, (contains_quotedSet h).mpr (ordinary_backslash h), rfl⟩
      rcases htail with rfl | htail
      · exact mem_kstar_of_mem (Or.inr (Or.inl (Or.inl rfl)))
      · exact append_mem_kstar (mem_kstar_of_mem hbackslash)
          (mem_kstar_of_mem (Or.inr (Or.inl (Or.inr htail))))
  · have hescape : '\\' :: (digits ++ tail) ∈ escapePattern.language := mem_escapePattern.mpr
      (Or.inl ⟨digits, tail, rfl, hne, hlength, hdigits, isTail_of_isBreak htail⟩)
    exact mem_kstar_of_mem (Or.inr (Or.inr (Or.inr hescape)))

/-- **What meets the condition can be read**, from the end: the last character is read together with
the escape before it, or by itself. -/
theorem mem_kstar_of_atEach (h : IsQuote quote) (hw : AtEach (Quotable quote bare) w) :
    w ∈ (unitPattern quote bare).language∗ := by
  induction hl : w.length using Nat.strongRecOn generalizing w with
  | ind l ih =>
  have hrounds : ∀ {v u}, AtEach (Quotable quote bare) v → v.length < l →
      u ∈ (unitPattern quote bare).language → v ++ u ∈ (unitPattern quote bare).language∗ :=
    fun hv hlt hu => append_mem_kstar (ih _ hlt hv rfl) (mem_kstar_of_mem hu)
  have hescaped : ∀ {before tail}, AtEach (Quotable quote bare) before → before.length < l →
      EndsEscape before → IsBreak tail →
      before ++ tail ∈ (unitPattern quote bare).language∗ := by
    rintro _ tail hbefore hlt ⟨front, digits, rfl, hlength, hdigits⟩ htail
    rw [List.length_append] at hlt
    have hfront := ih _ (Nat.lt_of_le_of_lt (Nat.le_add_right _ _) hlt)
      (AtEach.append_iff.mp hbefore).1 rfl
    rw [List.append_assoc, List.cons_append]
    exact append_mem_kstar hfront (escape_mem_kstar h hlength hdigits htail)
  rcases List.eq_nil_or_concat' w with rfl | ⟨before, c, rfl⟩
  · exact Language.nil_mem_kstar _
  rw [List.length_append, List.length_singleton] at hl
  have hlt : before.length < l := by omega
  obtain ⟨hbefore, ⟨hquote, hfeed⟩, hbreak⟩ := AtEach.concat_iff.mp hw
  by_cases hcq : c = quote
  · obtain ⟨front, rfl⟩ := List.getLast?_eq_some_iff.mp (hquote hcq)
    rw [List.length_append] at hlt
    have hother : otherSet.contains c = true := by
      rcases h with rfl | rfl <;> exact hcq ▸ by decide
    rw [List.append_assoc]
    refine hrounds (AtEach.append_iff.mp hbefore).1 (Nat.lt_of_le_of_lt (Nat.le_add_right _ _) hlt) ?_
    exact Or.inr (Or.inr (Or.inr (mem_escapePattern.mpr (Or.inr ⟨c, hother, rfl⟩))))
  by_cases hcf : c = '\n'
  · subst hcf
    rcases hfeed rfl with hends | hreturn
    · exact hescaped hbefore hlt hends (Or.inl rfl)
    · obtain ⟨front, rfl⟩ := List.getLast?_eq_some_iff.mp hreturn
      obtain ⟨hfront, -, hreturn⟩ := AtEach.concat_iff.mp hbefore
      rw [List.length_append] at hlt
      have hlt := Nat.lt_of_le_of_lt (Nat.le_add_right _ _) hlt
      rw [List.append_assoc]
      cases bare with
      | false => exact hescaped hfront hlt (hreturn rfl (Or.inl rfl)) (Or.inr (Or.inl rfl))
      | true => exact hrounds hfront hlt (Or.inr (Or.inl (Or.inr (Or.inl rfl))))
  by_cases hcb : c = '\r' ∨ c = '\x0c'
  · have hc : IsBreak [c] := by rcases hcb with rfl | rfl <;> simp [IsBreak]
    cases bare with
    | false => exact hescaped hbefore hlt (hbreak rfl hcb) hc
    | true =>
      refine hrounds hbefore hlt (Or.inr (Or.inl (Or.inr ?_)))
      exact hc.resolve_left fun heq => hcf (List.cons.inj heq).1
  · obtain ⟨hcr, hcform⟩ := not_or.mp hcb
    refine hrounds hbefore hlt (Or.inl ⟨c, (contains_quotedSet h).mpr ?_, rfl⟩)
    exact ⟨hcq, hcf, hcr, hcform⟩

/-- **The texts of a quoted pattern**: the condition holds of every character between the quotes. -/
theorem mem_language_quotedPattern_iff (h : IsQuote quote) :
    w ∈ (quotedPattern quote bare).language ↔
      ∃ inner, w = quote :: (inner ++ [quote]) ∧ AtEach (Quotable quote bare) inner := by
  have hrounds : ∀ inner, inner ∈ (Pattern.rep (unitPattern quote bare) 0 none true).language ↔
      AtEach (Quotable quote bare) inner := by
    intro inner
    show inner ∈ _ ^ 0 * (unitPattern quote bare).language∗ ↔ _
    rw [pow_zero, one_mul]
    refine ⟨?_, mem_kstar_of_atEach h⟩
    rintro ⟨texts, rfl, htexts⟩
    induction texts with
    | nil => exact AtEach.nil
    | cons text texts ih =>
      obtain ⟨htext, htexts⟩ := List.forall_mem_cons.mp htexts
      exact AtEach.append Quotable.append (atEach_of_mem_unitPattern h htext) (ih htexts)
  constructor
  · rintro ⟨_, rfl, _, ⟨inner, hinner, _, rfl, rfl⟩, rfl⟩
    exact ⟨inner, rfl, (hrounds inner).mp hinner⟩
  · rintro ⟨inner, rfl, hinner⟩
    exact ⟨[quote], rfl, _, ⟨inner, (hrounds inner).mpr hinner, [quote], rfl, rfl⟩, rfl⟩

/-- **Where line breaks need an escape, the texts are those in which they have one.** -/
theorem mem_language_escaped_iff (h : IsQuote quote) : w ∈ (quotedPattern quote false).language ↔
    w ∈ (quotedPattern quote true).language ∧ AtEach BreakEscaped w := by
  have hordinary : Ordinary '\\' quote := by rcases h with rfl | rfl <;> decide
  have hsplit : ∀ inner, AtEach (Quotable quote false) inner ↔
      AtEach (Quotable quote true) inner ∧ AtEach BreakEscaped inner := by
    intro inner
    refine (Iff.of_eq (congrArg (AtEach · inner) ?_)).trans AtEach.and_iff
    funext before c
    simp [Quotable]
  rw [mem_language_quotedPattern_iff h, mem_language_quotedPattern_iff h]
  constructor
  · rintro ⟨inner, rfl, hinner⟩
    obtain ⟨hbare, hescaped⟩ := (hsplit inner).mp hinner
    exact ⟨⟨inner, rfl, hbare⟩, (breaksEscaped_quoted_iff hordinary).mpr hescaped⟩
  · rintro ⟨⟨inner, rfl, hbare⟩, hescaped⟩
    exact ⟨inner, rfl, (hsplit inner).mpr ⟨hbare, (breaksEscaped_quoted_iff hordinary).mp hescaped⟩⟩

end Quoted

end Selectors
