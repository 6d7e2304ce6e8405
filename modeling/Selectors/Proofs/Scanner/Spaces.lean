import Selectors.Proofs.Scanner.Grammar
import Selectors.Proofs.Scanner.Lexed

/-!
# Spaces part tokens

An identifier holds a space only behind a backslash. So in a text without backslashes the lexer reads the same
whether the text ends or goes on with a space, and behind the space it starts afresh. What is skipped on both
sides of the space may become one skipped text; the tokens are those of the two texts.

* **`fragment?_append_space`**: what is read in front of a space;
* `tokens_lexBehind`: tokens do not depend on what was skipped before them;
* **`tokens_append_space`**, **`tokenize_append_space`**: the tokens of two texts with a space between them.
-/

namespace Selectors

namespace Lexer

variable {isChar : Char → Bool} {cs : List Char} {mark : Char}

/-! ## Reading up to a space -/

section

variable (h : '\\' ∉ cs) (t : List Char)
include h

theorem item?_append_space (hspace : isChar ' ' = false) :
    item? isChar (cs ++ ' ' :: t) = item? isChar cs := by
  cases cs with
  | nil => exact (if_neg (Bool.eq_false_iff.mp hspace)).trans (escape?_of_ne (by decide) t)
  | cons c cs =>
    have hc : c ≠ '\\' := fun hc => h (hc ▸ List.mem_cons_self)
    rw [List.cons_append, item?, item?, escape?_of_ne hc, escape?_of_ne hc]

theorem items_append_space : items (cs ++ ' ' :: t) = items cs := by
  induction cs with
  | nil => rw [List.nil_append, items_space, items_of_none rfl]
  | cons c cs ih =>
    have hitem : item? isName (c :: cs ++ ' ' :: t) = item? isName (c :: cs) :=
      item?_append_space h t (by decide)
    by_cases hc : isName c = true
    · rw [List.cons_append, items_of_isName hc, items_of_isName hc,
        ih fun hmem => h (List.mem_cons_of_mem c hmem)]
    · have hnone : item? isName (c :: cs) = none := by
        rw [item?, if_neg hc]
        exact escape?_of_ne (fun heq => h (heq ▸ List.mem_cons_self)) cs
      rw [items_of_none hnone, items_of_none (hitem.trans hnone)]

omit h in
theorem sign_append_space : sign (cs ++ ' ' :: t) = sign cs := by
  cases cs with
  | nil | cons => rfl

omit h in
theorem sign_le (cs : List Char) : sign cs ≤ cs.length := by
  unfold sign
  cases cs with
  | nil => exact Nat.le_refl 0
  | cons c cs => split <;> simp

theorem ident?_append_space : ident? (cs ++ ' ' :: t) = ident? cs := by
  have hdrop : ∀ n, '\\' ∉ cs.drop n := fun n hmem => h (List.mem_of_mem_drop hmem)
  unfold ident?
  rw [sign_append_space, List.drop_append_of_le_length (sign_le cs),
    item?_append_space (hdrop _) t (by decide)]
  cases hi : item? isStart (cs.drop (sign cs)) with
  | none => rfl
  | some n =>
    have hn := (item?_bounds hi).2
    rw [List.length_drop] at hn
    have hle : sign cs + n ≤ cs.length := by
      have := sign_le cs
      have := (item?_bounds hi).1
      omega
    rw [Option.map_some, Option.map_some, List.drop_append_of_le_length hle,
      items_append_space (hdrop _)]

theorem marked?_append_space (hmark : mark ≠ ' ') : marked? mark (cs ++ ' ' :: t) = marked? mark cs := by
  cases cs with
  | nil => exact if_neg hmark.symm
  | cons c cs =>
    rw [List.cons_append, marked?, marked?, ident?_append_space fun hmem => h (List.mem_cons_of_mem c hmem)]

theorem pair?_append_space (hmark : mark ≠ ' ') : pair? mark (cs ++ ' ' :: t) = pair? mark cs := by
  unfold pair?
  rw [ident?_append_space h]
  cases hi : ident? cs with
  | none => rfl
  | some n =>
    have hdrop : '\\' ∉ cs.drop n := fun hmem => h (List.mem_of_mem_drop hmem)
    rw [Option.bind_some, Option.bind_some, List.drop_append_of_le_length (isIdent_of_ident? hi).1,
      marked?_append_space hdrop t hmark]

theorem length?_append_space (kind : RuleKind) : length? kind (cs ++ ' ' :: t) = length? kind cs := by
  cases kind with
  | nameAndId | nameAndClass => exact pair?_append_space h t (by decide)
  | id | className | pseudoClass => exact marked?_append_space h t (by decide)
  | element => exact ident?_append_space h t

/-- **In front of a space a text without backslashes is read as if it ended there.** -/
theorem fragment?_append_space : fragment? (cs ++ ' ' :: t) = fragment? cs := by
  unfold fragment?
  simp only [length?_append_space h t]

end

theorem fragment?_space (t : List Char) : fragment? (' ' :: t) = none :=
  fragment?_append_space List.not_mem_nil t

theorem fragment?_le {kind : RuleKind} {n : Nat} (h : fragment? cs = some (kind, n)) : n ≤ cs.length :=
  (isFragment_of_length? (length?_of_fragment? h)).1

/-! ## Lexing -/

/-- **Tokens do not depend on what was skipped before them.** -/
theorem tokens_lexBehind (run cs : List Char) : (lexBehind run cs).1 = (lex cs).1 := by
  unfold lex
  generalize [] = run'
  induction cs generalizing run run' with
  | nil => rw [lexBehind_nil, lexBehind_nil]
  | cons c cs ih =>
    cases hf : fragment? (c :: cs) with
    | none => rw [lexBehind_of_none hf, lexBehind_of_none hf, ih]
    | some f => rw [lexBehind_of_some hf, lexBehind_of_some hf]

theorem tokens_append_space (h : '\\' ∉ cs) (run t : List Char) :
    (lexBehind run (cs ++ ' ' :: t)).1 = (lexBehind run cs).1 ++ (lex t).1 := by
  induction hl : cs.length using Nat.strong_induction_on generalizing cs run with
  | h l ih =>
  have happend := fragment?_append_space h t
  cases cs with
  | nil => rw [List.nil_append, lexBehind_of_none (fragment?_space t), tokens_lexBehind, lexBehind_nil,
      List.nil_append]
  | cons c cs =>
    cases hf : fragment? (c :: cs) with
    | none =>
      rw [hf] at happend
      rw [List.cons_append] at happend ⊢
      rw [lexBehind_of_none happend, lexBehind_of_none hf]
      exact ih cs.length (hl ▸ Nat.lt_succ_self _) (fun hmem => h (List.mem_cons_of_mem c hmem)) _ rfl
    | some f =>
      obtain ⟨kind, n⟩ := f
      -- the fragment ends before the space, so what is left has the same form
      have hle := fragment?_le hf
      have hdrop : '\\' ∉ (c :: cs).drop n := fun hmem => h (List.mem_of_mem_drop hmem)
      rw [hf] at happend
      rw [lexBehind_of_some happend, lexBehind_of_some hf, List.take_append_of_le_length hle,
        List.drop_append_of_le_length hle, ih _ (hl ▸ length_drop_lt hf) hdrop [] rfl]
      rfl

end Lexer

/-! ## Tokens of selectors -/

open Lexer

/-- **The tokens of two selectors in normal form with a space between them** are those of the first and then
those of the second, if there is no backslash in the first. -/
theorem tokenize_append_space {a b : String} (ha : normalize a = a) (hb : normalize b = b)
    (h : '\\' ∉ a.toList) : tokenize (a ++ " " ++ b) = tokenize a ++ tokenize b := by
  have has := congrArg String.toList ha
  have hbs := congrArg String.toList hb
  rw [toList_normalize] at has hbs
  have htext : (a ++ " " ++ b).toList = a.toList ++ [' '] ++ b.toList := by
    rw [String.toList_append, String.toList_append]
    rfl
  have hblank : ∀ c ∈ [' '], Text.isBlank c = true := List.forall_mem_singleton.mpr rfl
  have hnone : ∀ c ∈ [], Text.isBlank c = true := fun _ hc => absurd hc List.not_mem_nil
  have hnil : (lex []).1 = [] := by rw [lex, lexBehind_nil]
  simp only [Scanner.tokenize_eq, toList_normalize, htext, has, hbs]
  by_cases hane : a.toList = []
  · have hnormal := Text.normalizeChars_append hblank hnone b.toList
    rw [List.append_nil, hbs] at hnormal
    rw [hane, List.nil_append, hnormal, hnil, List.nil_append]
  by_cases hbne : b.toList = []
  · have hnormal := Text.normalizeChars_append hnone hblank a.toList
    rw [List.nil_append, has] at hnormal
    rw [hbne, List.append_nil, hnormal, hnil, List.append_nil]
  · rw [← List.append_cons, Text.normalizeChars_append_space has hbs hane hbne]
    exact tokens_append_space h [] _

/-- The space parts a dangling dot from the tokens behind it. -/
theorem tokenize_dangling_dot : normalize "ul x." = "ul x." ∧ normalize "y > -z" = "y > -z" ∧
    tokenize "ul x. y > -z" =
      [⟨"ul", .element⟩, ⟨"x", .element⟩, ⟨"y", .element⟩, ⟨"-z", .element⟩] := by
  have ha : normalize "ul x." = "ul x." := by decide +kernel
  have hb : normalize "y > -z" = "y > -z" := by decide +kernel
  refine ⟨ha, hb, (tokenize_append_space ha hb (by decide)).trans ?_⟩
  rw [Scanner.tokenize_eq, Scanner.tokenize_eq]
  decide +kernel

end Selectors
