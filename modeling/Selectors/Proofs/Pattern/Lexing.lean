import Selectors.Pattern.Lexer

/-!
# Lexing inside of a group

The lexemes of a text do not depend on the groups around it, as long as it closes none of them. They do
depend on the comments: a text that ends inside of one swallows what is written behind it.

* `PatternLexer.within`: a lexer inside of more groups; **`PatternLexer.feed_within`**: it reads the same
  lexemes;
* `PatternLexer.lexemes?`: the lexemes of a text; `PatternLexer.lexemes?_within`;
* `EndsInComment`: a text ends inside of a comment; **`not_endsInComment`**: none does that never sets the
  flag.
-/

namespace Selectors

namespace PatternLexer

variable {l l' : PatternLexer} {c : Char} {lexeme : Lexeme} {lexemes : List Lexeme} {text : List Char}

/-! ## More groups around -/

/-- A lexer inside of more groups; `around` is the flag in these, the innermost first. -/
def within (around : List Bool) (l : PatternLexer) : PatternLexer := { l with outer := l.outer ++ around }

theorem scope?_within (around : List Bool) (h : l.scope? lexeme = some l') :
    (l.within around).scope? lexeme = some (l'.within around) := by
  cases lexeme with
  | opening kind => cases kind <;> (obtain rfl := Option.some.inj h; rfl)
  | closing =>
    obtain ⟨mode, verbose, outer, comment, counted⟩ := l
    cases outer with
    | nil => cases h
    | cons v outer =>
      obtain rfl := Option.some.inj h
      rfl
  | _ =>
    obtain rfl := Option.some.inj h
    rfl

theorem scopes?_within (around : List Bool) (h : lexemes.foldlM scope? l = some l') :
    lexemes.foldlM scope? (l.within around) = some (l'.within around) := by
  induction lexemes generalizing l with
  | nil =>
    obtain rfl := Option.some.inj h
    rfl
  | cons lexeme lexemes ih =>
    rw [List.foldlM_cons] at h ⊢
    obtain ⟨q, hq, h⟩ := Option.bind_eq_some_iff.mp h
    rw [scope?_within around hq]
    exact ih h

theorem feed_eq_some_iff : l.feed c = some (l', lexemes) ↔
    (l.skips c = true ∧ l.skip c = (l', lexemes)) ∨
      (l.skips c = false ∧ ∃ mode next, l.mode.feed c = some (mode, lexemes) ∧
        lexemes.foldlM scope? l = some next ∧ l' = { next with mode, counted := l.mode.isCount }) := by
  unfold feed
  cases hskips : l.skips c with
  | true => simp
  | false =>
    simp only [Bool.false_eq_true, if_false, false_and, false_or, true_and]
    constructor
    · intro h
      obtain ⟨⟨mode, ls⟩, hfeed, h⟩ := Option.bind_eq_some_iff.mp h
      obtain ⟨next, hnext, h⟩ := Option.bind_eq_some_iff.mp h
      obtain ⟨rfl, rfl⟩ := Prod.mk.inj (Option.some.inj h)
      exact ⟨mode, next, hfeed, hnext, rfl⟩
    · rintro ⟨mode, next, hfeed, hnext, rfl⟩
      rw [hfeed]
      show (lexemes.foldlM scope? l).bind _ = _
      rw [hnext]
      rfl

/-- **The groups around make no difference** for the lexemes of a code point. -/
theorem feed_within (around : List Bool) (h : l.feed c = some (l', lexemes)) :
    (l.within around).feed c = some (l'.within around, lexemes) := by
  rcases feed_eq_some_iff.mp h with ⟨hskips, hskip⟩ | ⟨hskips, mode, next, hfeed, hnext, rfl⟩
  · obtain ⟨rfl, rfl⟩ := Prod.mk.inj hskip
    exact feed_eq_some_iff.mpr (.inl ⟨hskips, rfl⟩)
  · exact feed_eq_some_iff.mpr (.inr ⟨hskips, mode, next.within around, hfeed,
      scopes?_within around hnext, rfl⟩)

/-! ## The lexemes of a text -/

/-- The lexemes of a text, and the lexer at its end. -/
def lexemes? (l : PatternLexer) : List Char → Option (PatternLexer × List Lexeme)
  | [] => some (l, [])
  | c :: cs => do
    let (next, first) ← l.feed c
    let (last, rest) ← next.lexemes? cs
    return (last, first ++ rest)

theorem lexemes?_cons_eq_some_iff : l.lexemes? (c :: text) = some (l', lexemes) ↔
    ∃ next first rest, l.feed c = some (next, first) ∧ next.lexemes? text = some (l', rest) ∧
      lexemes = first ++ rest := by
  constructor
  · intro h
    obtain ⟨⟨next, first⟩, hfirst, h⟩ := Option.bind_eq_some_iff.mp h
    obtain ⟨⟨last, rest⟩, hrest, h⟩ := Option.bind_eq_some_iff.mp h
    obtain ⟨rfl, rfl⟩ := Prod.mk.inj (Option.some.inj h)
    exact ⟨next, first, rest, hfirst, hrest, rfl⟩
  · rintro ⟨next, first, rest, hfirst, hrest, rfl⟩
    rw [lexemes?, hfirst]
    show (next.lexemes? text).bind _ = _
    rw [hrest]
    rfl

theorem lexemes?_within (around : List Bool) (h : l.lexemes? text = some (l', lexemes)) :
    (l.within around).lexemes? text = some (l'.within around, lexemes) := by
  induction text generalizing l lexemes with
  | nil =>
    obtain ⟨rfl, rfl⟩ := Prod.mk.inj (Option.some.inj h)
    rfl
  | cons c text ih =>
    obtain ⟨next, first, rest, hfirst, hrest, rfl⟩ := lexemes?_cons_eq_some_iff.mp h
    exact lexemes?_cons_eq_some_iff.mpr ⟨_, first, rest, feed_within around hfirst, ih hrest, rfl⟩

end PatternLexer

/-! ## The flag -/

theorem Flag.after_eq_false {flag : Flag} {changes : FlagChanges} (h : (flag, true) ∉ changes) :
    flag.after changes false = false := by
  unfold after
  cases hfind : changes.find? (·.1 = flag) with
  | none => rfl
  | some change =>
    obtain ⟨flag', value⟩ := change
    obtain rfl : flag' = flag := by simpa using List.find?_some hfind
    cases value with
    | false => rfl
    | true => exact absurd (List.mem_of_find?_eq_some hfind) h

/-- The flags that a lexeme changes. -/
def Lexeme.changes : Lexeme → FlagChanges
  | flags changes | opening (.plain changes) => changes
  | _ => []

/-- The lexeme sets the flag that lets blanks and comments mean nothing. -/
def Lexeme.SetsVerbose (lexeme : Lexeme) : Prop := (Flag.verbose, true) ∈ lexeme.changes

namespace PatternLexer

/-- The flag is set in no open group, and there is no comment. -/
structure Plain (l : PatternLexer) : Prop where
  verbose : l.verbose = false
  outer : ∀ v ∈ l.outer, v = false
  comment : l.comment = false

theorem plain_start : start.Plain := ⟨rfl, fun _ hv => absurd hv List.not_mem_nil, rfl⟩

namespace Plain

variable {l l' : PatternLexer} {c : Char} {lexeme : Lexeme} {lexemes : List Lexeme} {text : List Char}
  (hl : l.Plain)
include hl

theorem scope? (hlexeme : ¬ lexeme.SetsVerbose) (h : l.scope? lexeme = some l') : l'.Plain := by
  obtain ⟨mode, verbose, outer, comment, counted⟩ := l
  obtain ⟨rfl, houter, rfl⟩ := hl
  cases lexeme with
  | opening kind =>
    cases kind <;> obtain rfl := Option.some.inj h
    · exact ⟨Flag.after_eq_false hlexeme, List.forall_mem_cons.mpr ⟨rfl, houter⟩, rfl⟩
    · exact ⟨rfl, List.forall_mem_cons.mpr ⟨rfl, houter⟩, rfl⟩
  | closing =>
    cases outer with
    | nil => cases h
    | cons v outer =>
      obtain rfl := Option.some.inj h
      obtain ⟨hv, houter⟩ := List.forall_mem_cons.mp houter
      exact ⟨hv, houter, rfl⟩
  | flags changes =>
    obtain rfl := Option.some.inj h
    exact ⟨Flag.after_eq_false hlexeme, houter, rfl⟩
  | _ =>
    obtain rfl := Option.some.inj h
    exact ⟨rfl, houter, rfl⟩

theorem scopes? (hlexemes : ∀ x ∈ lexemes, ¬ x.SetsVerbose)
    (h : lexemes.foldlM PatternLexer.scope? l = some l') : l'.Plain := by
  induction lexemes generalizing l with
  | nil => exact Option.some.inj h ▸ hl
  | cons lexeme lexemes ih =>
    rw [List.foldlM_cons] at h
    obtain ⟨q, hq, h⟩ := Option.bind_eq_some_iff.mp h
    obtain ⟨hlexeme, hlexemes⟩ := List.forall_mem_cons.mp hlexemes
    exact ih (hl.scope? hlexeme hq) hlexemes h

theorem feed (hlexemes : ∀ x ∈ lexemes, ¬ x.SetsVerbose) (h : l.feed c = some (l', lexemes)) :
    l'.Plain := by
  rcases feed_eq_some_iff.mp h with ⟨hskips, -⟩ | ⟨-, mode, next, -, hnext, rfl⟩
  · rw [skips, hl.verbose, hl.comment] at hskips
    cases hskips
  · have hplain := hl.scopes? hlexemes hnext
    exact ⟨hplain.verbose, hplain.outer, hplain.comment⟩

theorem lexemes? (hlexemes : ∀ x ∈ lexemes, ¬ x.SetsVerbose)
    (h : l.lexemes? text = some (l', lexemes)) : l'.Plain := by
  induction text generalizing l lexemes with
  | nil => exact (Prod.mk.inj (Option.some.inj h)).1 ▸ hl
  | cons c text ih =>
    obtain ⟨next, first, rest, hfirst, hrest, rfl⟩ := lexemes?_cons_eq_some_iff.mp h
    obtain ⟨hfirst', hrest'⟩ := List.forall_mem_append.mp hlexemes
    exact ih (hl.feed hfirst' hfirst) hrest' hrest

end Plain

end PatternLexer

/-! ## Texts that end inside of a comment -/

/-- The text ends inside of a comment. -/
def EndsInComment (text : List Char) : Prop :=
  ((PatternLexer.start.lexemes? text).map (·.1.comment)) = some true

instance (text : List Char) : Decidable (EndsInComment text) := inferInstanceAs (Decidable (_ = _))

/-- **Only a text that sets the flag ends inside of a comment.** -/
theorem not_endsInComment {text : List Char}
    (h : ∀ l lexemes, PatternLexer.start.lexemes? text = some (l, lexemes) →
      ∀ x ∈ lexemes, ¬ x.SetsVerbose) :
    ¬ EndsInComment text := by
  intro hends
  obtain ⟨⟨l, lexemes⟩, hlexemes, hcomment⟩ := Option.map_eq_some_iff.mp hends
  have hplain := PatternLexer.plain_start.lexemes? (h l lexemes hlexemes) hlexemes
  exact Bool.noConfusion (hcomment.symm.trans hplain.comment)

/-- A comment ends with its line. -/
example : EndsInComment "(?x)a # b".toList ∧ ¬ EndsInComment "(?x)a # b\n".toList := by
  decide +kernel

end Selectors
