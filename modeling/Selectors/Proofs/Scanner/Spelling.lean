import Selectors.Proofs.Scanner.Spaces

/-!
# Spelling tokens

Tokens without escapes and blanks can be written one after the other, with any separators between them, and
scanning gives them back: each is one fragment, and in front of a space it is read as if the text ended there.

* `Token.IsPlain`: the tokens that may be written as they are;
* `lexBehind_joinWords`: tokens with a space between two of them;
* `spell`, **`tokenize_spell`**: tokens as they are spelled.
-/

namespace Selectors

/-! ## Tokens that may be written as they are -/

open Lexer

/-- A token whose identity has the form of its kind, with no escapes and no blanks in it. -/
structure Token.IsPlain (t : Token) : Prop where
  form : IsFragment t.kind t.identity.toList
  no_backslash : '\\' ∉ t.identity.toList
  no_blank : ∀ c ∈ t.identity.toList, Text.isBlank c = false

namespace Token

variable {t : Token}

theorem isPlain_iff : t.IsPlain ↔ IsFragment t.kind t.identity.toList ∧ '\\' ∉ t.identity.toList ∧
    t.identity.toList.any Text.isBlank = false := by
  simp only [List.any_eq_false, Bool.not_eq_true]
  exact ⟨fun ⟨hform, hslash, hblank⟩ => ⟨hform, hslash, hblank⟩,
    fun ⟨hform, hslash, hblank⟩ => ⟨hform, hslash, hblank⟩⟩

instance (t : Token) : Decidable t.IsPlain := decidable_of_iff _ isPlain_iff.symm

theorem IsPlain.fragment? (h : t.IsPlain) :
    fragment? t.identity.toList = some (t.kind, t.identity.toList.length) :=
  fragment?_of_isFragment h.form

theorem IsPlain.isWord (h : t.IsPlain) : Text.IsWord t.identity.toList :=
  ⟨(fragment?_pos h.fragment?).2, h.no_blank⟩

theorem lexBehind_joinWords {tokens : List Token} (h : ∀ t ∈ tokens, t.IsPlain) {run : List Char}
    (hrun : flush run = []) :
    lexBehind run (Text.joinWords (tokens.map (·.identity.toList))) = (tokens, []) := by
  induction tokens generalizing run with
  | nil =>
    rw [List.map_nil, Text.joinWords_nil, lexBehind_nil, hrun]
  | cons t tokens ih =>
    have ht := h t List.mem_cons_self
    have hrest := fun u hu => h u (List.mem_cons_of_mem t hu)
    cases tokens with
    | nil =>
      rw [List.map_singleton, Text.joinWords_singleton, lexBehind_of_some ht.fragment?, List.take_length,
        List.drop_length, lexBehind_nil, hrun, String.ofList_toList]
      rfl
    | cons u tokens =>
      have hread := (fragment?_append_space ht.no_backslash
        (Text.joinWords ((u :: tokens).map (·.identity.toList)))).trans ht.fragment?
      rw [List.map_cons, ← List.singleton_append, Text.joinWords_append (by simp) (by simp),
        Text.joinWords_singleton, lexBehind_of_some hread, List.take_left, List.drop_left,
        lexBehind_of_none (fragment?_space _), ih hrest (by decide), hrun, String.ofList_toList]
      rfl

end Token

/-! ## Spelling -/

/-- Tokens as they are written, each behind the text in front of it. -/
def spell (pieces : List (String × Token)) : String := .join (pieces.map fun p => p.1 ++ p.2.identity)

theorem toList_spell (pieces : List (String × Token)) :
    (spell pieces).toList = Text.spaced (pieces.map fun p => (p.1.toList, p.2.identity.toList)) := by
  unfold spell Text.spaced
  rw [String.toList_join, List.flatMap_map, List.flatMap_map]
  simp only [String.toList_append]

section

variable {pieces : List (String × Token)} {trail : String} (htokens : ∀ p ∈ pieces, p.2.IsPlain)
  (hlead : ∀ p ∈ pieces.head?, ∀ c ∈ p.1.toList, Text.isBlank c = true)
  (hgaps : ∀ p ∈ pieces.tail, p.1 ≠ "" ∧ ∀ c ∈ p.1.toList, Text.isSeparator c = true)
  (htrail : ∀ c ∈ trail.toList, Text.isBlank c = true)
include htokens hlead hgaps htrail

theorem normalizeChars_spell : Text.normalizeChars (spell pieces ++ trail).toList =
    Text.joinWords ((pieces.map (·.2)).map (·.identity.toList)) := by
  rw [String.toList_append, toList_spell]
  cases pieces with
  | nil => exact Text.normalizeChars_append (fun _ hc => absurd hc List.not_mem_nil) htrail []
  | cons p pieces =>
    have hpieces : ∀ q ∈ pieces.map fun p => (p.1.toList, p.2.identity.toList),
        Text.IsGap q.1 ∧ Text.IsWord q.2 := by
      intro q hq
      obtain ⟨p', hp', rfl⟩ := List.mem_map.mp hq
      obtain ⟨hne, hgap⟩ := hgaps p' hp'
      exact ⟨⟨fun hnil => hne (String.toList_eq_nil_iff.mp hnil), hgap⟩,
        (htokens p' (List.mem_cons_of_mem p hp')).isWord⟩
    have hfirst := (htokens p List.mem_cons_self).isWord
    have hspaced := Text.normalizeChars_spaced hpieces hfirst (hlead p rfl) htrail
    rw [List.map_cons, Text.spaced_cons, List.append_assoc p.1.toList, hspaced, List.map_map, List.map_cons,
      List.map_cons, List.map_map]
    rfl

/-- **Plain tokens are scanned as they were spelled**: with blanks before the first and behind the last and
separators between two of them, scanning gives the tokens, and skips nothing. -/
theorem tokenize_spell : tokenize (spell pieces ++ trail) = pieces.map (·.2) ∧
    (Scanner.standard.run (spell pieces ++ trail)).skipped = [] := by
  have hplain : ∀ t ∈ pieces.map (·.2), t.IsPlain := by
    intro t ht
    obtain ⟨p, hp, rfl⟩ := List.mem_map.mp ht
    exact htokens p hp
  have hlex : lex (normalize (spell pieces ++ trail)).toList = (pieces.map (·.2), []) := by
    rw [toList_normalize, normalizeChars_spell htokens hlead hgaps htrail]
    exact Token.lexBehind_joinWords hplain rfl
  rw [Scanner.tokenize_eq, Scanner.skipped_eq, hlex]
  exact ⟨rfl, rfl⟩

end

/-- A no-break space in front, tabs and line feeds between, and signs, digits and letters that are not ASCII. -/
theorem tokenize_signed_chain :
    tokenize "\u00a0 -a#b2\t\n@é-1 :x\u3000" =
        [⟨"-a#b2", .nameAndId⟩, ⟨"@é-1", .element⟩, ⟨":x", .pseudoClass⟩] ∧
      (Scanner.standard.run "\u00a0 -a#b2\t\n@é-1 :x\u3000").skipped = [] := by
  have hgap : ∀ s : String, s ≠ "" → s.toList.all Text.isSeparator = true →
      s ≠ "" ∧ ∀ c ∈ s.toList, Text.isSeparator c = true :=
    fun _ hne h => ⟨hne, List.all_eq_true.mp h⟩
  refine @tokenize_spell
    [("\u00a0 ", ⟨"-a#b2", .nameAndId⟩), ("\t\n", ⟨"@é-1", .element⟩), (" ", ⟨":x", .pseudoClass⟩)]
    "\u3000" (by decide +kernel) ?_ ?_ (List.all_eq_true.mp (by decide +kernel))
  · rintro p ⟨rfl⟩
    exact List.all_eq_true.mp (by decide +kernel)
  · exact List.forall_mem_cons.mpr ⟨hgap _ (by decide) (by decide +kernel),
      List.forall_mem_singleton.mpr (hgap _ (by decide) (by decide +kernel))⟩

end Selectors
