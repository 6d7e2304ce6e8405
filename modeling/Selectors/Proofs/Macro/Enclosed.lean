import Selectors.Proofs.Macro.Quoted
import Selectors.Proofs.Macro.Replaced
import Selectors.Rule

/-!
# References as units

A reference is replaced by the text of an expansion, and what stands beside it may then belong to only
one of the alternatives in that text. If each definition is enclosed in a group, then every reference is
a unit. The standard macros and rules have the same texts in both ways, except for the quoted texts: there
a backslash stands before a reference to the line breaks, and belongs to the first of them only.

* `MacroTable.enclosed`: the table with enclosed definitions; **`MacroTable.expand_enclosed_iff`**: what
  its expansions are;
* `MacroTable.wholePattern?`: the pattern that a whole text has to match;
* **`MacroTable.enclosed_matches_iff`**: the texts of the standard macros and rules.
-/

namespace Selectors.MacroTable

/-- The text in a group without a number. -/
def enclose (text : Fragment) : Fragment := "(?:".toList ++ text ++ [')']

/-- The table with enclosed definitions: a reference is then replaced by its expansion in a group. -/
def enclosed (t : MacroTable) : MacroTable :=
  ⟨.ofList (t.entries.map fun (name, definition) => (name, enclose definition))⟩

/-! ## Groups around references -/

section Groups

open Macro Reference

variable {t : MacroTable} {cs text : Fragment}

theorem expand_enclose (t : MacroTable) (cs : Fragment) :
    t.expand (enclose cs) = (t.expand cs).map enclose := by
  show t.expandWithin t.size [] ('(' :: '?' :: ':' :: (cs ++ [')'])) = (t.expandWithin t.size [] cs).map _
  rw [expandWithin_cons (by decide), expandWithin_cons (by decide), expandWithin_cons (by decide),
    expandWithin_concat (by decide)]
  cases t.expandWithin t.size [] cs <;> rfl

theorem get?_enclosed (t : MacroTable) (name : String) :
    t.enclosed.get? name = (t.get? name).map enclose := by
  have hnames : ((t.entries.map fun e => (e.1, enclose e.2)).map (·.1)).Nodup := by
    rw [List.map_map]
    exact t.definitions.nodup_names
  refine Option.ext fun text => (NameMap.find?_ofList_of_nodup hnames).trans ?_
  rw [List.mem_map, Option.map_eq_some_iff]
  constructor
  · rintro ⟨⟨name, definition⟩, hentry, heq⟩
    obtain ⟨rfl, rfl⟩ := Prod.mk.inj heq
    exact ⟨definition, NameMap.mem_entries_iff.mp hentry, rfl⟩
  · rintro ⟨definition, hdef, rfl⟩
    exact ⟨(name, definition), NameMap.mem_entries_iff.mpr hdef, rfl⟩

theorem replaced_enclose_iff : t.Replaced (enclose cs) text ↔
    ∃ middle, t.expand cs = .ok middle ∧ text = enclose middle := by
  rw [← expand_eq_ok_iff, expand_enclose]
  constructor
  · intro h
    cases hmiddle : t.expand cs with
    | error e => rw [hmiddle] at h; cases h
    | ok middle =>
      rw [hmiddle] at h
      exact ⟨middle, rfl, (Except.ok.inj h).symm⟩
  · rintro ⟨middle, hmiddle, rfl⟩
    rw [hmiddle]
    rfl

/-- **A reference becomes a group around the expansion of the definition**, and everything else stays. -/
theorem expand_enclosed_iff : t.enclosed.expand cs = .ok text ↔
    (¬ HoldsReference cs ∧ text = cs) ∨
    ∃ r definition middle tail, IsFirst cs r ∧ t.get? r.target = some definition ∧
      t.enclosed.expand definition = .ok middle ∧ t.enclosed.expand r.after = .ok tail ∧
      text = r.before ++ enclose middle ++ tail := by
  rw [expand_eq_ok_iff]
  constructor
  · intro h
    cases h with
    | plain h => exact Or.inl ⟨h, rfl⟩
    | @reference _ r _ _ tail hfirst hdef hinner hnext =>
      obtain ⟨definition, hdef', rfl⟩ :=
        Option.map_eq_some_iff.mp ((get?_enclosed t r.target).symm.trans hdef)
      obtain ⟨middle, hmiddle, rfl⟩ := replaced_enclose_iff.mp hinner
      exact Or.inr ⟨r, definition, middle, tail, hfirst, hdef', hmiddle, expand_eq_ok_iff.mpr hnext, rfl⟩
  · rintro (⟨h, rfl⟩ | ⟨r, definition, middle, tail, hfirst, hdef, hmiddle, htail, rfl⟩)
    · exact .plain h
    · have hdef' : t.enclosed.get? r.target = some (enclose definition) := by
        rw [get?_enclosed, hdef]
        rfl
      exact .reference hfirst hdef' (replaced_enclose_iff.mpr ⟨middle, hmiddle, rfl⟩)
        (expand_eq_ok_iff.mp htail)

end Groups

/-- The pattern of the expanded fragment, between the start and the end of the text. -/
def wholePattern? (t : MacroTable) (fragment : Fragment) : Option Pattern :=
  (t.expand fragment).toOption.bind fun text => Pattern.read? ('^' :: enclose text ++ ['$'])

/-- The macros of quoted texts, and their quotes. -/
def quotes : List (String × List Char) :=
  [("string1", ['\"']), ("string2", ['\'']), ("string", ['\"', '\''])]

/-- The pattern of the texts between any of some quotes. -/
def quotedBy (quotes : List Char) (bare : Bool) : Pattern :=
  .ofBranches (quotes.map (quotedPattern · bare))

/-! ## Patterns of the standard table -/

/-- Between the anchors, both expansions choose between the same sequences. -/
def agrees (fragment : Fragment) : Bool :=
  (standard.wholePattern? fragment).any fun p =>
    p.describes p.inner && (standard.enclosed.wholePattern? fragment).any (·.describes p.inner)

theorem agrees_standard :
    (standard.entries.all (fun e => (quotes.map (·.1)).contains e.1 || agrees e.2) &&
      RuleTable.standard.entries.all fun e => agrees e.2) = true := by decide +kernel

theorem quotes_standard : (quotes.all fun e => (standard.get? e.1).all fun definition =>
    (standard.wholePattern? definition).any (·.describes (quotedBy e.2 true)) &&
      (standard.enclosed.wholePattern? definition).any (·.describes (quotedBy e.2 false))) = true := by
  decide +kernel

/-! ## Texts -/

variable {t : MacroTable} {fragment : Fragment} {name : String} {w : List Char}

theorem exists_wholePattern {r : Pattern} (h : (t.wholePattern? fragment).any (·.describes r) = true) :
    ∃ p, t.wholePattern? fragment = some p ∧
      ∀ w, (p.automaton.find? 0 w).isSome = true ↔ w ∈ r.language := by
  obtain ⟨p, hp, hdescribes⟩ := (Option.any_eq_true ..).mp h
  exact ⟨p, hp, Pattern.find?_isSome_iff_of_describes hdescribes⟩

theorem exists_wholePattern_of_agrees (h : agrees fragment = true) :
    ∃ plain enclosed, standard.wholePattern? fragment = some plain ∧
      standard.enclosed.wholePattern? fragment = some enclosed ∧
      ∀ w, (enclosed.automaton.find? 0 w).isSome = true ↔ (plain.automaton.find? 0 w).isSome = true := by
  obtain ⟨plain, hplain, h⟩ := (Option.any_eq_true ..).mp h
  obtain ⟨hdescribes, henclosed⟩ := (Bool.and_eq_true ..).mp h
  obtain ⟨enclosed, henclosed, hiff⟩ := exists_wholePattern henclosed
  refine ⟨plain, enclosed, hplain, henclosed, fun w => ?_⟩
  rw [hiff, Pattern.find?_isSome_iff_of_describes hdescribes]

theorem isQuote_of_mem_quotes {quote : Char} {qs : List Char} (h : (name, qs) ∈ quotes)
    (hquote : quote ∈ qs) : IsQuote quote := by
  have hall : ∀ e ∈ quotes, ∀ c ∈ e.2, IsQuote c := by simp [quotes, IsQuote]
  exact hall _ h quote hquote

theorem mem_language_quotedBy {qs : List Char} {bare : Bool} (h : (name, qs) ∈ quotes) :
    w ∈ (quotedBy qs bare).language ↔ ∃ quote ∈ qs, w ∈ (quotedPattern quote bare).language := by
  have hne : ∀ e ∈ quotes, e.2 ≠ [] := by simp [quotes]
  unfold quotedBy
  rw [Pattern.mem_language_ofBranches (List.map_eq_nil_iff.not.mpr (hne _ h))]
  simp only [List.mem_map, exists_exists_and_eq_and]

theorem exists_wholePattern_of_quotes {qs : List Char} (h : (name, qs) ∈ quotes)
    (hfragment : standard.get? name = some fragment) :
    ∃ plain enclosed, standard.wholePattern? fragment = some plain ∧
      standard.enclosed.wholePattern? fragment = some enclosed ∧
      (∀ w, (plain.automaton.find? 0 w).isSome = true ↔ w ∈ (quotedBy qs true).language) ∧
      ∀ w, (enclosed.automaton.find? 0 w).isSome = true ↔
        (plain.automaton.find? 0 w).isSome = true ∧ AtEach BreakEscaped w := by
  have hall := List.all_eq_true.mp quotes_standard _ h
  simp only [hfragment, Option.all_some, Bool.and_eq_true] at hall
  obtain ⟨plain, hplain, hbare⟩ := exists_wholePattern hall.1
  obtain ⟨enclosed, henclosed, hescaped⟩ := exists_wholePattern hall.2
  refine ⟨plain, enclosed, hplain, henclosed, hbare, fun w => ?_⟩
  rw [hbare, hescaped, mem_language_quotedBy h, mem_language_quotedBy h]
  constructor
  · rintro ⟨quote, hquote, hw⟩
    obtain ⟨hw, hbreaks⟩ := (mem_language_escaped_iff (isQuote_of_mem_quotes h hquote)).mp hw
    exact ⟨⟨quote, hquote, hw⟩, hbreaks⟩
  · rintro ⟨⟨quote, hquote, hw⟩, hbreaks⟩
    exact ⟨quote, hquote, (mem_language_escaped_iff (isQuote_of_mem_quotes h hquote)).mpr ⟨hw, hbreaks⟩⟩

/-- **A reference is a unit, unless it stands in a quoted text.** A standard macro or rule matches the
same whole texts with groups around its references and without; but a quoted text is matched with groups
only if an escape stands right before each carriage return and each form feed in it. -/
theorem enclosed_matches_iff (h : (∃ name, standard.get? name = some fragment) ∨
      ∃ kind, RuleTable.standard.pattern? kind = some fragment) :
    ∃ plain enclosed, standard.wholePattern? fragment = some plain ∧
      standard.enclosed.wholePattern? fragment = some enclosed ∧
      ∀ w, (enclosed.automaton.find? 0 w).isSome = true ↔ (plain.automaton.find? 0 w).isSome = true ∧
        ((∃ e ∈ quotes, standard.get? e.1 = some fragment) → AtEach BreakEscaped w) := by
  by_cases hquotes : ∃ e ∈ quotes, standard.get? e.1 = some fragment
  · obtain ⟨⟨name, qs⟩, hmem, hfragment⟩ := hquotes
    obtain ⟨plain, enclosed, hplain, henclosed, -, hiff⟩ := exists_wholePattern_of_quotes hmem hfragment
    refine ⟨plain, enclosed, hplain, henclosed, fun w => (hiff w).trans (and_congr_right' ?_)⟩
    exact ⟨fun hbreaks _ => hbreaks, fun hbreaks => hbreaks ⟨_, hmem, hfragment⟩⟩
  · have hagrees : agrees fragment = true := by
      obtain ⟨hmacros, hrules⟩ := (Bool.and_eq_true ..).mp agrees_standard
      rcases h with ⟨name, hname⟩ | ⟨kind, hkind⟩
      · have hentry := List.all_eq_true.mp hmacros _ (NameMap.mem_entries_iff.mpr hname)
        refine ((Bool.or_eq_true ..).mp hentry).resolve_left fun hmem => hquotes ?_
        obtain ⟨e, he, rfl⟩ := List.mem_map.mp (List.contains_iff_mem.mp hmem)
        exact ⟨e, he, hname⟩
      · have hentry : (kind, fragment) ∈ RuleTable.standard.entries := by
          refine List.mem_filterMap.mpr ⟨kind, ?_, ?_⟩
          · cases kind <;> decide
          · rw [hkind]
            rfl
        exact List.all_eq_true.mp hrules _ hentry
    obtain ⟨plain, enclosed, hplain, henclosed, hiff⟩ := exists_wholePattern_of_agrees hagrees
    refine ⟨plain, enclosed, hplain, henclosed, fun w => (hiff w).trans (and_iff_left ?_).symm⟩
    exact fun hmem => absurd hmem hquotes

/-- The definition of texts in double quotes meets the hypothesis. -/
theorem enclosed_matches_string1 : ∃ definition plain enclosed,
    standard.get? "string1" = some definition ∧ standard.wholePattern? definition = some plain ∧
    standard.enclosed.wholePattern? definition = some enclosed ∧
    ((enclosed.automaton.find? 0 ['\"', '\\', '\r', '\"']).isSome = true ↔
      (plain.automaton.find? 0 ['\"', '\\', '\r', '\"']).isSome = true) := by
  obtain ⟨definition, hdefinition⟩ := Option.isSome_iff_exists.mp
    (show (standard.get? "string1").isSome = true by decide +kernel)
  obtain ⟨plain, enclosed, hplain, henclosed, hiff⟩ := enclosed_matches_iff (Or.inl ⟨_, hdefinition⟩)
  have hescape : EndsEscape ['\"', '\\'] := ⟨['\"'], [], rfl, Nat.zero_le _, by simp⟩
  have hbreaks : AtEach BreakEscaped ['\"', '\\', '\r', '\"'] := by
    simpa [AtEach.cons_iff, AtEach.nil, BreakEscaped] using hescape
  exact ⟨definition, plain, enclosed, hdefinition, hplain, henclosed,
    (hiff _).trans (and_iff_left fun _ => hbreaks)⟩

/-- A carriage return that no escape stands before. -/
theorem string1_matches_return : ∃ definition plain enclosed,
    standard.get? "string1" = some definition ∧ standard.wholePattern? definition = some plain ∧
    standard.enclosed.wholePattern? definition = some enclosed ∧
    (plain.automaton.find? 0 ['\"', '\r', '\"']).isSome = true ∧
    ¬ (enclosed.automaton.find? 0 ['\"', '\r', '\"']).isSome = true := by
  obtain ⟨definition, hdefinition⟩ := Option.isSome_iff_exists.mp
    (show (standard.get? "string1").isSome = true by decide +kernel)
  obtain ⟨plain, enclosed, hplain, henclosed, hbare, hiff⟩ :=
    exists_wholePattern_of_quotes List.mem_cons_self hdefinition
  have hquote : IsQuote '\"' := Or.inl rfl
  have hinner : AtEach (Quotable '\"' true) ['\r'] := by
    simp [AtEach.cons_iff, AtEach.nil, Quotable, MayFollow]
  refine ⟨definition, plain, enclosed, hdefinition, hplain, henclosed, (hbare _).mpr ?_, fun h => ?_⟩
  · exact (mem_language_quotedPattern_iff hquote).mpr ⟨_, rfl, hinner⟩
  · obtain ⟨front, digits, heq, -⟩ := ((hiff _).mp h).2 ['\"'] '\r' ['\"'] rfl (Or.inl rfl)
    have hmem : '\\' ∈ ['\"'] := heq ▸ List.mem_append_right front List.mem_cons_self
    exact absurd hmem (by decide)

end Selectors.MacroTable
