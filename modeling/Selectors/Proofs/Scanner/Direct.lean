import Selectors.Proofs.Macro.Replaced
import Selectors.Proofs.Scanner.Outcome

/-!
# Rules that are expanded directly

A scanner expands the macros first, and then the rules against the expanded macros. If no macro comes to
spell a reference when it is expanded, its text is replaced by itself the second time. So fragments have
the same expansions as against the macros themselves, and the same failures.

* `MacroTable.Clean`: no macro comes to spell a reference;
* `Replaced.of_expandAll`, `Sound.of_expandAll`: the expanded table of a clean one;
* **`Sound.expand_of_expandAll`**: both tables expand a fragment alike;
* **`expand_in_two_stages`**: and compiling expands the rules directly.
-/

namespace Selectors

open Macro MacroTable

namespace MacroTable

variable {t literal : MacroTable} {cs text : Fragment}

/-! ## Clean tables -/

/-- **No macro expands to a text that contains a complete reference.** -/
def Clean (t : MacroTable) : Prop :=
  ∀ entry ∈ t.entries, ∀ text, t.expand entry.2 = .ok text → ¬ HoldsReference text

instance : DecidablePred HoldsReference := fun cs =>
  decidable_of_iff (references cs ≠ []) (by rw [Ne, references_eq_nil_iff, not_not])

theorem clean_iff : t.Clean ↔
    ∀ entry ∈ t.entries, ∀ text ∈ (t.expand entry.2).toOption, ¬ HoldsReference text := by
  apply forall₂_congr
  intro entry _
  cases t.expand entry.2 <;> simp [Except.toOption]

instance (t : MacroTable) : Decidable t.Clean := decidable_of_iff _ clean_iff.symm

/-! ## The expanded table -/

section

variable (hclean : t.Clean) (h : t.expandAll = .ok literal)
include hclean h

theorem Clean.not_holdsReference {name : String} (htext : literal.get? name = some text) :
    ¬ HoldsReference text := by
  obtain ⟨definition, hdef, hexpand⟩ := (get?_expandAll h).mp htext
  exact hclean _ (NameMap.mem_entries_iff.mpr hdef) text hexpand

theorem Sound.of_expandAll : literal.Sound := by
  have hrefers : ∀ a b, ¬ literal.Refers a b := by
    rintro a b ⟨text, htext, hb⟩
    rw [references_eq_nil_iff.mpr (hclean.not_holdsReference h htext)] at hb
    exact absurd hb List.not_mem_nil
  refine ⟨fun a b hab => absurd hab (hrefers a b), fun a _ hself => ?_⟩
  obtain ⟨b, hb, -⟩ := Relation.TransGen.head'_iff.mp hself
  exact hrefers a b hb

theorem Replaced.of_expandAll (hreplaced : t.Replaced cs text) : literal.Replaced cs text := by
  induction hreplaced with
  | plain hplain => exact .plain hplain
  | reference hfirst hdef inner _ _ ih =>
    have hliteral := (get?_expandAll h).mpr ⟨_, hdef, expand_eq_ok_iff.mpr inner⟩
    exact .reference hfirst hliteral (.plain (hclean.not_holdsReference h hliteral)) ih

end

theorem Sound.names_expandAll (ht : t.Sound) (h : t.expandAll = .ok literal) :
    literal.definitions.names = t.definitions.names := by
  apply List.Pairwise.eq_of_mem_iff (List.pairwise_map.mpr literal.definitions.sorted)
    (List.pairwise_map.mpr t.definitions.sorted)
  intro name
  exact mem_names_iff.trans ((ht.defined_expandAll_iff h).trans mem_names_iff.symm)

theorem Sound.firstUndefined?_expandAll (ht : t.Sound) (h : t.expandAll = .ok literal)
    (cs : Fragment) : literal.firstUndefined? cs = t.firstUndefined? cs := by
  unfold firstUndefined?
  congr 1
  funext name
  have hdefined : (literal.get? name).isSome ↔ (t.get? name).isSome := ht.defined_expandAll_iff h
  rw [← Option.not_isSome, ← Option.not_isSome, Bool.eq_iff_iff.mpr hdefined]

/-- **Fragments are expanded alike** against a clean table and against the expanded one. -/
theorem Sound.expand_of_expandAll (ht : t.Sound) (hclean : t.Clean) (h : t.expandAll = .ok literal)
    (cs : Fragment) : literal.expand cs = t.expand cs := by
  cases hexpand : t.expand cs with
  | ok text =>
    exact expand_eq_ok_iff.mpr ((expand_eq_ok_iff.mp hexpand).of_expandAll hclean h)
  | error e =>
    obtain ⟨x, hx, he⟩ := ht.expand_eq_error_iff.mp hexpand
    rw [← ht.firstUndefined?_expandAll h] at hx
    exact (Sound.of_expandAll hclean h).expand_eq_error_iff.mpr ⟨x, hx, he⟩

end MacroTable

namespace Scanner

variable {pairs : List (String × Fragment)} {t : MacroTable}

/-! ## The scanner -/

/-- The scanner of rules that are expanded against `t` as it is. -/
def ofRules (t : MacroTable) (rules : RuleTable) : Except ScannerError Scanner :=
  (rules.entries.mapM (expandEntry t)).bind ofGroups

/-- **Expanding in two stages is expanding at once**, if no macro of a checked table comes to spell a
reference: the expanded table has the same names, all fragments have the same expansion or the same
failure, and a scanner is the one of the rules expanded against the macros themselves. -/
theorem expand_in_two_stages (h : ofList? pairs = .ok t) (hclean : t.Clean) :
    ∃ literal, t.expandAll = .ok literal ∧ literal.definitions.names = t.definitions.names ∧
      (∀ cs, literal.expand cs = t.expand cs) ∧
      ∀ rules, compile ⟨t, rules⟩ = ofRules t rules := by
  obtain ⟨-, hsound⟩ := sound_of_ofList? h
  obtain ⟨literal, hliteral⟩ := hsound.exists_expandAll
  have hexpand := hsound.expand_of_expandAll hclean hliteral
  refine ⟨literal, hliteral, hsound.names_expandAll hliteral, hexpand, fun rules => ?_⟩
  have hentry : expandEntry literal = expandEntry t := by
    funext ⟨kind, rule⟩
    simp only [expandEntry_eq, expandRule, hexpand]
  rw [compile_of_expandAll (c := ⟨t, rules⟩) hliteral, hentry, ofRules]

/-- The macros of selectors are clean. -/
theorem expand_standard_in_two_stages : ∃ literal, MacroTable.standard.expandAll = .ok literal ∧
    literal.definitions.names = MacroTable.standard.definitions.names ∧
    (∀ cs, literal.expand cs = MacroTable.standard.expand cs) ∧
    ∀ rules, compile ⟨.standard, rules⟩ = ofRules .standard rules := by
  have hstandard : ofList? MacroTable.standard.entries = .ok .standard := by decide +kernel
  have hclean : MacroTable.standard.Clean := by decide +kernel
  exact expand_in_two_stages hstandard hclean

end Scanner

end Selectors
