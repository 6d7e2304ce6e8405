import Selectors.Proofs.Macro.Checked
import Selectors.Proofs.Macro.Expansion
import Selectors.Proofs.Scanner.Outcome

/-!
# Rules that cannot be expanded

The macros of a checked table can all be expanded, so compiling fails to expand nothing but a rule. Most
often the rule refers to a macro that is not defined. But the expanded definitions are searched for
references once more: where the text of a macro and the expansion of another one in it come to spell a
reference, a rule that refers to no unknown macro may fail, and even with a cycle.

* `exists_entry_of_compile`: the rule that cannot be expanded;
* **`fault_of_compile`**: an unknown macro in a rule, or a macro whose expansion spells a reference;
* `compile_spelled`: expansions that spell a reference.
-/

namespace Selectors.Scanner

open Macro MacroTable

variable {c : Configuration} {cause : MacroError} {pairs : List (String × Fragment)} {t : MacroTable}

theorem exists_entry_of_compile (h : compile c = .error (.expansion cause)) :
    c.macros.expandAll = .error cause ∨ ∃ literal, c.macros.expandAll = .ok literal ∧
      ∃ entry ∈ c.rules.entries, literal.expand entry.2 = .error cause := by
  obtain ⟨r, hr⟩ := exists_outcome c
  have hcompile := compile_of_outcome hr
  rw [h] at hcompile
  obtain rfl : .error (.expansion cause) = r := hcompile
  cases hr with
  | macros hmacros => exact Or.inl hmacros
  | @unexpanded literal before behind kind rule cause hmacros hentries _ hexpand =>
    refine Or.inr ⟨literal, hmacros, (kind, rule), ?_, hexpand⟩
    rw [hentries]
    exact List.mem_append_right before List.mem_cons_self

/-- **Why a rule cannot be expanded, if the macros can**: it refers to a macro that is not defined, or to
one whose expansion spells a reference, and there is a fault behind that. -/
theorem fault_of_compile (h : ofList? pairs = .ok t) (rules : RuleTable) :
    ∃ literal, t.expandAll = .ok literal ∧
      ∀ cause, compile ⟨t, rules⟩ = .error (.expansion cause) →
        (∃ x, cause = .undefined x ∧ ¬ t.Defined x ∧
          ∃ entry ∈ rules.entries, x ∈ references entry.2) ∨
        ∃ entry ∈ rules.entries, ∃ name ∈ references entry.2, ∃ definition text,
          t.get? name = some definition ∧ t.expand definition = .ok text ∧ references text ≠ [] ∧
            literal.MeetsFault name cause := by
  obtain ⟨-, hsound⟩ := sound_of_ofList? h
  obtain ⟨literal, hliteral⟩ := hsound.exists_expandAll
  refine ⟨literal, hliteral, fun cause hcompile => ?_⟩
  obtain ⟨entry, hentry, hexpand⟩ : ∃ entry ∈ rules.entries, literal.expand entry.2 = .error cause := by
    rcases exists_entry_of_compile hcompile with herror | ⟨literal', hliteral', hentry⟩
    · rw [hliteral] at herror
      cases herror
    · obtain rfl := Except.ok.inj (hliteral.symm.trans hliteral')
      exact hentry
  obtain ⟨name, hname, hfault⟩ := exists_meetsFault_of_expand hexpand
  rcases hfault.cases with ⟨rfl, hundefined⟩ | ⟨b, text, htext, hb⟩
  · rw [hsound.defined_expandAll_iff hliteral] at hundefined
    exact Or.inl ⟨name, rfl, hundefined, entry, hentry, hname⟩
  · obtain ⟨definition, hdef, hexpand⟩ := (get?_expandAll hliteral).mp htext
    exact Or.inr ⟨entry, hentry, name, hname, definition, text, hdef, hexpand,
      List.ne_nil_of_mem hb, hfault⟩

/-- A rule that refers to an unknown macro, behind one whose macros expand to plain text. -/
theorem fault_of_unknown_macro : ∃ t,
    ofList? [("bracket", "[#{mark}]".toList), ("mark", "#".toList), ("pair", "#{mark}{2}".toList)] =
      .ok t ∧
    compile ⟨t, .ofList [(.nameAndId, "#{bracket}".toList), (.id, "##{identifier}".toList)]⟩ =
      .error (.expansion (.undefined "identifier")) ∧
    ¬ t.Defined "identifier" ∧
    ∃ entry ∈ RuleTable.entries (.ofList [(.nameAndId, "#{bracket}".toList),
      (.id, "##{identifier}".toList)]), "identifier" ∈ references entry.2 := by
  let t : MacroTable := ofPairs
    [("bracket", "[#{mark}]".toList), ("mark", "#".toList), ("pair", "#{mark}{2}".toList)]
  let rules : RuleTable := .ofList [(.nameAndId, "#{bracket}".toList), (.id, "##{identifier}".toList)]
  have ht : ofList? [("bracket", "[#{mark}]".toList), ("mark", "#".toList),
      ("pair", "#{mark}{2}".toList)] = .ok t := by decide +kernel
  have hcompile : compile ⟨t, rules⟩ = .error (.expansion (.undefined "identifier")) := by
    decide +kernel
  obtain ⟨literal, -, hfault⟩ := fault_of_compile ht rules
  refine ⟨t, ht, hcompile, ?_⟩
  rcases hfault _ hcompile with ⟨x, hx, hundefined, hentry⟩ |
    ⟨entry, hentry, name, hname, definition, text, hdef, hexpand, hspelled, -⟩
  · cases hx
    exact ⟨hundefined, hentry⟩
  · -- the macro of the first rule is plain when it is expanded, and the other one is unknown
    have hplain : ∀ entry ∈ rules.entries, ∀ name ∈ references entry.2,
        ∀ definition ∈ t.get? name, (t.expand definition).toOption.all (references · = []) := by
      decide +kernel
    have := hplain entry hentry name hname definition hdef
    rw [hexpand] at this
    exact absurd (of_decide_eq_true this) hspelled

/-- **Expansions that spell a reference**: the rules refer to macros of the table, and yet they cannot be
expanded, once because of an unknown macro and once because of a cycle. -/
theorem compile_spelled :
    (∃ t, ofList? [("mark", "#".toList), ("pair", "#{mark}{2}".toList)] = .ok t ∧
      (RuleTable.entries (.ofList [(.element, "#{pair}".toList)])).map (references ·.2) = [["pair"]] ∧
      compile ⟨t, .ofList [(.element, "#{pair}".toList)]⟩ = .error (.expansion (.undefined "2"))) ∧
    ∃ t, ofList? [("mark", "#".toList), ("2", "#{mark}{2}".toList)] = .ok t ∧
      compile ⟨t, .ofList [(.element, "#{2}".toList)]⟩ = .error (.expansion (.cyclic "2")) := by
  refine ⟨⟨ofPairs [("mark", "#".toList), ("pair", "#{mark}{2}".toList)], ?_, ?_, ?_⟩,
    ofPairs [("mark", "#".toList), ("2", "#{mark}{2}".toList)], ?_, ?_⟩
  all_goals decide +kernel

end Selectors.Scanner
