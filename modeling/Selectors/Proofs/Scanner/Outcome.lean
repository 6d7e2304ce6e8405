import Selectors.Proofs.Scanner.RuleByRule

/-!
# What becomes of a configuration

A configuration has a scanner unless its macros cannot be expanded, a rule cannot be expanded or is no
pattern, or the rules do not go together. Rules that are patterns by themselves go together unless two
groups have one name, as long as they do not nest too deep: the text in which each rule is a group, with
bars between the groups, cannot be malformed in any other way. The exception are rules that end inside of
a comment, since the text behind them is not read as it is written; it takes the flag that lets comments
mean nothing to write one (`not_endsInComment`).

* `allNames`, `jointDepth`; **`isSome_read?_joined`**: when there is a joint pattern;
* `Outcome`: what becomes of a configuration; **`outcome_iff`**: this is what compiling it gives.
-/

namespace Selectors

theorem Level.together_reverse (depths : List Nat) : together depths.reverse = together depths := by
  have hmany : ∀ {l : List Nat}, 2 ≤ l.length → together l = 1 + l.foldr max 0 := by
    intro l hl
    match l, hl with
    | a :: b :: l, _ => rfl
  match depths with
  | [] | [_] => rfl
  | a :: b :: l =>
    have htwo : 2 ≤ (a :: b :: l).length := by simp
    rw [hmany (l := (a :: b :: l).reverse) (by rwa [List.length_reverse]), hmany htwo,
      (List.reverse_perm (a :: b :: l)).foldr_eq]

namespace Scanner

variable {c : Configuration} {rules : List Rule}

/-! ## Rules together -/

/-- The names of all groups: of the one that each rule is, and of those that are written in it. -/
def allNames (rules : List Rule) : List String :=
  rules.flatMap fun x => x.kind.groupName :: writtenNames x.text

/-- How deep the rules nest as groups that are alternatives. -/
def jointDepth (rules : List Rule) : Nat := Level.together (rules.map fun x => 1 + x.depth)

theorem reverse_allNames (rules : List Rule) :
    (allNames rules).reverse = rules.reverse.flatMap fun x => x.names ++ [x.kind.groupName] := by
  unfold allNames
  rw [List.reverse_flatMap]
  congr 1
  funext x
  rw [Function.comp_apply, List.reverse_cons, x.names_eq]

/-- **Rules have a joint pattern exactly if** no name is used twice and they do not nest too deep. -/
theorem isSome_read?_joined (hcomments : ∀ x ∈ rules, ¬ EndsInComment x.text) :
    (Pattern.read? (['|'].intercalate (rules.map fun x => groupText x.kind x.text))).isSome ↔
      (allNames rules).Nodup ∧ jointDepth rules ≤ Pattern.maxDepth := by
  cases rules with
  | nil => exact iff_of_true rfl ⟨List.nodup_nil, Nat.zero_le _⟩
  | cons x rules =>
    obtain ⟨gs, -, hread⟩ := read?_groups (List.cons_ne_nil x rules) hcomments
    rw [jointDepth, ← Level.together_reverse, ← List.nodup_reverse, reverse_allNames, hread]
    split
    · rename_i h
      exact iff_of_true rfl h
    · rename_i h
      exact iff_of_false Bool.false_ne_true h

/-! ## Configurations -/

/-- **What becomes of a configuration**: an error, or a scanner for some kinds. The rules are taken in
order of priority. -/
inductive Outcome (c : Configuration) : Except ScannerError (List RuleKind) → Prop
  /-- A macro cannot be expanded. -/
  | macros {cause : MacroError} (h : c.macros.expandAll = .error cause) :
      Outcome c (.error (.expansion cause))
  /-- The first rule that fails cannot be expanded. -/
  | unexpanded {literal : MacroTable} {before behind : List (RuleKind × Fragment)} {kind : RuleKind}
      {rule : Fragment} {cause : MacroError} (hmacros : c.macros.expandAll = .ok literal)
      (hentries : c.rules.entries = before ++ (kind, rule) :: behind)
      (hbefore : ∀ entry ∈ before, Passes literal entry) (h : literal.expand rule = .error cause) :
      Outcome c (.error (.expansion cause))
  /-- The first rule that fails is no pattern when it is expanded. -/
  | invalid {literal : MacroTable} {before behind : List (RuleKind × Fragment)} {kind : RuleKind}
      {rule text : Fragment} (hmacros : c.macros.expandAll = .ok literal)
      (hentries : c.rules.entries = before ++ (kind, rule) :: behind)
      (hbefore : ∀ entry ∈ before, Passes literal entry) (h : literal.expand rule = .ok text)
      (hread : Pattern.read? text = none) : Outcome c (.error (.invalidRule kind))
  /-- All rules pass, but two groups have one name. -/
  | clash {rules : List Rule} (hreads : c.Reads rules) (hcomments : ∀ x ∈ rules, ¬ EndsInComment x.text)
      (h : ¬ (allNames rules).Nodup) : Outcome c (.error .incompatibleRules)
  /-- All rules pass, but together they exceed the limit of nesting. -/
  | tooDeep {rules : List Rule} (hreads : c.Reads rules)
      (hcomments : ∀ x ∈ rules, ¬ EndsInComment x.text) (h : Pattern.maxDepth < jointDepth rules) :
      Outcome c (.error .incompatibleRules)
  /-- All rules pass, and they go together: the kinds are those that have a rule. -/
  | compiled {rules : List Rule} (hreads : c.Reads rules)
      (hcomments : ∀ x ∈ rules, ¬ EndsInComment x.text) (hnames : (allNames rules).Nodup)
      (hdepth : jointDepth rules ≤ Pattern.maxDepth) :
      Outcome c (.ok (RuleKind.priority.filter fun kind => (c.rules.pattern? kind).isSome))
  /-- All rules pass, but a comment spills from one over the text behind it; the text of all is a pattern
  even so. -/
  | spilled {rules : List Rule} (hreads : c.Reads rules) (hcomments : ∃ x ∈ rules, EndsInComment x.text)
      (h : (Pattern.read? (['|'].intercalate (rules.map fun x => groupText x.kind x.text))).isSome) :
      Outcome c (.ok (RuleKind.priority.filter fun kind => (c.rules.pattern? kind).isSome))
  /-- All rules pass, but a comment spills over, and the text of all is no pattern. -/
  | broken {rules : List Rule} (hreads : c.Reads rules) (hcomments : ∃ x ∈ rules, EndsInComment x.text)
      (h : Pattern.read? (['|'].intercalate (rules.map fun x => groupText x.kind x.text)) = none) :
      Outcome c (.error .incompatibleRules)

theorem map_fst_entries (t : RuleTable) :
    t.entries.map (·.1) = RuleKind.priority.filter fun kind => (t.pattern? kind).isSome := by
  unfold RuleTable.entries
  induction RuleKind.priority with
  | nil => rfl
  | cons kind kinds ih => cases h : t.pattern? kind <;> simp [h, ih]

theorem map_kind_of_reads (h : c.Reads rules) : rules.map (·.kind) = c.rules.entries.map (·.1) := by
  obtain ⟨literal, -, hrules⟩ := h
  generalize c.rules.entries = entries at hrules
  induction hrules with
  | nil => rfl
  | cons hx _ ih => rw [List.map_cons, List.map_cons, hx.1, ih]

theorem compile_of_reads (h : c.Reads rules) : (compile c).map (·.kinds) =
    if (Pattern.read? (['|'].intercalate (rules.map fun x => groupText x.kind x.text))).isSome
    then .ok (RuleKind.priority.filter fun kind => (c.rules.pattern? kind).isSome)
    else .error .incompatibleRules := by
  rw [← map_fst_entries, ← map_kind_of_reads h]
  obtain ⟨literal, hmacros, hrules⟩ := h
  rw [compile_of_expandAll hmacros, mapM_expandEntry_ok hrules]
  show (ofGroups _).map _ = _
  rw [kinds_ofGroups, List.map_map, List.map_map]
  rfl

theorem compile_of_outcome {r : Except ScannerError (List RuleKind)} (h : Outcome c r) :
    (compile c).map (·.kinds) = r := by
  cases h with
  | macros h =>
    rw [compile_of_expandAll_error h]
    rfl
  | unexpanded hmacros hentries hbefore h =>
    rw [compile_of_expandAll hmacros, hentries,
      mapM_expandEntry_error hbefore (expandEntry_of_error h)]
    rfl
  | invalid hmacros hentries hbefore h hread =>
    rw [compile_of_expandAll hmacros, hentries,
      mapM_expandEntry_error hbefore (expandEntry_of_none h hread)]
    rfl
  | clash hreads hcomments h =>
    rw [compile_of_reads hreads, if_neg fun hsome => h ((isSome_read?_joined hcomments).mp hsome).1]
  | tooDeep hreads hcomments h =>
    rw [compile_of_reads hreads,
      if_neg fun hsome => Nat.not_lt_of_le ((isSome_read?_joined hcomments).mp hsome).2 h]
  | compiled hreads hcomments hnames hdepth =>
    rw [compile_of_reads hreads, if_pos ((isSome_read?_joined hcomments).mpr ⟨hnames, hdepth⟩)]
  | spilled hreads _ h => rw [compile_of_reads hreads, if_pos h]
  | broken hreads _ h =>
    rw [compile_of_reads hreads, h]
    rfl

theorem exists_outcome (c : Configuration) : ∃ r, Outcome c r := by
  cases hmacros : c.macros.expandAll with
  | error cause => exact ⟨_, .macros hmacros⟩
  | ok literal =>
    rcases exists_rules_or_first literal c.rules.entries with
      ⟨rules, hrules⟩ | ⟨before, ⟨kind, rule⟩, behind, hentries, hbefore, hfails⟩
    · have hreads : c.Reads rules := ⟨literal, hmacros, hrules⟩
      by_cases hspill : ∃ x ∈ rules, EndsInComment x.text
      · cases hread : Pattern.read? (['|'].intercalate (rules.map fun x => groupText x.kind x.text)) with
        | none => exact ⟨_, .broken hreads hspill hread⟩
        | some pattern => exact ⟨_, .spilled hreads hspill (by rw [hread]; rfl)⟩
      · have hcomments : ∀ x ∈ rules, ¬ EndsInComment x.text := fun x hx h => hspill ⟨x, hx, h⟩
        by_cases hnames : (allNames rules).Nodup
        · rcases Nat.lt_or_ge Pattern.maxDepth (jointDepth rules) with hlt | hle
          · exact ⟨_, .tooDeep hreads hcomments hlt⟩
          · exact ⟨_, .compiled hreads hcomments hnames hle⟩
        · exact ⟨_, .clash hreads hcomments hnames⟩
    · rcases fails_of_not_passes hfails with ⟨cause, hexpand⟩ | ⟨text, hexpand, hread⟩
      · exact ⟨_, .unexpanded hmacros hentries hbefore hexpand⟩
      · exact ⟨_, .invalid hmacros hentries hbefore hexpand hread⟩

/-- **Compiling a configuration gives its outcome, and nothing else.** -/
theorem outcome_iff {r : Except ScannerError (List RuleKind)} :
    Outcome c r ↔ (compile c).map (·.kinds) = r := by
  constructor
  · exact compile_of_outcome
  · rintro rfl
    obtain ⟨r, hr⟩ := exists_outcome c
    rwa [compile_of_outcome hr]

/-- A rule may have a group with the name of a kind, as long as there is no rule of that kind. -/
example : (compile ⟨⟨.ofList []⟩, .ofList [(.element, "(?P<id>a|[]b])+?".toList)]⟩).map (·.kinds) =
    .ok [.element] := by
  decide +kernel

end Scanner

end Selectors
