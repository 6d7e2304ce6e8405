import Selectors.Proofs.Scanner.Joined

/-!
# The rules of a table in turn

A scanner takes the entries of a rule table one after another, up to the first that cannot be expanded or
is no pattern. If there is no such entry, the scanner is made of the groups of all rules.

* `expandEntry`: the group of an entry, or why there is none;
* **`exists_rules_or_first`**: all entries are rules, or there is a first one that is not;
* `mapM_expandEntry_ok`, `mapM_expandEntry_error`: what taking them in turn gives;
* `ofGroups`, `compile_of_expandAll`: the scanner of the groups.
-/

namespace Selectors.Scanner

variable {c : Configuration} {literal : MacroTable} {entries before behind : List (RuleKind × Fragment)}
  {entry : RuleKind × Fragment} {rules : List Rule}

/-! ## Entries -/

/-- The rule of an entry expands to a pattern. -/
def Passes (literal : MacroTable) (entry : RuleKind × Fragment) : Prop :=
  ∃ text, literal.expand entry.2 = .ok text ∧ (Pattern.read? text).isSome

/-- The group of an entry. -/
def expandEntry (literal : MacroTable) : RuleKind × Fragment →
    Except ScannerError (RuleKind × Fragment) := fun (kind, rule) => do
  let text ← expandRule literal kind rule
  return (kind, groupText kind text)

theorem expandEntry_eq (kind : RuleKind) (rule : Fragment) : expandEntry literal (kind, rule) =
    (expandRule literal kind rule).map fun text => (kind, groupText kind text) := by
  show (expandRule literal kind rule).bind _ = _
  cases expandRule literal kind rule <;> rfl

section

variable {kind : RuleKind} {rule text : Fragment}

theorem expandEntry_of_error {cause : MacroError} (h : literal.expand rule = .error cause) :
    expandEntry literal (kind, rule) = .error (.expansion cause) := by
  rw [expandEntry_eq]
  unfold expandRule
  rw [h]
  rfl

theorem expandEntry_of_none (h : literal.expand rule = .ok text) (hread : Pattern.read? text = none) :
    expandEntry literal (kind, rule) = .error (.invalidRule kind) := by
  rw [expandEntry_eq]
  unfold expandRule
  rw [h]
  dsimp only
  rw [hread]
  rfl

theorem expandEntry_of_ok (h : literal.expand rule = .ok text) (hread : (Pattern.read? text).isSome) :
    expandEntry literal (kind, rule) = .ok (kind, groupText kind text) := by
  rw [expandEntry_eq]
  unfold expandRule
  rw [h]
  dsimp only
  rw [if_pos hread]
  rfl

end

theorem fails_of_not_passes (h : ¬ Passes literal entry) :
    (∃ cause, literal.expand entry.2 = .error cause) ∨
      ∃ text, literal.expand entry.2 = .ok text ∧ Pattern.read? text = none := by
  cases hexpand : literal.expand entry.2 with
  | error cause => exact Or.inl ⟨cause, rfl⟩
  | ok text =>
    refine Or.inr ⟨text, rfl, ?_⟩
    rw [← Option.not_isSome_iff_eq_none]
    exact fun hread => h ⟨text, hexpand, hread⟩

theorem exists_error (h : ¬ Passes literal entry) : ∃ e, expandEntry literal entry = .error e := by
  rcases fails_of_not_passes h with ⟨cause, hexpand⟩ | ⟨text, hexpand, hread⟩
  · exact ⟨_, expandEntry_of_error hexpand⟩
  · exact ⟨_, expandEntry_of_none hexpand hread⟩

theorem mapM_expandEntry_ok (h : List.Forall₂ (fun entry (rule : Rule) =>
      rule.kind = entry.1 ∧ literal.expand entry.2 = .ok rule.text) entries rules) :
    entries.mapM (expandEntry literal) =
      .ok (rules.map fun x => (x.kind, groupText x.kind x.text)) := by
  induction h with
  | nil => rfl
  | @cons entry rule entries rules h _ ih =>
    obtain ⟨kind, fragment⟩ := entry
    obtain ⟨rfl, hexpand⟩ := h
    have hread : (Pattern.read? rule.text).isSome := by rw [rule.read]; rfl
    rw [List.mapM_cons, expandEntry_of_ok hexpand hread, ih]
    rfl

theorem mapM_expandEntry_error {e : ScannerError} (hbefore : ∀ x ∈ before, Passes literal x)
    (h : expandEntry literal entry = .error e) :
    (before ++ entry :: behind).mapM (expandEntry literal) = .error e := by
  induction before with
  | nil =>
    rw [List.nil_append, List.mapM_cons, h]
    rfl
  | cons x before ih =>
    obtain ⟨text, hexpand, hread⟩ := hbefore x List.mem_cons_self
    rw [List.cons_append, List.mapM_cons, expandEntry_of_ok hexpand hread,
      ih fun y hy => hbefore y (List.mem_cons_of_mem x hy)]
    rfl

/-- All entries give rules, or there is a first one that fails. -/
theorem exists_rules_or_first (literal : MacroTable) (entries : List (RuleKind × Fragment)) :
    (∃ rules : List Rule, List.Forall₂ (fun entry (rule : Rule) =>
      rule.kind = entry.1 ∧ literal.expand entry.2 = .ok rule.text) entries rules) ∨
    ∃ before entry behind, entries = before ++ entry :: behind ∧ (∀ x ∈ before, Passes literal x) ∧
      ¬ Passes literal entry := by
  induction entries with
  | nil => exact Or.inl ⟨[], .nil⟩
  | cons entry entries ih =>
    by_cases hentry : Passes literal entry
    · rcases ih with ⟨rules, hrules⟩ | ⟨before, first, behind, rfl, hbefore, hfirst⟩
      · obtain ⟨text, hexpand, hread⟩ := hentry
        let rule : Rule := ⟨entry.1, text, _, (Option.some_get hread).symm⟩
        exact Or.inl ⟨rule :: rules, .cons ⟨rfl, hexpand⟩ hrules⟩
      · refine Or.inr ⟨entry :: before, first, behind, rfl, fun x hx => ?_, hfirst⟩
        rcases List.mem_cons.mp hx with rfl | hx
        · exact hentry
        · exact hbefore x hx
    · exact Or.inr ⟨[], entry, entries, rfl, fun _ hx => absurd hx List.not_mem_nil, hentry⟩

/-! ## The scanner -/

/-- The scanner of the groups of rules. -/
def ofGroups (groups : List (RuleKind × Fragment)) : Except ScannerError Scanner :=
  match Pattern.read? (['|'].intercalate (groups.map (·.2))) with
  | none => .error .incompatibleRules
  | some pattern => .ok ⟨['|'].intercalate (groups.map (·.2)), pattern, groups.map (·.1)⟩

theorem ofGroups_eq_ok {groups : List (RuleKind × Fragment)} {s : Scanner}
    (h : ofGroups groups = .ok s) :
    ∃ pattern, Pattern.read? (['|'].intercalate (groups.map (·.2))) = some pattern ∧
      s = ⟨['|'].intercalate (groups.map (·.2)), pattern, groups.map (·.1)⟩ := by
  unfold ofGroups at h
  split at h
  · cases h
  · rename_i pattern hread
    exact ⟨pattern, hread, (Except.ok.inj h).symm⟩

theorem kinds_ofGroups (groups : List (RuleKind × Fragment)) : (ofGroups groups).map (·.kinds) =
    if (Pattern.read? (['|'].intercalate (groups.map (·.2)))).isSome
    then .ok (groups.map (·.1)) else .error .incompatibleRules := by
  unfold ofGroups
  cases Pattern.read? (['|'].intercalate (groups.map (·.2))) <;> rfl

theorem compile_of_expandAll_error {cause : MacroError} (hmacros : c.macros.expandAll = .error cause) :
    compile c = .error (.expansion cause) := by
  show (c.macros.expandAll.mapError ScannerError.expansion).bind _ = _
  rw [hmacros]
  rfl

theorem compile_of_expandAll (hmacros : c.macros.expandAll = .ok literal) :
    compile c = (c.rules.entries.mapM (expandEntry literal)).bind ofGroups := by
  show (c.macros.expandAll.mapError ScannerError.expansion).bind _ = _
  rw [hmacros]
  rfl

end Selectors.Scanner
