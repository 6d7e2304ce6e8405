import Mathlib
import Selectors.Proofs.Scanner.Entries
import Selectors.Proofs.Scanner.Segments
import Selectors.Scanner.Standard

/-!
# Rules one by one

The pattern of a scanner finds what its rules find by themselves: the first match is that of the rule
whose first match starts first, or of the earlier rule if several start there. Only the group of that rule
takes part, so the kind of a match is the kind of its rule. All this holds if no rule ends inside of a
comment, for such a comment goes on in the text of the next rule.

* `FirstMatch`: the rule that comes first; **`Joins.exists_firstMatch`**: its match is the scanner's;
* `Apart`: no two rules share a group; **`Apart.classify_eq`**: the kind of a match;
* `ByRules`: the tokens found by trying all rules from match to match;
* `Configuration.CommentsEnd`: no rule ends inside of a comment;
* **`Scanner.byRules_iff`**: then these are the tokens of a scanner.
-/

namespace Selectors

variable {rules : List Rule} {rule : Rule} {a : Automaton} {position : Nat} {rest : List Char}
  {found : Found}

/-! ## The rule that comes first -/

/-- The first match of a rule by itself. -/
def Rule.find? (rule : Rule) (position : Nat) (rest : List Char) : Option Found :=
  rule.pattern.automaton.find? position rest

/-- **The first match of some rules** is the first match of one of them: those before it have no match
that starts as early, and those behind it none that starts earlier. -/
structure FirstMatch (rules : List Rule) (position : Nat) (rest : List Char) (rule : Rule)
    (found : Found) : Prop where
  own : rule.find? position rest = some found
  first : ∃ before behind, rules = before ++ rule :: behind ∧
    (∀ r ∈ before, ∀ other, r.find? position rest = some other → found.start < other.start) ∧
    ∀ r ∈ behind, ∀ other, r.find? position rest = some other → found.start ≤ other.start

namespace FirstMatch

theorem mem (h : FirstMatch rules position rest rule found) : rule ∈ rules := by
  obtain ⟨before, behind, rfl, -⟩ := h.first
  exact List.mem_append_right before List.mem_cons_self

theorem not_none (h : FirstMatch rules position rest rule found) :
    ¬ ∀ rule ∈ rules, rule.find? position rest = none := by
  intro hnone
  have hown := (hnone rule h.mem).symm.trans h.own
  cases hown

theorem unique {rule' : Rule} {found' : Found} (h : FirstMatch rules position rest rule found)
    (h' : FirstMatch rules position rest rule' found') : rule = rule' ∧ found = found' := by
  -- of two rules that come first, neither stands before the other
  have hnot : ∀ {r r' : Rule} {f f' : Found} {between before behind behind' : List Rule},
      r.find? position rest = some f → r'.find? position rest = some f' →
      (∀ x ∈ before ++ between, ∀ other, x.find? position rest = some other → f'.start < other.start) →
      (∀ x ∈ behind, ∀ other, x.find? position rest = some other → f.start ≤ other.start) →
      r :: behind = between ++ r' :: behind' → r = r' := by
    intro r r' f f' between before behind behind' hf hf' hlt hle heq
    cases between with
    | nil => exact (List.cons.inj heq).1
    | cons x between =>
      obtain ⟨rfl, rfl⟩ := List.cons.inj heq
      have h1 := hlt r (List.mem_append_right before List.mem_cons_self) f hf
      have h2 := hle r' (List.mem_append_right between List.mem_cons_self) f' hf'
      exact absurd h1 (Nat.not_lt_of_le h2)
  obtain ⟨before, behind, heq, hlt, hle⟩ := h.first
  obtain ⟨before', behind', heq', hlt', hle'⟩ := h'.first
  have hrule : rule = rule' := by
    rcases List.append_eq_append_iff.mp (heq.symm.trans heq') with ⟨l, rfl, hl⟩ | ⟨l, rfl, hl⟩
    · exact hnot h.own h'.own hlt' hle hl
    · exact (hnot h'.own h.own hlt hle' hl).symm
  subst hrule
  exact ⟨rfl, Option.some.inj (h.own.symm.trans h'.own)⟩

end FirstMatch

/-- The automaton has at every position the match of the first rule that has one there. -/
def Joins (a : Automaton) (rules : List Rule) : Prop :=
  ∀ position rest, a.matchAt position rest = rules.findSome? fun rule =>
    (rule.pattern.automaton.matchAt position rest).map (·.withNames [rule.kind.groupName])

namespace Joins

theorem matchAt_eq_none (h : Joins a rules) (hnone : a.matchAt position rest = none) :
    ∀ r ∈ rules, r.pattern.automaton.matchAt position rest = none := by
  intro r hr
  rw [h, List.findSome?_eq_none_iff] at hnone
  exact Option.map_eq_none_iff.mp (hnone r hr)

theorem find?_eq_none (h : Joins a rules) (hnone : a.find? position rest = none) :
    ∀ r ∈ rules, r.find? position rest = none := by
  induction rest generalizing position with
  | nil =>
    intro r hr
    rw [Automaton.find?_nil] at hnone
    exact (Automaton.find?_nil position).trans (h.matchAt_eq_none hnone r hr)
  | cons c rest ih =>
    intro r hr
    rw [Automaton.find?_cons, Option.or_eq_none_iff] at hnone
    refine (Automaton.find?_cons position c rest).trans ?_
    rw [h.matchAt_eq_none hnone.1 r hr, Option.none_or]
    exact ih hnone.2 r hr

theorem lt_start (hnone : a.matchAt position rest = none) (hf : a.find? position rest = some found) :
    position < found.start := by
  cases rest with
  | nil =>
    rw [Automaton.find?_nil, hnone] at hf
    cases hf
  | cons c rest =>
    rw [Automaton.find?_cons, hnone, Option.none_or] at hf
    exact (Automaton.find?_bounds hf).1

theorem firstMatch_of_matchAt (h : Joins a rules) (hf : a.matchAt position rest = some found) :
    ∃ rule own, FirstMatch rules position rest rule own ∧
      found = own.withNames [rule.kind.groupName] := by
  rw [h, List.findSome?_eq_some_iff] at hf
  obtain ⟨before, rule, behind, heq, hrule, hbefore⟩ := hf
  obtain ⟨own, hown, rfl⟩ := Option.map_eq_some_iff.mp hrule
  have hstart := (Automaton.matchAt_bounds hown).1
  refine ⟨rule, own, ⟨Automaton.find?_of_matchAt_eq_some hown, before, behind, heq, ?_, ?_⟩, rfl⟩
  · intro r hr other ho
    rw [hstart]
    exact lt_start (Option.map_eq_none_iff.mp (hbefore r hr)) ho
  · intro r _ other ho
    rw [hstart]
    exact (Automaton.find?_bounds ho).1

/-- **The first match is that of the rule that comes first**, whose group takes part in it. -/
theorem exists_firstMatch (h : Joins a rules) (hf : a.find? position rest = some found) :
    ∃ rule own, FirstMatch rules position rest rule own ∧
      found = own.withNames [rule.kind.groupName] := by
  induction rest generalizing position with
  | nil =>
    rw [Automaton.find?_nil] at hf
    exact h.firstMatch_of_matchAt hf
  | cons c rest ih =>
    rw [Automaton.find?_cons, Option.or_eq_some_iff] at hf
    rcases hf with hf | ⟨hnone, hf⟩
    · exact h.firstMatch_of_matchAt hf
    · obtain ⟨rule, own, hfirst, heq⟩ := ih hf
      have hlater : ∀ r ∈ rules, r.find? position (c :: rest) = r.find? (position + 1) rest := by
        intro r hr
        refine (Automaton.find?_cons position c rest).trans ?_
        rw [h.matchAt_eq_none hnone r hr, Option.none_or]
        rfl
      obtain ⟨before, behind, hrules, hlt, hle⟩ := hfirst.first
      refine ⟨rule, own, ⟨(hlater rule hfirst.mem).trans hfirst.own, before, behind, hrules, ?_, ?_⟩,
        heq⟩
      · intro r hr other ho
        rw [hlater r (hrules ▸ List.mem_append_left _ hr)] at ho
        exact hlt r hr other ho
      · intro r hr other ho
        rw [hlater r (hrules ▸ List.mem_append_right _ (List.mem_cons_of_mem _ hr))] at ho
        exact hle r hr other ho

end Joins

/-! ## The kind of a match -/

/-- The groups of the rules, and the groups in them, are all different. -/
def Apart (rules : List Rule) : Prop :=
  (rules.reverse.flatMap fun x => x.names ++ [x.kind.groupName]).Nodup

namespace Apart

theorem eq_of_mem {r r' : Rule} {name : String} (h : Apart rules) (hr : r ∈ rules) (hr' : r' ∈ rules)
    (hn : name ∈ r.names ++ [r.kind.groupName]) (hn' : name ∈ r'.names ++ [r'.kind.groupName]) :
    r = r' := by
  by_contra hne
  have hsymm : Std.Symm (Function.onFun List.Disjoint fun x : Rule => x.names ++ [x.kind.groupName]) :=
    ⟨fun _ _ hd _ hx hx' => hd hx' hx⟩
  have hpairwise := (List.nodup_flatMap.mp h).2
  exact hpairwise.forall (List.mem_reverse.mpr hr) (List.mem_reverse.mpr hr') hne hn hn'

theorem groupName_mem_iff {other : Rule} (h : Apart rules) (hr : rule ∈ rules)
    (hf : rule.find? position rest = some found) (ho : other ∈ rules) :
    other.kind.groupName ∈ (found.withNames [rule.kind.groupName]).names ↔ other.kind = rule.kind := by
  constructor
  · intro hn
    rcases List.mem_append.mp hn with hn | hn
    · obtain ⟨next, hnote⟩ := (Automaton.find?_bounds hf).2.2.2 _ hn
      have hnames : other.kind.groupName ∈ rule.names :=
        rule.groupNames_subset (Pattern.mem_groupNames_of_note hnote)
      rw [h.eq_of_mem ho hr (List.mem_append_right _ (List.mem_singleton.mpr rfl))
        (List.mem_append_left _ hnames)]
    · exact RuleKind.groupName_injective (List.mem_singleton.mp hn)
  · intro heq
    rw [heq]
    exact List.mem_append_right _ (List.mem_singleton.mpr rfl)

/-- **The kind of a match is the kind of its rule**, and no other group of a rule takes part. -/
theorem classify_eq {s : Scanner} (h : Apart rules) (hkinds : s.kinds = rules.map (·.kind))
    (hr : rule ∈ rules) (hf : rule.find? position rest = some found) :
    s.classify (found.withNames [rule.kind.groupName]).names = some rule.kind ∧
      ∀ other ∈ s.kinds,
        other.groupName ∈ (found.withNames [rule.kind.groupName]).names ↔ other = rule.kind := by
  have hiff : ∀ other ∈ s.kinds,
      other.groupName ∈ (found.withNames [rule.kind.groupName]).names ↔ other = rule.kind := by
    intro other ho
    rw [hkinds] at ho
    obtain ⟨r, hr', rfl⟩ := List.mem_map.mp ho
    exact h.groupName_mem_iff hr hf hr'
  have hmem : rule.kind ∈ s.kinds := hkinds ▸ List.mem_map_of_mem hr
  refine ⟨?_, hiff⟩
  unfold Scanner.classify
  cases hc : s.kinds.find? (·.groupName ∈ (found.withNames [rule.kind.groupName]).names) with
  | none =>
    have hno := List.find?_eq_none.mp hc rule.kind hmem
    exact absurd (decide_eq_true ((hiff _ hmem).mpr rfl)) hno
  | some kind =>
    have hyes : kind.groupName ∈ (found.withNames [rule.kind.groupName]).names :=
      of_decide_eq_true (p := kind.groupName ∈ _) (by simpa using List.find?_some hc)
    rw [(hiff kind (List.mem_of_find?_eq_some hc)).mp hyes]

end Apart

/-! ## From match to match -/

/-- An empty match at the end of the match before it. -/
def Repeats (last : Option Nat) (found : Found) : Prop :=
  found.start = found.stop ∧ last = some found.stop

/-- **The tokens found rule by rule** in a text of which `rest` is left at a position; `last` is the end
of the match before. -/
inductive ByRules (rules : List Rule) : Option Nat → Nat → List Char → List Token → Prop
  /-- No rule has a match. -/
  | done {last position rest} (h : ∀ rule ∈ rules, rule.find? position rest = none) :
      ByRules rules last position rest []
  /-- The match of the rule that comes first is a token. -/
  | emit {last position rest rule found tokens} (h : FirstMatch rules position rest rule found)
      (hnew : ¬ Repeats last found)
      (next : ByRules rules (some found.stop) found.stop (rest.drop (found.stop - position)) tokens) :
      ByRules rules last position rest
        (⟨.ofList ((rest.drop (found.start - position)).take (found.stop - found.start)), rule.kind⟩ ::
          tokens)
  /-- An empty match right behind the match before is dropped. -/
  | drop {last position rest rule found tokens} (h : FirstMatch rules position rest rule found)
      (hold : Repeats last found) (hmore : found.stop < position + rest.length)
      (next : ByRules rules last (found.stop + 1) (rest.drop (found.stop + 1 - position)) tokens) :
      ByRules rules last position rest tokens
  /-- So it is at the end of the text. -/
  | dropEnd {last position rest rule found} (h : FirstMatch rules position rest rule found)
      (hold : Repeats last found) (hend : found.stop = position + rest.length) :
      ByRules rules last position rest []

namespace ByRules

theorem unique {last : Option Nat} {tokens tokens' : List Token}
    (h : ByRules rules last position rest tokens) (h' : ByRules rules last position rest tokens') :
    tokens = tokens' := by
  induction h generalizing tokens' with
  | done hnone =>
    cases h' with
    | done => rfl
    | emit h | drop h | dropEnd h => exact absurd hnone h.not_none
  | emit h hnew _ ih =>
    cases h' with
    | done hnone => exact absurd hnone h.not_none
    | emit h' _ next' =>
      obtain ⟨rfl, rfl⟩ := h.unique h'
      rw [ih next']
    | drop h' hold | dropEnd h' hold =>
      obtain ⟨rfl, rfl⟩ := h.unique h'
      exact absurd hold hnew
  | drop h hold hmore _ ih =>
    cases h' with
    | done hnone => exact absurd hnone h.not_none
    | emit h' hnew =>
      obtain ⟨rfl, rfl⟩ := h.unique h'
      exact absurd hold hnew
    | drop h' _ _ next' =>
      obtain ⟨rfl, rfl⟩ := h.unique h'
      exact ih next'
    | dropEnd h' _ hend =>
      obtain ⟨rfl, rfl⟩ := h.unique h'
      exact absurd hend (Nat.ne_of_lt hmore)
  | dropEnd h hold hend =>
    cases h' with
    | done | dropEnd => rfl
    | emit h' hnew =>
      obtain ⟨rfl, rfl⟩ := h.unique h'
      exact absurd hold hnew
    | drop h' _ hmore =>
      obtain ⟨rfl, rfl⟩ := h.unique h'
      exact absurd hend (Nat.ne_of_lt hmore)

end ByRules

/-- Where the search for the next match stands: the last match ends there if the position is not fresh,
else before. -/
structure Stands (fresh : Bool) (last : Option Nat) (position : Nat) : Prop where
  fresh_iff : fresh = true ↔ last ≠ some position
  le : ∀ e ∈ last, e ≤ position

namespace Stands

variable {fresh : Bool} {last : Option Nat}

theorem start : Stands true none 0 :=
  ⟨⟨fun _ h => Option.some_ne_none 0 h.symm, fun _ => rfl⟩, fun _ h => by cases h⟩

theorem behind (stop : Nat) : Stands false (some stop) stop :=
  ⟨⟨fun h => Bool.noConfusion h, fun h => absurd rfl h⟩,
    fun _ h => Nat.le_of_eq (Option.some.inj h).symm⟩

theorem next (h : Stands fresh last position) : Stands true last (position + 1) :=
  ⟨⟨fun _ he => absurd (h.le _ he) (Nat.not_succ_le_self position), fun _ => rfl⟩,
    fun e he => Nat.le_succ_of_le (h.le e he)⟩

theorem of_repeats (h : Stands fresh last position) (hle : position ≤ found.stop)
    (hold : Repeats last found) : found.stop = position ∧ fresh = false := by
  have hstop : found.stop = position := Nat.le_antisymm (h.le _ hold.2) hle
  refine ⟨hstop, Bool.eq_false_iff.mpr fun ht => h.fresh_iff.mp ht ?_⟩
  rw [← hstop]
  exact hold.2

theorem of_not_repeats (h : Stands fresh last position) (hle : position ≤ found.start)
    (hempty : found.start = found.stop) (hnew : ¬ Repeats last found) :
    position < found.start ∨ fresh = true := by
  refine (Nat.lt_or_eq_of_le hle).imp_right fun hstart => h.fresh_iff.mpr fun he => hnew ⟨hempty, ?_⟩
  rw [he, hstart, hempty]

end Stands

/-- **The tokens of a scanner are those found rule by rule**, if its pattern has the matches of the
rules and the kind of a match is the kind of its rule. -/
theorem Joins.byRules {s : Scanner} (h : Joins s.pattern.automaton rules) (hapart : Apart rules)
    (hkinds : s.kinds = rules.map (·.kind)) (fresh : Bool) (last : Option Nat) (position : Nat)
    (rest : List Char) (hstands : Stands fresh last position) : ByRules rules last position rest
      ((s.pattern.automaton.segments fresh position rest).filterMap (Segment.token? s)) := by
  -- an empty match leaves as much of the text, but the position behind it is not fresh
  induction hn : 2 * rest.length + fresh.toNat using Nat.strong_induction_on
    generalizing fresh last position rest with
  | h n ih =>
  cases hf : s.pattern.automaton.find? position rest with
  | none =>
    rw [Automaton.segments_of_find?_eq_none fresh hf, ← List.append_nil (rest.map _),
      Segment.filterMap_token?_skipped]
    exact .done (h.find?_eq_none hf)
  | some found =>
    obtain ⟨rule, own, hfirst, rfl⟩ := h.exists_firstMatch hf
    have hclassify := (hapart.classify_eq hkinds hfirst.mem hfirst.own).1
    obtain ⟨hle, hle', hle'', -⟩ := Automaton.find?_bounds hfirst.own
    have hdrop : (rest.drop (own.stop - position)).length = rest.length - (own.stop - position) :=
      List.length_drop
    rcases Nat.lt_or_eq_of_le hle' with hlt | heq
    · -- a match that is not empty
      rw [Automaton.segments_of_nonempty fresh hf hlt, Segment.filterMap_token?_skipped,
        Segment.filterMap_token?_matched _ _ hclassify]
      simp only [Found.withNames_start, Found.withNames_stop]
      have hshorter : 2 * (rest.drop (own.stop - position)).length + false.toNat < n := by
        rw [hdrop, Bool.toNat_false]
        omega
      exact .emit hfirst (fun hr => absurd hr.1 (Nat.ne_of_lt hlt))
        (ih _ hshorter false _ _ _ (.behind own.stop) rfl)
    · by_cases hold : Repeats last own
      · obtain ⟨hstop, rfl⟩ := hstands.of_repeats (hle.trans hle') hold
        rw [Automaton.segments_of_dropped hf (heq.trans hstop) hstop]
        cases rest with
        | nil => exact .dropEnd hfirst hold hstop
        | cons c rest =>
          have hmore : own.stop < position + (c :: rest).length := by
            rw [hstop, List.length_cons]
            omega
          have hnext : own.stop + 1 - position = 1 := by omega
          have hshorter : 2 * rest.length + true.toNat < n := by
            rw [← hn, List.length_cons, Bool.toNat_true]
            omega
          refine .drop hfirst hold hmore ?_
          rw [hnext, hstop]
          exact ih _ hshorter true last (position + 1) rest hstands.next rfl
      · have hnew := hstands.of_not_repeats hle heq hold
        rw [Automaton.segments_of_empty fresh hf heq hnew, Segment.filterMap_token?_skipped,
          Segment.filterMap_token?_matched _ _ hclassify]
        simp only [Found.withNames_stop]
        have hshorter : 2 * (rest.drop (own.stop - position)).length + false.toNat < n := by
          rw [hdrop, Bool.toNat_false, ← hn]
          rcases hnew with hlt | rfl
          · omega
          · rw [Bool.toNat_true]
            omega
        have hempty : (rest.drop (own.start - position)).take (own.stop - own.start) = [] := by
          rw [heq, Nat.sub_self, List.take_zero]
        rw [← hempty]
        exact .emit hfirst hold (ih _ hshorter false _ _ _ (.behind own.stop) rfl)

/-! ## The rules of a configuration -/

/-- The rules of a configuration in their order, with the macros expanded, each a pattern by itself. -/
def Configuration.Reads (c : Configuration) (rules : List Rule) : Prop :=
  ∃ literal, c.macros.expandAll = .ok literal ∧
    List.Forall₂ (fun entry (rule : Rule) => rule.kind = entry.1 ∧ literal.expand entry.2 = .ok rule.text)
      c.rules.entries rules

/-- **No rule ends inside of a comment**, when its macros are expanded. -/
def Configuration.CommentsEnd (c : Configuration) : Prop :=
  ∀ literal ∈ c.macros.expandAll.toOption, ∀ entry ∈ c.rules.entries,
    ∀ text ∈ (literal.expand entry.2).toOption, ¬ EndsInComment text

instance (c : Configuration) : Decidable c.CommentsEnd := by
  unfold Configuration.CommentsEnd
  infer_instance

theorem Configuration.Reads.not_endsInComment {c : Configuration} (h : c.Reads rules)
    (hcomments : c.CommentsEnd) : ∀ x ∈ rules, ¬ EndsInComment x.text := by
  obtain ⟨literal, hmacros, hrules⟩ := h
  have hentries := hcomments literal (by rw [hmacros]; rfl)
  generalize c.rules.entries = entries at hrules hentries
  induction hrules with
  | nil => exact fun _ hx => absurd hx List.not_mem_nil
  | @cons entry x entries rules hx _ ih =>
    obtain ⟨hentry, hentries⟩ := List.forall_mem_cons.mp hentries
    exact List.forall_mem_cons.mpr ⟨hentry x.text (by rw [hx.2]; rfl), ih hentries⟩

namespace Scanner

theorem joins_alternatives {gs : List Alternative} (hne : rules ≠ [])
    (h : List.Forall₂ (fun (x : Rule) (g : Alternative) =>
      g.name = x.kind.groupName ∧ g.body.automaton = x.pattern.automaton) rules gs) :
    Joins (Pattern.ofBranches (gs.map (·.pattern))).automaton rules := by
  have hgs : gs ≠ [] := by
    rintro rfl
    exact hne (List.forall₂_nil_right_iff.mp h)
  intro position rest
  refine (Automaton.matchAt_alternatives hgs position rest).trans ?_
  unfold Automaton.firstAlternative
  clear hne hgs
  induction h with
  | nil => rfl
  | cons hx _ ih => rw [List.findSome?_cons, List.findSome?_cons, hx.1, hx.2, ih]

/-- **The pattern of a scanner joins its rules.** -/
theorem joins_of_compile {c : Configuration} {s : Scanner} (h : compile c = .ok s)
    (hcomments : c.CommentsEnd) (hne : c.rules.entries ≠ []) :
    ∃ rules, c.Reads rules ∧ s.kinds = rules.map (·.kind) ∧ Joins s.pattern.automaton rules ∧
      Apart rules := by
  cases hmacros : c.macros.expandAll with
  | error cause =>
    rw [compile_of_expandAll_error hmacros] at h
    cases h
  | ok literal =>
    rw [compile_of_expandAll hmacros] at h
    rcases exists_rules_or_first literal c.rules.entries with
      ⟨rules, hrules⟩ | ⟨before, entry, behind, hentries, hbefore, hfails⟩
    · have hrulesne : rules ≠ [] := by
        rintro rfl
        exact hne (List.forall₂_nil_right_iff.mp hrules)
      rw [mapM_expandEntry_ok hrules] at h
      obtain ⟨pattern, hread, rfl⟩ := ofGroups_eq_ok h
      rw [List.map_map] at hread
      have hreads : c.Reads rules := ⟨literal, hmacros, hrules⟩
      obtain ⟨gs, rfl, hgs, hapart⟩ := read?_rules hrulesne (hreads.not_endsInComment hcomments) hread
      exact ⟨rules, hreads, List.map_map, joins_alternatives hrulesne hgs, hapart⟩
    · obtain ⟨e, he⟩ := exists_error hfails
      rw [hentries, mapM_expandEntry_error hbefore he] at h
      cases h

/-- **The tokens of a scanner are those found by trying its rules one by one**, each as a pattern by
itself, if no rule ends inside of a comment. In every match the group of one rule takes part, and the kind of the match is the kind of that
rule. -/
theorem byRules_iff {c : Configuration} {s : Scanner} (h : compile c = .ok s)
    (hcomments : c.CommentsEnd) (hne : c.rules.entries ≠ []) :
    ∃ rules, c.Reads rules ∧ s.kinds = rules.map (·.kind) ∧ ∀ selector,
      (∀ tokens, ByRules rules none 0 (normalize selector).toList tokens ↔
        tokens = (s.run selector).tokens) ∧
      ∀ text names, .matched text names ∈ s.pattern.scan (normalize selector).toList →
        ∃ kind ∈ s.kinds, s.classify names = some kind ∧
          ∀ other ∈ s.kinds, other.groupName ∈ names ↔ other = kind := by
  obtain ⟨rules, hreads, hkinds, hjoins, hapart⟩ := joins_of_compile h hcomments hne
  refine ⟨rules, hreads, hkinds, fun selector => ⟨fun tokens => ?_, ?_⟩⟩
  · have hrun : ByRules rules none 0 (normalize selector).toList (s.run selector).tokens :=
      hjoins.byRules hapart hkinds true none 0 _ .start
    constructor
    · exact fun hb => hb.unique hrun
    · rintro rfl
      exact hrun
  · intro text names hmatched
    obtain ⟨position, rest, found, hf, rfl⟩ := Automaton.exists_find?_of_matched true hmatched
    obtain ⟨rule, own, hfirst, rfl⟩ := hjoins.exists_firstMatch hf
    obtain ⟨hclassify, honly⟩ := hapart.classify_eq hkinds hfirst.mem hfirst.own
    exact ⟨rule.kind, hkinds ▸ List.mem_map_of_mem hfirst.mem, hclassify, honly⟩

/-- A rule with a comment, branches and a group of its own, and one that may match nothing, side by
side. -/
theorem byRules_of_branches : ∃ rules,
    Configuration.Reads ⟨⟨.ofList []⟩, .ofList [(.element, "[a-z]*".toList),
      (.nameAndId, "(?x: a # one\n)(?P<more>b*?)|c".toList)]⟩ rules ∧
    ByRules rules none 0 "ab ac".toList
      [⟨"a", .nameAndId⟩, ⟨"b", .element⟩, ⟨"a", .nameAndId⟩, ⟨"c", .nameAndId⟩] := by
  let c : Configuration := ⟨⟨.ofList []⟩, .ofList [(.element, "[a-z]*".toList),
    (.nameAndId, "(?x: a # one\n)(?P<more>b*?)|c".toList)]⟩
  let p : Pattern := .alt
    (.group 0 (some "name_and_id")
      (.alt (.seq (.literal ['a']) (.group 1 (some "more") (.rep (.literal ['b']) 0 none false)))
        (.literal ['c'])))
    (.group 2 (some "element") (.rep (.one ⟨[(97, 122)]⟩) 0 none true))
  have hpattern : (compile c).toOption.map (fun s => (s.pattern, s.kinds)) =
      some (p, [.nameAndId, .element]) := by decide +kernel
  cases hs : compile c with
  | error e => rw [hs] at hpattern; cases hpattern
  | ok s =>
    rw [hs] at hpattern
    obtain ⟨hp, hkinds⟩ := Prod.mk.inj (Option.some.inj hpattern)
    obtain ⟨rules, hreads, -, hrun⟩ := byRules_iff hs (by decide +kernel) (by decide)
    have hnormal : normalize "ab ac" = "ab ac" := by decide +kernel
    have hscan : p.scan "ab ac".toList =
        [.matched ['a'] ["more", "name_and_id"], .matched ['b'] ["element"], .skipped ' ',
          .matched ['a'] ["more", "name_and_id"], .matched ['c'] ["name_and_id"]] := by cbv
    have htokens : [⟨"a", .nameAndId⟩, ⟨"b", .element⟩, ⟨"a", .nameAndId⟩, ⟨"c", .nameAndId⟩] =
        (s.run "ab ac").tokens := by
      show _ = (s.pattern.scan (normalize "ab ac").toList).filterMap (Segment.token? s)
      rw [hp, hnormal, hscan]
      simp [List.filterMap_cons, Segment.token?, classify, hkinds, RuleKind.groupName]
    rw [← hnormal]
    exact ⟨rules, hreads, ((hrun "ab ac").1 _).mpr htokens⟩

/-- A comment at the end of a rule goes on in the next one, up to the end of a line: the scanner has one
group less than it has rules, and no token where a rule by itself has a match. -/
theorem tokens_of_open_comment : ∃ s rules,
    compile ⟨⟨.ofList []⟩, .ofList [(.nameAndId, "(?x)a#".toList), (.id, "b\nc".toList)]⟩ = .ok s ∧
    Configuration.Reads ⟨⟨.ofList []⟩,
      .ofList [(.nameAndId, "(?x)a#".toList), (.id, "b\nc".toList)]⟩ rules ∧
    (s.run "a").tokens = [] ∧
    ByRules rules none 0 (normalize "a").toList [⟨"a", .nameAndId⟩] := by
  let s : Scanner := ⟨"(?P<name_and_id>(?x)a#)|(?P<id>b\nc)".toList,
    .group 0 (some "name_and_id") (.literal ['a', 'c']), [.nameAndId, .id]⟩
  let first : Rule := ⟨.nameAndId, "(?x)a#".toList, .literal ['a'], by decide +kernel⟩
  let second : Rule := ⟨.id, "b\nc".toList, .literal ['b', '\n', 'c'], by decide +kernel⟩
  have hs : compile ⟨⟨.ofList []⟩,
      .ofList [(.nameAndId, "(?x)a#".toList), (.id, "b\nc".toList)]⟩ = .ok s := by decide +kernel
  have hnormal : normalize "a" = "a" := by decide +kernel
  have hfirst : first.find? 0 ['a'] = some ⟨0, 1, []⟩ := by cbv
  have hsecond : second.find? 0 ['a'] = none := by cbv
  have hnone : ∀ rule ∈ [first, second], rule.find? 1 [] = none := by
    intro rule hrule
    rcases List.mem_pair.mp hrule with rfl | rfl <;> cbv
  refine ⟨s, [first, second], hs, ⟨⟨.ofList []⟩, rfl,
    .cons ⟨rfl, by decide +kernel⟩ (.cons ⟨rfl, by decide +kernel⟩ .nil)⟩, by cbv, ?_⟩
  rw [hnormal]
  refine .emit ⟨hfirst, [], [second], rfl, fun _ hr => absurd hr List.not_mem_nil, ?_⟩
    (fun h => Option.some_ne_none _ h.2.symm) (.done hnone)
  intro r hr other ho
  rw [List.mem_singleton.mp hr, hsecond] at ho
  cases ho

end Scanner

end Selectors
