import Mathlib.Data.List.Forall2
import Selectors.Proofs.Pattern.Alternatives
import Selectors.Proofs.Pattern.Lexemes
import Selectors.Scanner

/-!
# The pattern of a scanner

The text of a scanner's pattern is made of the texts of its rules, each in a group of its own. What is
read from it is the alternation of these groups, with the patterns that the rules are by themselves,
unless one of them ends inside of a comment: that comment goes on behind the rule.

* `alternation_groups`: groups are put together as they stand;
* `Rule`: a rule with its own pattern; **`read?_groupText`**: the group of a rule;
* `read?_joined`: the alternatives of all rules, the names of their groups and how deep they nest;
* **`read?_groups`**: the pattern of all rules, and when there is one.
-/

namespace Selectors

open Pattern

/-! ## Groups as branches -/

theorem sets?_groups {gs : List Alternative} (hne : gs ≠ []) :
    sets? (gs.map (·.pattern)) = none := by
  cases gs with
  | nil => exact absurd rfl hne
  | cons g gs => rfl

theorem alternation_groups {gs : List Alternative} (hne : gs ≠ []) :
    alternation (gs.map (·.pattern)) = ofBranches (gs.map (·.pattern)) := by
  have hbranches : (gs.map (·.pattern)).flatMap branches = gs.map (·.pattern) := by
    rw [List.flatMap_map]
    exact List.map_eq_flatMap.symm
  have hshared : sharedParts (gs.map (·.pattern)) = [] := by
    cases gs with
    | nil => rfl
    | cons g gs => rfl
  have hunite : unite (gs.map (·.pattern)) = ofBranches (gs.map (·.pattern)) := by
    unfold unite
    split
    · rename_i b hb
      rw [hb]
      rfl
    · rw [sets?_groups hne]
  simp only [alternation, hbranches, hshared, or_true, if_true, hunite]

namespace PatternReader

variable {r s : PatternReader} {f : Frame} {fs : List Frame}

/-! ## Reading the text of a group -/

theorem feed?_of_mode {c : Char} {mode : Mode} {lexemes : List Lexeme} {lexer : PatternLexer}
    (hr : r.lexer.verbose = false ∧ r.lexer.comment = false)
    (h : r.lexer.mode.feed c = some (mode, lexemes)) (hlexer : lexemes.foldlM PatternLexer.scope? r.lexer = some lexer)
    (hs : lexemes.foldlM step? r = some s) :
    r.feed? c = some { s with
      lexer := { lexer with mode, counted := r.lexer.mode.isCount }
      levels := lexemes.foldl Level.step r.levels } := by
  have hskips : r.lexer.skips c = false := by
    rw [PatternLexer.skips, hr.1, hr.2]
    rfl
  exact feed?_eq_some_iff.mpr ⟨_, lexemes, s,
    PatternLexer.feed_eq_some_iff.mpr (.inr ⟨hskips, mode, lexer, h, hlexer, rfl⟩), hs, rfl⟩

theorem read?_groupName (r : PatternReader) (read : List Char) {cs : List Char}
    (hcs : ∀ c ∈ cs, isGroupNameChar true c = true) :
    PatternReader.read? { r with lexer := { PatternLexer.start with mode := .groupName read } } cs =
      some { r with lexer := { PatternLexer.start with mode := .groupName (cs.reverse ++ read) } } := by
  induction cs generalizing read with
  | nil => rfl
  | cons c cs ih =>
    have hc := hcs c List.mem_cons_self
    have hne : c ≠ '>' := by rintro rfl; exact absurd hc (by decide +kernel)
    have hchar : isGroupNameChar read.isEmpty c = true := by
      unfold isGroupNameChar at hc ⊢
      simp only [Bool.not_true, Bool.false_and, Bool.or_false] at hc
      rw [hc, Bool.true_or]
    have hfeed : Mode.feed (.groupName read) c = some (.groupName (c :: read), []) := by
      show (if c = '>' ∧ read ≠ [] then _ else _) = _
      rw [if_neg fun h => hne h.1, if_pos hchar]
    rw [read?_cons, feed?_of_mode ⟨rfl, rfl⟩ hfeed rfl rfl, Option.bind_some, List.reverse_cons,
      List.append_assoc]
    exact ih (c :: read) fun d hd => hcs d (List.mem_cons_of_mem c hd)

theorem isGroupNameChar_groupName (kind : RuleKind) :
    ∀ c ∈ kind.groupName.toList, isGroupNameChar true c = true := by
  rw [← List.all_eq_true]
  cases kind <;> decide +kernel

theorem groupName_ne_nil (kind : RuleKind) : kind.groupName.toList ≠ [] := by
  cases kind <;> decide

theorem read?_opening (kind : RuleKind) (hlexer : r.lexer = .start) (hf : r.frames = f :: fs) :
    ∃ s, r.read? ("(?P<".toList ++ kind.groupName.toList ++ ['>']) = some s ∧
      s.lexer = PatternLexer.start.within [false] ∧
      s.frames = .opened (some (r.groups, some kind.groupName)) f.flags :: r.frames ∧
      s.levels = Level.step r.levels (.opening (.numbered (some kind.groupName))) ∧
      s.groups = r.groups + 1 ∧ s.names = kind.groupName :: r.names := by
  have hopen : r.read? "(?P<".toList =
      some { r with lexer := { PatternLexer.start with mode := .groupName [] } } := by
    obtain ⟨lexer, frames, levels, groups, names⟩ := r
    obtain rfl : lexer = .start := hlexer
    rfl
  have hclose : (Mode.groupName kind.groupName.toList.reverse).feed '>' =
      some (.text, [.opening (.numbered (some kind.groupName))]) := by
    show (if '>' = '>' ∧ kind.groupName.toList.reverse ≠ [] then _ else _) = _
    rw [if_pos ⟨rfl, fun h => groupName_ne_nil kind (List.reverse_eq_nil_iff.mp h)⟩,
      List.reverse_reverse, String.ofList_toList]
  obtain ⟨lexer, frames, levels, groups, names⟩ := r
  obtain rfl : frames = f :: fs := hf
  let mark := some (groups, some kind.groupName)
  let opening := Lexeme.opening (.numbered (some kind.groupName))
  refine ⟨⟨PatternLexer.start.within [false], .opened mark f.flags :: f :: fs,
    [opening].foldl Level.step levels, groups + 1, kind.groupName :: names⟩, ?_, rfl, rfl, rfl, rfl, rfl⟩
  have hname := read?_groupName ⟨lexer, f :: fs, levels, groups, names⟩ []
    (isGroupNameChar_groupName kind)
  rw [List.append_nil] at hname
  rw [read?_append, read?_append, hopen, Option.bind_some, hname, Option.bind_some, read?_cons,
    feed?_of_mode ⟨rfl, rfl⟩ hclose rfl rfl]
  rfl

theorem read?_closing {g : Frame} (hmode : r.lexer.mode = .text) (houter : r.lexer.outer = [false])
    (hcomment : r.lexer.comment = false) (hf : r.frames = g :: f :: fs) :
    ∃ s, r.read? [')'] = some s ∧ s.lexer = .start ∧ s.frames = f.push g.pattern :: fs ∧
      s.levels = Level.step r.levels .closing ∧ s.names = r.names := by
  obtain ⟨⟨mode, verbose, outer, comment, counted⟩, frames, levels, groups, names⟩ := r
  dsimp only at hmode houter hcomment
  obtain rfl : frames = g :: f :: fs := hf
  subst hmode houter hcomment
  cases verbose <;> exact ⟨_, rfl, rfl, rfl, rfl, rfl⟩

theorem read?_bar (hlexer : r.lexer = .start) (hf : r.frames = f :: fs) :
    ∃ s, r.read? ['|'] = some s ∧ s.lexer = .start ∧ s.frames = f.nextBranch :: fs ∧
      s.levels = Level.step r.levels .bar ∧ s.names = r.names := by
  obtain ⟨lexer, frames, levels, groups, names⟩ := r
  obtain rfl : lexer = .start := hlexer
  obtain rfl : frames = f :: fs := hf
  exact ⟨_, rfl, rfl, rfl, rfl, rfl⟩

end PatternReader

/-! ## Rules with their own patterns -/

/-- A rule: its kind, its expanded text and the pattern of that text. -/
structure Rule where
  kind : RuleKind
  text : Fragment
  pattern : Pattern
  read : Pattern.read? text = some pattern

namespace Rule

/-- The names of the groups in the text of a rule. -/
def names (rule : Rule) : List String := ((PatternReader.start.read? rule.text).map (·.names)).getD []

/-- How deep the text of a rule nests. -/
def depth (rule : Rule) : Nat :=
  (((PatternReader.start.read? rule.text).bind (·.levels.head?)).map Level.depth).getD 0

theorem exists_read (rule : Rule) : ∃ e g l, PatternReader.start.read? rule.text = some e ∧
    (e.lexer.mode = .text ∧ e.lexer.outer = []) ∧ e.frames = [g] ∧ e.levels = [l] ∧
      l.depth = rule.depth ∧ g.mark = none ∧ g.pattern = rule.pattern ∧ e.names = rule.names := by
  obtain ⟨e, he, hfinish⟩ := Option.bind_eq_some_iff.mp rule.read
  have hnames : e.names = rule.names := by
    unfold names
    rw [he]
    rfl
  unfold PatternReader.finish? at hfinish
  split at hfinish
  · rename_i g l hframes hlevels
    split at hfinish
    · rename_i hok
      have hlexer : e.lexer.mode = .text ∧ e.lexer.outer = [] := by simpa [PatternLexer.mayEnd] using hok.1
      have hmark := PatternReader.unmarked_start.read? he g (by rw [hframes]; rfl)
      have hdepth : l.depth = rule.depth := by
        unfold depth
        rw [he, Option.bind_some, hlevels]
        rfl
      exact ⟨e, g, l, he, hlexer, hframes, hlevels, hdepth, hmark, Option.some.inj hfinish, hnames⟩
    · cases hfinish
  · cases hfinish

theorem groupNames_subset (rule : Rule) : rule.pattern.groupNames ⊆ rule.names := by
  obtain ⟨e, g, l, he, -, hframes, -, -, -, hpattern, hnames⟩ := rule.exists_read
  have hknown := PatternReader.namesKnown_start.read? he g (by rw [hframes]; exact List.mem_cons_self)
  rw [← hpattern, ← hnames]
  exact hknown.pattern

theorem names_eq (rule : Rule) : rule.names = (writtenNames rule.text).reverse := by
  obtain ⟨e, g, l, he, -, -, -, -, -, -, hnames⟩ := rule.exists_read
  rw [← hnames, PatternReader.names_eq_writtenNames he]

end Rule

namespace PatternReader

variable {r : PatternReader} {f : Frame} {l : Level}

/-- **The text of a rule in a group of its own**: the reader adds the rule's own pattern as a group, unless
the text ends inside of a comment. -/
theorem read?_groupText (rule : Rule) (hcomment : ¬ EndsInComment rule.text) (hlexer : r.lexer = .start)
    (hf : r.frames = [f]) (hflags : f.flags = .unset) (hl : r.levels = [l]) :
    ∃ s k, r.read? (Scanner.groupText rule.kind rule.text) = some s ∧ s.lexer = .start ∧
      s.frames = [f.push (.group r.groups (some rule.kind.groupName) (rule.pattern.renumber k))] ∧
      s.levels = [l.push (1 + rule.depth)] ∧
      s.names = rule.names ++ rule.kind.groupName :: r.names := by
  obtain ⟨o, ho, holexer, hoframes, holevels, hogroups, honames⟩ := read?_opening rule.kind hlexer hf
  obtain ⟨e, g, k, he, ⟨hemode, heouter⟩, heframes, helevels, hdepth, hmark, hpattern, hnames⟩ :=
    rule.exists_read
  have hnested : Nested [false] (r.groups + 1) (r.groups, some rule.kind.groupName) [f]
      (rule.kind.groupName :: r.names) start o := by
    refine ⟨holexer, ?_, ?_, honames⟩
    · rw [hoframes, hf, hflags]
      rfl
    · rw [hogroups]
      exact (Nat.zero_add _).symm
  obtain ⟨e', he', hnested'⟩ := hnested.read? he
  have hframes := hnested'.frames_eq
  rw [heframes, framesWithin, if_pos rfl, framesWithin] at hframes
  have hlevels : e'.levels = [k, l] := by
    have hwithin : o.levels = start.levels ++ [l] := by rw [holevels, hl]; rfl
    rw [levels_within he he' holexer rfl hwithin, helevels]
    rfl
  have hlexer' : e'.lexer = e.lexer.within [false] := hnested'.lexer_eq
  have hcomment' : e.lexer.comment = false :=
    Bool.eq_false_iff.mpr fun h => hcomment ((comment_eq_true_iff he).mp h)
  obtain ⟨s, hs, hslexer, hsframes, hslevels, hsnames⟩ := read?_closing
    (by rw [hlexer']; exact hemode) (by rw [hlexer', PatternLexer.within, heouter]; rfl)
    (by rw [hlexer']; exact hcomment') hframes
  refine ⟨s, r.groups + 1, ?_, hslexer, ?_, ?_, ?_⟩
  · have htext : Scanner.groupText rule.kind rule.text =
        ("(?P<".toList ++ rule.kind.groupName.toList ++ ['>']) ++ rule.text ++ [')'] := by
      unfold Scanner.groupText
      simp
    rw [htext, read?_append, read?_append, ho, Option.bind_some, he', Option.bind_some, hs]
  · rw [hsframes, Frame.pattern_within_group _ _ _ _ hmark, hpattern]
  · rw [hslevels, hlevels, ← hdepth]
    rfl
  · rw [hsnames, hnested'.names_eq, hnames]

/-- **The texts of several rules**: one alternative for each, which is the rule's own pattern but for the
numbers of its groups. -/
theorem read?_joined (rules : List Rule) (hne : rules ≠ [])
    (hcomments : ∀ x ∈ rules, ¬ EndsInComment x.text) (hlexer : r.lexer = .start) (hf : r.frames = [f])
    (hflags : f.flags = .unset) (hitems : f.items = []) (hl : r.levels = [l]) (hparts : l.parts = []) :
    ∃ s g gs k, r.read? (['|'].intercalate (rules.map fun x => Scanner.groupText x.kind x.text)) =
        some s ∧ s.lexer = .start ∧ s.frames = [g] ∧ g.mark = f.mark ∧
      g.allBranches = (gs.map Alternative.pattern).reverse ++ f.branches ∧
      List.Forall₂ (fun (x : Rule) (a : Alternative) =>
        a.name = x.kind.groupName ∧ a.body.automaton = x.pattern.automaton) rules gs ∧
      s.levels = [k] ∧ Level.together k.parts :: k.branches =
        (rules.map fun x => 1 + x.depth).reverse ++ l.branches ∧
      s.names = (rules.reverse.flatMap fun x => x.names ++ [x.kind.groupName]) ++ r.names := by
  induction rules generalizing r f l with
  | nil => exact absurd rfl hne
  | cons x rules ih =>
    obtain ⟨hx, hcomments⟩ := List.forall_mem_cons.mp hcomments
    obtain ⟨o, k, ho, holexer, hoframes, holevels, honames⟩ := read?_groupText x hx hlexer hf hflags hl
    let a : Alternative := ⟨r.groups, x.kind.groupName, x.pattern.renumber k⟩
    have hbranches : (f.push a.pattern).allBranches = a.pattern :: f.branches := by
      unfold Frame.allBranches Frame.push
      rw [hitems]
      rfl
    have htogether : Level.together (l.push (1 + x.depth)).parts = 1 + x.depth := by
      show Level.together ((1 + x.depth) :: l.parts) = _
      rw [hparts]
      rfl
    have hbody : a.body.automaton = x.pattern.automaton := automaton_renumber k x.pattern
    cases rules with
    | nil =>
      refine ⟨o, f.push a.pattern, [a], _, ?_, holexer, hoframes, rfl, hbranches, ?_, holevels, ?_, ?_⟩
      · rw [List.map_singleton, List.intercalate_singleton, ho]
      · exact .cons ⟨rfl, hbody⟩ .nil
      · rw [htogether]
        rfl
      · rw [honames]
        simp
    | cons y rules =>
      obtain ⟨b, hb, hblexer, hbframes, hblevels, hbnames⟩ := read?_bar holexer hoframes
      have hblevels : b.levels = [(l.push (1 + x.depth)).nextBranch] := by
        rw [hblevels, holevels]
        rfl
      obtain ⟨s, g, gs, m, hs, hslexer, hsframes, hmark, hg, hforall, hslevels, hm, hnames⟩ :=
        ih (List.cons_ne_nil _ _) hcomments hblexer hbframes hflags rfl hblevels rfl
      refine ⟨s, g, a :: gs, m, ?_, hslexer, hsframes, hmark, ?_, .cons ⟨rfl, hbody⟩ hforall, hslevels,
        ?_, ?_⟩
      · rw [List.map_cons, List.map_cons, List.intercalate_cons_cons, read?_append, read?_append, ho,
          Option.bind_some, hb, Option.bind_some]
        exact hs
      · show g.allBranches = _
        rw [hg, List.map_cons, List.reverse_cons, List.append_assoc]
        exact congrArg (_ ++ ·) hbranches
      · have hnext : (l.push (1 + x.depth)).nextBranch.branches = (1 + x.depth) :: l.branches :=
          congrArg (· :: l.branches) htogether
        simp [hm, hnext]
      · rw [hnames, hbnames, honames]
        simp

end PatternReader

/-- **The pattern of several rules together** is the alternation of their groups. There is one exactly if
the names of these and of the groups in the rules differ, and they do not nest too deep. -/
theorem read?_groups {rules : List Rule} (hne : rules ≠ [])
    (hcomments : ∀ x ∈ rules, ¬ EndsInComment x.text) :
    ∃ gs : List Alternative, List.Forall₂ (fun (x : Rule) (a : Alternative) =>
        a.name = x.kind.groupName ∧ a.body.automaton = x.pattern.automaton) rules gs ∧
      Pattern.read? (['|'].intercalate (rules.map fun x => Scanner.groupText x.kind x.text)) =
        if (rules.reverse.flatMap fun x => x.names ++ [x.kind.groupName]).Nodup ∧
          Level.together (rules.map fun x => 1 + x.depth).reverse ≤ maxDepth
        then some (ofBranches (gs.map (·.pattern))) else none := by
  obtain ⟨s, g, gs, k, hs, hlexer, hframes, hmark, hg, hforall, hlevels, hk, hnames⟩ :=
    PatternReader.start.read?_joined rules hne hcomments rfl rfl rfl rfl rfl rfl
  have hgs : gs ≠ [] := by
    rintro rfl
    cases hforall
    exact hne rfl
  have hpattern : g.pattern = ofBranches (gs.map (·.pattern)) := by
    unfold Frame.pattern
    rw [hg, hmark, show (Frame.opened none .unset).branches = [] from rfl, List.append_nil,
      List.reverse_reverse]
    exact alternation_groups hgs
  have hdepth : k.depth = Level.together (rules.map fun x => 1 + x.depth).reverse := by
    unfold Level.depth
    rw [hk]
    exact congrArg Level.together (List.append_nil _)
  refine ⟨gs, hforall, ?_⟩
  unfold Pattern.read?
  rw [hs, Option.bind_some]
  unfold PatternReader.finish?
  rw [hlexer, hframes, hlevels, ← hdepth, ← hpattern]
  dsimp only
  rw [hnames, show PatternReader.start.names = [] from rfl, List.append_nil]
  simp only [show PatternLexer.start.mayEnd = true from rfl, true_and]

theorem read?_rules {rules : List Rule} (hne : rules ≠ [])
    (hcomments : ∀ x ∈ rules, ¬ EndsInComment x.text) {pattern : Pattern}
    (h : Pattern.read? (['|'].intercalate (rules.map fun x => Scanner.groupText x.kind x.text)) =
      some pattern) :
    ∃ gs : List Alternative, pattern = ofBranches (gs.map (·.pattern)) ∧
      List.Forall₂ (fun (x : Rule) (a : Alternative) =>
        a.name = x.kind.groupName ∧ a.body.automaton = x.pattern.automaton) rules gs ∧
      (rules.reverse.flatMap fun x => x.names ++ [x.kind.groupName]).Nodup := by
  obtain ⟨gs, hforall, hread⟩ := read?_groups hne hcomments
  rw [hread] at h
  split at h
  · rename_i hok
    exact ⟨gs, (Option.some.inj h).symm, hforall, hok.1⟩
  · cases h

end Selectors
