import Selectors.Pattern.Reader
import Selectors.Proofs.Pattern.Groups
import Selectors.Proofs.Pattern.Lexing

/-!
# Reading inside of a group

A text that is a pattern by itself may stand inside of a group of a longer text. There it is read as it
is alone: its groups have other numbers, and its outermost frame belongs to the group around it.

* `Frame.within`: a frame as it is inside of a group, and what it has in common with the frame alone;
* `PatternReader.Nested`: a reader, and the same reader inside of a group; **`Nested.read?`**;
* `PatternReader.NamesKnown`: the names of all groups are known; **`NamesKnown.read?`**;
* `PatternReader.Unmarked`: the outermost frame belongs to no group.
-/

namespace Selectors

open Pattern

/-! ## Frames -/

/-- What a repetition mark applies to, with the numbers of the groups raised by `k`. -/
def Tail.renumber (k : Nat) : Tail → Tail
  | nothing => nothing
  | item => item
  | repeated body least most => repeated (body.renumber k) least most

namespace Frame

variable (k : Nat) (mark : Option (Nat × Option String)) (f : Frame)

/-- The frame of a group with another mark, and the numbers of all groups in it raised by `k`. -/
def within : Frame where
  mark := mark
  branches := f.branches.map (Pattern.renumber k)
  items := f.items.map (Pattern.renumber k)
  tail := f.tail.renumber k
  flags := f.flags

theorem within_push (p : Pattern) :
    (f.push p).within k mark = (f.within k mark).push (p.renumber k) := rfl

theorem within_push_ofSet (set : CharSet) :
    (f.push (.ofSet set)).within k mark = (f.within k mark).push (.ofSet set) := by
  rw [within_push, ofSet_renumber]

theorem within_allBranches :
    (f.within k mark).allBranches = f.allBranches.map (Pattern.renumber k) := by
  unfold allBranches
  rw [List.map_cons, concat_renumber, List.map_reverse]
  rfl

theorem within_nextBranch : f.nextBranch.within k mark = (f.within k mark).nextBranch := by
  unfold nextBranch
  rw [within_allBranches]
  rfl

theorem within_repeatLast? (least : Nat) (most : Option Nat) :
    (f.within k mark).repeatLast? least most =
      (f.repeatLast? least most).map (·.within k mark) := by
  obtain ⟨m, branches, items, tail, flags⟩ := f
  cases tail <;> cases items <;>
    simp [repeatLast?, within, Tail.renumber, repeated_renumber]

theorem within_question? : (f.within k mark).question? = f.question?.map (·.within k mark) := by
  obtain ⟨m, branches, items, tail, flags⟩ := f
  cases tail with
  | nothing => rfl
  | item =>
    cases items <;> simp [question?, repeatLast?, within, Tail.renumber, repeated_renumber]
  | repeated body least most =>
    cases items with
    | nil => rfl
    | cons p earlier => simp [question?, within, Tail.renumber, repeated_renumber]

theorem within_divide : f.divide.within k mark = (f.within k mark).divide := by
  obtain ⟨m, branches, items, tail, flags⟩ := f
  cases tail <;> rfl

/-- The mark of a group whose number is raised by `k`. -/
def shiftMark (mark : Option (Nat × Option String)) : Option (Nat × Option String) :=
  mark.map fun m => (m.1 + k, m.2)

theorem pattern_within : (f.within k (shiftMark k f.mark)).pattern = f.pattern.renumber k := by
  unfold pattern
  rw [within_allBranches, ← List.map_reverse, ← alternation_renumber]
  obtain ⟨m, branches, items, tail, flags⟩ := f
  cases m <;> rfl

theorem pattern_within_group (number : Nat) (name : Option String) (hf : f.mark = none) :
    (f.within k (some (number, name))).pattern = .group number name (f.pattern.renumber k) := by
  unfold pattern
  rw [within_allBranches, ← List.map_reverse, ← alternation_renumber, hf]
  rfl

theorem mark_repeatLast? {g : Frame} {least : Nat} {most : Option Nat}
    (h : f.repeatLast? least most = some g) : g.mark = f.mark := by
  unfold repeatLast? at h
  split at h
  · cases h
  · cases h
  · obtain rfl := Option.some.inj h; rfl

theorem mark_divide : f.divide.mark = f.mark := by
  unfold divide
  split <;> rfl

theorem mark_question? {g : Frame} (h : f.question? = some g) : g.mark = f.mark := by
  unfold question? at h
  split at h
  · obtain rfl := Option.some.inj h; rfl
  · exact mark_repeatLast? f h

end Frame

namespace PatternReader

/-! ## The same text inside of a group -/

section Nested

variable (around : List Bool) (k : Nat) (mark : Nat × Option String) (outer : List Frame)
  (names : List String)

/-- The frames of a text inside of a group with the given mark, and those around it. -/
def framesWithin : List Frame → List Frame
  | [] => outer
  | f :: fs => f.within k (if fs = [] then some mark else Frame.shiftMark k f.mark) :: framesWithin fs

/-- `r'` has read inside of a group what `r` has read alone. -/
structure Nested (r r' : PatternReader) : Prop where
  lexer_eq : r'.lexer = r.lexer.within around
  frames_eq : r'.frames = framesWithin k mark outer r.frames
  groups_eq : r'.groups = r.groups + k
  names_eq : r'.names = r.names ++ names

variable {around k mark outer names} {r r' s : PatternReader}

theorem Nested.step? (h : Nested around k mark outer names r r') {lexeme : Lexeme}
    (hs : r.step? lexeme = some s) :
    ∃ s', r'.step? lexeme = some s' ∧ Nested around k mark outer names s s' := by
  obtain ⟨lexer, frames, levels, groups, ns⟩ := r
  obtain ⟨lexer', frames', levels', groups', ns'⟩ := r'
  obtain ⟨hlexer, hframes, hgroups, hnames⟩ := h
  dsimp only at hlexer hframes hgroups hnames
  subst hlexer hframes hgroups hnames
  cases frames with
  | nil => cases hs
  | cons f fs =>
    let m := if fs = [] then some mark else Frame.shiftMark k f.mark
    have hput : ∀ g : Frame, g.mark = f.mark → framesWithin k mark outer (g :: fs) =
        g.within k m :: framesWithin k mark outer fs := fun g hg => by
      rw [framesWithin, hg]
    have hset : ∀ set, framesWithin k mark outer (f.push (.ofSet set) :: fs) =
        (f.within k m).push (.ofSet set) :: framesWithin k mark outer fs := fun set => by
      rw [hput (f.push (.ofSet set)) rfl, f.within_push_ofSet]
    cases lexeme with
    | one cls | set cls | dot =>
      obtain rfl := Option.some.inj hs
      exact ⟨_, rfl, rfl, (hset _).symm, rfl, rfl⟩
    | textStart | textEnd =>
      obtain rfl := Option.some.inj hs
      exact ⟨_, rfl, rfl, rfl, rfl, rfl⟩
    | opening kind =>
      obtain rfl := Option.some.inj hs
      refine ⟨_, rfl, ?_⟩
      cases kind with
      | plain changes => exact ⟨rfl, rfl, rfl, rfl⟩
      | numbered name =>
        refine ⟨rfl, rfl, ?_, ?_⟩
        · exact Nat.add_right_comm groups k 1
        · exact (List.append_assoc _ _ _).symm
    | closing =>
      cases fs with
      | nil => cases hs
      | cons g fs =>
        obtain rfl := Option.some.inj hs
        refine ⟨_, rfl, rfl, ?_, rfl, rfl⟩
        have hpush := congrArg (g.within k (if fs = [] then some mark else Frame.shiftMark k g.mark)).push
          (f.pattern_within k)
        exact congrArg (· :: framesWithin k mark outer fs) hpush
    | bar =>
      obtain rfl := Option.some.inj hs
      have hbar := f.within_nextBranch k m
      exact ⟨_, rfl, rfl, (congrArg (· :: _) hbar.symm).trans (hput f.nextBranch rfl).symm,
        rfl, rfl⟩
    | flags changes =>
      obtain rfl := Option.some.inj hs
      exact ⟨_, rfl, rfl, rfl, rfl, rfl⟩
    | gap =>
      obtain rfl := Option.some.inj hs
      have hgap := congrArg (· :: framesWithin k mark outer fs) (f.within_divide k m)
      exact ⟨_, rfl, rfl, hgap.symm.trans (hput f.divide f.mark_divide).symm, rfl, rfl⟩
    | times least most =>
      obtain ⟨g, hg, rfl⟩ := Option.map_eq_some_iff.mp hs
      refine ⟨⟨lexer.within around, g.within k m :: framesWithin k mark outer fs, levels', groups + k,
        ns ++ names⟩, ?_, rfl, (hput g (f.mark_repeatLast? hg)).symm, rfl, rfl⟩
      show Option.map _ ((f.within k m).repeatLast? least most) = _
      rw [Frame.within_repeatLast?, hg]
      rfl
    | question =>
      obtain ⟨g, hg, rfl⟩ := Option.map_eq_some_iff.mp hs
      refine ⟨⟨lexer.within around, g.within k m :: framesWithin k mark outer fs, levels', groups + k,
        ns ++ names⟩, ?_, rfl, (hput g (f.mark_question? hg)).symm, rfl, rfl⟩
      show Option.map _ ((f.within k m).question?) = _
      rw [Frame.within_question?, hg]
      rfl

theorem Nested.steps? (h : Nested around k mark outer names r r') {lexemes : List Lexeme}
    (hs : lexemes.foldlM PatternReader.step? r = some s) :
    ∃ s', lexemes.foldlM PatternReader.step? r' = some s' ∧ Nested around k mark outer names s s' := by
  induction lexemes generalizing r r' with
  | nil =>
    obtain rfl := Option.some.inj hs
    exact ⟨r', rfl, h⟩
  | cons lexeme lexemes ih =>
    rw [List.foldlM_cons] at hs
    obtain ⟨q, hq, hs⟩ := Option.bind_eq_some_iff.mp hs
    obtain ⟨q', hq', hnested⟩ := h.step? hq
    obtain ⟨s', hs', hnested'⟩ := ih hnested hs
    refine ⟨s', ?_, hnested'⟩
    rw [List.foldlM_cons, hq']
    exact hs'

theorem feed?_eq_some_iff {c : Char} : r.feed? c = some s ↔
    ∃ lexer lexemes next, r.lexer.feed c = some (lexer, lexemes) ∧
      lexemes.foldlM PatternReader.step? r = some next ∧
      s = { next with lexer, levels := lexemes.foldl Level.step r.levels } := by
  unfold feed?
  constructor
  · intro h
    obtain ⟨⟨lexer, lexemes⟩, hfeed, h⟩ := Option.bind_eq_some_iff.mp h
    obtain ⟨next, hnext, h⟩ := Option.bind_eq_some_iff.mp h
    exact ⟨lexer, lexemes, next, hfeed, hnext, (Option.some.inj h).symm⟩
  · rintro ⟨lexer, lexemes, next, hfeed, hnext, rfl⟩
    rw [hfeed]
    show (lexemes.foldlM PatternReader.step? r).bind _ = _
    rw [hnext]
    rfl

theorem Nested.feed? (h : Nested around k mark outer names r r') {c : Char} (hs : r.feed? c = some s) :
    ∃ s', r'.feed? c = some s' ∧ Nested around k mark outer names s s' := by
  obtain ⟨lexer, lexemes, next, hfeed, hnext, rfl⟩ := feed?_eq_some_iff.mp hs
  obtain ⟨next', hnext', hnested⟩ := h.steps? hnext
  refine ⟨_, feed?_eq_some_iff.mpr ⟨lexer.within around, lexemes, next', ?_, hnext', rfl⟩, ?_⟩
  · rw [h.lexer_eq]
    exact PatternLexer.feed_within around hfeed
  · exact ⟨rfl, hnested.frames_eq, hnested.groups_eq, hnested.names_eq⟩

theorem read?_cons (r : PatternReader) (c : Char) (text : List Char) :
    r.read? (c :: text) = (r.feed? c).bind (·.read? text) := List.foldlM_cons

theorem read?_append (r : PatternReader) (text text' : List Char) :
    r.read? (text ++ text') = (r.read? text).bind (·.read? text') := List.foldlM_append

/-- **A text is read inside of a group as it is read alone.** -/
theorem Nested.read? (h : Nested around k mark outer names r r') {text : List Char}
    (hs : r.read? text = some s) :
    ∃ s', r'.read? text = some s' ∧ Nested around k mark outer names s s' := by
  induction text generalizing r r' with
  | nil =>
    obtain rfl := Option.some.inj hs
    exact ⟨r', rfl, h⟩
  | cons c text ih =>
    rw [read?_cons, Option.bind_eq_some_iff] at hs
    obtain ⟨q, hq, hs⟩ := hs
    obtain ⟨q', hq', hnested⟩ := h.feed? hq
    obtain ⟨s', hs', hnested'⟩ := ih hnested hs
    refine ⟨s', ?_, hnested'⟩
    rw [read?_cons, hq']
    exact hs'

end Nested

end PatternReader

/-! ## Names -/

section Names

variable {names names' : List String} {f g : Frame} {p : Pattern}

/-- The names of the group and of all patterns in the frame are among the given ones. -/
structure Frame.NamesIn (names : List String) (f : Frame) : Prop where
  mark : ∀ m ∈ f.mark, m.2.toList ⊆ names
  branches : Pattern.NamesIn names f.branches
  items : Pattern.NamesIn names f.items
  body : ∀ p least most, f.tail = .repeated p least most → p.groupNames ⊆ names

namespace Frame.NamesIn

variable (h : f.NamesIn names)
include h

theorem mono (hsub : names ⊆ names') : f.NamesIn names' :=
  ⟨fun m hm => List.Subset.trans (h.mark m hm) hsub, h.branches.mono hsub, h.items.mono hsub,
    fun p least most ht => List.Subset.trans (h.body p least most ht) hsub⟩

theorem push (hp : p.groupNames ⊆ names) : (f.push p).NamesIn names :=
  ⟨h.mark, h.branches, .cons hp h.items, fun _ _ _ ht => nomatch ht⟩

theorem allBranches : Pattern.NamesIn names f.allBranches :=
  .cons (groupNames_concat fun p hp => h.items p (List.mem_reverse.mp hp)) h.branches

theorem nextBranch : f.nextBranch.NamesIn names :=
  ⟨h.mark, h.allBranches, namesIn_nil names, fun _ _ _ ht => nomatch ht⟩

theorem pattern : f.pattern.groupNames ⊆ names := by
  have hbody : (Pattern.alternation f.allBranches.reverse).groupNames ⊆ names :=
    groupNames_alternation fun p hp => h.allBranches p (List.mem_reverse.mp hp)
  unfold Frame.pattern
  cases hm : f.mark with
  | none => exact hbody
  | some m => exact List.append_subset.mpr ⟨h.mark m hm, hbody⟩

theorem changeFlags (changes : FlagChanges) : (f.changeFlags changes).NamesIn names :=
  ⟨h.mark, h.branches, h.items, fun _ _ _ ht => nomatch ht⟩

theorem divide : f.divide.NamesIn names := by
  unfold Frame.divide
  split
  · exact ⟨h.mark, h.branches, h.items, fun _ _ _ ht => nomatch ht⟩
  · exact h

theorem repeatLast? {least : Nat} {most : Option Nat} (hg : f.repeatLast? least most = some g) :
    g.NamesIn names := by
  unfold Frame.repeatLast? at hg
  split at hg
  · cases hg
  · cases hg
  · rename_i p earlier hitems _
    obtain rfl := Option.some.inj hg
    obtain ⟨hp, he⟩ := (hitems ▸ h.items : Pattern.NamesIn names (p :: earlier)).of_cons
    refine ⟨h.mark, h.branches, .cons (groupNames_repeated hp _ _ _) he, fun q _ _ ht => ?_⟩
    obtain ⟨rfl, -, -⟩ := Tail.repeated.inj ht
    exact hp

theorem question? (hg : f.question? = some g) : g.NamesIn names := by
  unfold Frame.question? at hg
  split at hg
  · rename_i p least most q earlier htail hitems
    obtain rfl := Option.some.inj hg
    obtain ⟨-, he⟩ := (hitems ▸ h.items : Pattern.NamesIn names (q :: earlier)).of_cons
    exact ⟨h.mark, h.branches, .cons (groupNames_repeated (h.body p least most htail) _ _ _) he,
      fun _ _ _ ht => nomatch ht⟩
  · exact h.repeatLast? hg

end Frame.NamesIn

theorem Frame.namesIn_opened {mark : Option (Nat × Option String)} {flags : Flags}
    (hm : ∀ m ∈ mark, m.2.toList ⊆ names) : (Frame.opened mark flags).NamesIn names :=
  ⟨hm, namesIn_nil names, namesIn_nil names, fun _ _ _ ht => nomatch ht⟩

namespace PatternReader

variable {r s : PatternReader}

/-- **All names of the patterns that have been read are known.** -/
def NamesKnown (r : PatternReader) : Prop := ∀ f ∈ r.frames, f.NamesIn r.names

theorem namesKnown_start : start.NamesKnown := by
  intro f hf
  rw [List.mem_singleton.mp hf]
  exact Frame.namesIn_opened fun _ hm => nomatch hm

theorem NamesKnown.step? (h : r.NamesKnown) {lexeme : Lexeme} (hs : r.step? lexeme = some s) :
    s.NamesKnown := by
  obtain ⟨lexer, frames, levels, groups, ns⟩ := r
  cases frames with
  | nil => cases hs
  | cons f fs =>
    have hf : f.NamesIn ns := h f List.mem_cons_self
    have hput : ∀ g : Frame, g.NamesIn ns → NamesKnown ⟨lexer, g :: fs, levels, groups, ns⟩ := by
      intro g hg x hx
      rcases List.mem_cons.mp hx with rfl | hx
      · exact hg
      · exact h x (List.mem_cons_of_mem f hx)
    cases lexeme with
    | one | set | dot =>
      obtain rfl := Option.some.inj hs
      refine hput _ (hf.push ?_)
      rw [groupNames_ofSet]
      exact List.nil_subset ns
    | textStart | textEnd =>
      obtain rfl := Option.some.inj hs
      exact hput _ (hf.push (List.nil_subset ns))
    | opening kind =>
      obtain rfl := Option.some.inj hs
      cases kind with
      | plain changes =>
        intro x hx
        rcases List.mem_cons.mp hx with rfl | hx
        · exact Frame.namesIn_opened fun _ hm => nomatch hm
        · exact h x hx
      | numbered name =>
        intro x hx
        rcases List.mem_cons.mp hx with rfl | hx
        · refine Frame.namesIn_opened fun m hm => ?_
          obtain rfl := Option.some.inj hm
          exact List.subset_append_left _ _
        · exact (h x hx).mono (List.subset_append_right _ _)
    | closing =>
      cases fs with
      | nil => cases hs
      | cons g fs =>
        obtain rfl := Option.some.inj hs
        intro x hx
        rcases List.mem_cons.mp hx with rfl | hx
        · exact (h g (List.mem_cons_of_mem f List.mem_cons_self)).push hf.pattern
        · exact h x (List.mem_cons_of_mem f (List.mem_cons_of_mem g hx))
    | bar =>
      obtain rfl := Option.some.inj hs
      exact hput _ hf.nextBranch
    | flags changes =>
      obtain rfl := Option.some.inj hs
      exact hput _ (hf.changeFlags changes)
    | gap =>
      obtain rfl := Option.some.inj hs
      exact hput _ hf.divide
    | times least most =>
      obtain ⟨g, hg, rfl⟩ := Option.map_eq_some_iff.mp hs
      exact hput g (hf.repeatLast? hg)
    | question =>
      obtain ⟨g, hg, rfl⟩ := Option.map_eq_some_iff.mp hs
      exact hput g (hf.question? hg)

/-- What every lexeme preserves, reading preserves. -/
theorem read?_preserves {P : PatternReader → Prop}
    (hstep : ∀ r lexeme s, P r → r.step? lexeme = some s → P s)
    (hlexer : ∀ r lexer levels, P r → P { r with lexer, levels }) (h : P r) {text : List Char}
    (hs : r.read? text = some s) : P s := by
  have hsteps : ∀ (lexemes : List Lexeme) (r next : PatternReader), P r →
      lexemes.foldlM PatternReader.step? r = some next → P next := by
    intro lexemes
    induction lexemes with
    | nil => exact fun r next h hnext => Option.some.inj hnext ▸ h
    | cons lexeme lexemes ih =>
      intro r next h hnext
      rw [List.foldlM_cons] at hnext
      obtain ⟨q, hq, hnext⟩ := Option.bind_eq_some_iff.mp hnext
      exact ih q next (hstep r lexeme q h hq) hnext
  induction text generalizing r with
  | nil => exact Option.some.inj hs ▸ h
  | cons c text ih =>
    rw [read?_cons, Option.bind_eq_some_iff] at hs
    obtain ⟨q, hq, hs⟩ := hs
    obtain ⟨lexer, lexemes, next, -, hnext, rfl⟩ := feed?_eq_some_iff.mp hq
    exact ih (hlexer next lexer _ (hsteps lexemes r next h hnext)) hs

/-- **What has been read has no names but those noted.** -/
theorem NamesKnown.read? (h : r.NamesKnown) {text : List Char} (hs : r.read? text = some s) :
    s.NamesKnown :=
  read?_preserves (fun _ _ _ h hs => h.step? hs) (fun _ _ _ h => h) h hs

/-! ## The outermost frame -/

/-- The outermost frame belongs to no group. -/
def Unmarked (r : PatternReader) : Prop := ∀ f ∈ r.frames.getLast?, f.mark = none

theorem Unmarked.step? (h : r.Unmarked) {lexeme : Lexeme} (hs : r.step? lexeme = some s) :
    s.Unmarked := by
  obtain ⟨lexer, frames, levels, groups, ns⟩ := r
  cases frames with
  | nil => cases hs
  | cons f fs =>
    have hput : ∀ (g f : Frame) (fs : List Frame), g.mark = f.mark →
        (∀ x ∈ (f :: fs).getLast?, x.mark = none) → ∀ x ∈ (g :: fs).getLast?, x.mark = none := by
      intro g f fs hg hf x hx
      cases fs with
      | nil =>
        obtain rfl := Option.some.inj hx
        exact hg.trans (hf f rfl)
      | cons y fs => exact hf x (by rwa [List.getLast?_cons_cons] at hx ⊢)
    cases lexeme with
    | one | set | dot | textStart | textEnd | bar | flags =>
      obtain rfl := Option.some.inj hs
      exact hput _ f fs rfl h
    | gap =>
      obtain rfl := Option.some.inj hs
      exact hput _ f fs f.mark_divide h
    | opening kind =>
      obtain rfl := Option.some.inj hs
      cases kind <;> exact fun x hx => h x hx
    | closing =>
      cases fs with
      | nil => cases hs
      | cons g fs =>
        obtain rfl := Option.some.inj hs
        exact hput _ g fs rfl fun x hx => h x (by rwa [List.getLast?_cons_cons])
    | times least most =>
      obtain ⟨g, hg, rfl⟩ := Option.map_eq_some_iff.mp hs
      exact hput g f fs (f.mark_repeatLast? hg) h
    | question =>
      obtain ⟨g, hg, rfl⟩ := Option.map_eq_some_iff.mp hs
      exact hput g f fs (f.mark_question? hg) h

theorem Unmarked.read? (h : r.Unmarked) {text : List Char} (hs : r.read? text = some s) :
    s.Unmarked :=
  read?_preserves (fun _ _ _ h hs => h.step? hs) (fun _ _ _ h => h) h hs

theorem unmarked_start : start.Unmarked := by
  intro f hf
  obtain rfl := Option.some.inj hf
  rfl

end PatternReader

end Names

end Selectors
