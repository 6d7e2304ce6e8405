import Selectors.Proofs.Scanner.RuleByRule

/-!
# What becomes of every character

A run repeats and moves nothing. Its input is a row of parts, one behind the other: the tokens, each
where its match stands, the texts that are skipped, and blanks. What is lost is the text of matches that
have no kind; there is none unless a rule ends inside of a comment.

* `Cut`: a text from match to match; **`cut_segments`**: a scan cuts the text so;
* **`Scanner.classify_of_matchAt`**: a match that has no kind is empty, if no rule ends inside of a comment;
* `Part.Stands`, `Laid`: what a part is, and parts one behind the other; **`Laid.pairwise_found`**: their
  matches;
* `Part.ofSegments`: the parts of a scanned text; **`Cut.laid_behind`**: they lie one behind the other;
* `Covers`, **`Scanner.exists_covers`**: the parts of a run.
-/

namespace Selectors

variable {s : Scanner} {a : Automaton} {position : Nat} {rest : List Char} {found : Found}
  {segments : List Segment}

/-! ## From match to match -/

/-- **A text cut into segments**, of which `rest` is left at a position: characters outside of all matches,
and the texts of matches that start where the one before them ends, or behind it. -/
inductive Cut (a : Automaton) : Nat → List Char → List Segment → Prop
  | done {position : Nat} : Cut a position [] []
  | skip {position : Nat} {c : Char} {rest segments} (next : Cut a (position + 1) rest segments) :
      Cut a position (c :: rest) (.skipped c :: segments)
  | take {position : Nat} {text rest found segments} (h : a.matchAt position (text ++ rest) = some found)
      (hstop : found.stop = position + text.length)
      (next : Cut a (position + text.length) rest segments) :
      Cut a position (text ++ rest) (.matched text found.names :: segments)

theorem Cut.skipAll (text : List Char) (h : Cut a (position + text.length) rest segments) :
    Cut a position (text ++ rest) (text.map .skipped ++ segments) := by
  induction text generalizing position with
  | nil => exact h
  | cons c text ih =>
    refine .skip (ih ?_)
    rwa [Nat.add_assoc, Nat.add_comm 1, ← List.length_cons]

theorem Cut.find {gap text behind : List Char} (h : a.find? position (gap ++ (text ++ behind)) = some found)
    (hstart : found.start = position + gap.length) (hstop : found.stop = found.start + text.length)
    (next : Cut a found.stop behind segments) : Cut a position (gap ++ (text ++ behind))
      (gap.map .skipped ++ .matched text found.names :: segments) := by
  have hmatch := Automaton.matchAt_of_find?_eq_some h
  rw [hstart, Nat.add_sub_cancel_left, List.drop_left] at hmatch
  rw [hstart] at hstop
  exact .skipAll gap (.take hmatch hstop (hstop ▸ next))

/-- **A scan cuts its text from match to match.** -/
theorem cut_segments (a : Automaton) (fresh : Bool) (position : Nat) (rest : List Char) :
    Cut a position rest (a.segments fresh position rest) := by
  fun_induction Automaton.segments a fresh position rest with
  | case1 fresh position rest =>
    have h : Cut a position (rest ++ []) (rest.map .skipped ++ []) := .skipAll rest .done
    rwa [List.append_nil, List.append_nil] at h
  | case2 fresh position rest found hf gap behind text _ ih =>
    -- a match that is not empty
    obtain ⟨hle, hle', -⟩ := Automaton.find?_bounds hf
    obtain ⟨hgap, htext⟩ : gap.length = found.start - position ∧ text.length = _ :=
      Automaton.lengths_of_find? hf
    have hrest : rest = gap ++ (text ++ behind.drop text.length) := by
      rw [htext, List.take_append_drop, List.take_append_drop]
    rw [show position + gap.length + text.length = found.stop by omega] at ih ⊢
    have h := Cut.find (hrest ▸ hf) (by omega) (by omega) ih
    rwa [← hrest] at h
  | case3 fresh position rest found hf gap behind text ht _ ih =>
    -- an empty match, with nothing between it and the text behind it
    obtain ⟨hle, hle', -⟩ := Automaton.find?_bounds hf
    obtain ⟨hgap, htext⟩ : gap.length = found.start - position ∧ text.length = _ :=
      Automaton.lengths_of_find? hf
    have hrest : rest = gap ++ ([] ++ behind) := (List.take_append_drop _ rest).symm
    rw [not_not.mp ht, List.length_nil] at htext
    rw [show position + gap.length = found.stop by omega] at ih ⊢
    have h := Cut.find (hrest ▸ hf) (by omega) (by rw [List.length_nil]; omega) ih
    rwa [← hrest] at h
  | case4 => exact .done
  | case5 fresh position found c rest hf gap behind text _ _ ih => exact .skip ih

/-! ## The kinds of matches -/

namespace Scanner

theorem stop_of_no_rules {c : Configuration} (h : compile c = .ok s) (hnone : c.rules.entries = [])
    (hf : s.pattern.automaton.matchAt position rest = some found) : found.stop = position := by
  cases hmacros : c.macros.expandAll with
  | error cause =>
    rw [compile_of_expandAll_error hmacros] at h
    cases h
  | ok literal =>
    rw [compile_of_expandAll hmacros, hnone] at h
    change ofGroups [] = .ok s at h
    obtain ⟨pattern, hread, rfl⟩ := ofGroups_eq_ok h
    obtain rfl : Pattern.empty = pattern := Option.some.inj hread
    have haccept : Pattern.empty.automaton.matchAt position rest = some ⟨position, position, []⟩ :=
      Automaton.race_accept rfl
    rw [show found = ⟨position, position, []⟩ from Option.some.inj (hf.symm.trans haccept)]

/-- **A match has the kind of a rule**, or else it is empty. -/
theorem classify_of_matchAt {c : Configuration} (h : compile c = .ok s) (hcomments : c.CommentsEnd)
    (hf : s.pattern.automaton.matchAt position rest = some found) :
    (∃ kind, s.classify found.names = some kind) ∨ found.stop = position := by
  by_cases hnone : c.rules.entries = []
  · exact .inr (stop_of_no_rules h hnone hf)
  · obtain ⟨rules, -, hkinds, hjoins, hapart⟩ := joins_of_compile h hcomments hnone
    obtain ⟨rule, own, hfirst, rfl⟩ := hjoins.firstMatch_of_matchAt hf
    exact .inl ⟨rule.kind, (hapart.classify_eq hkinds hfirst.mem hfirst.own).1⟩

end Scanner

/-! ## Parts -/

/-- A part of a scanned text. -/
inductive Part where
  /-- A token, and the match that it comes from. -/
  | token (found : Found) (token : Token)
  /-- The text of a match that has no kind. -/
  | lost (found : Found) (text : List Char)
  /-- A text that is skipped. -/
  | skipped (text : String)
  /-- Blanks. -/
  | blank (text : List Char)

namespace Part

/-- The text of a part. -/
def chars : Part → List Char
  | token _ t => t.identity.toList
  | lost _ text => text
  | skipped text => text.toList
  | blank text => text

/-- The token of a part. -/
def token? : Part → Option Token
  | token _ t => some t
  | lost _ _ | skipped _ | blank _ => none

/-- The match of a part. -/
def found? : Part → Option Found
  | token found _ | lost found _ => some found
  | skipped _ | blank _ => none

/-- The text of a part that is skipped. -/
def skipped? : Part → Option String
  | skipped text => some text
  | token _ _ | lost _ _ | blank _ => none

/-- **What a part is**, at a position where `rest` is left: a token of the match there, that reaches as far
as its text and has its kind; the text of a match that has none; a text that is not empty, without blanks at its ends; or blanks. -/
def Stands (s : Scanner) (position : Nat) (rest : List Char) : Part → Prop
  | token found t => s.pattern.automaton.matchAt position rest = some found ∧
      found.start = position ∧ found.stop = position + t.identity.toList.length ∧
      s.classify found.names = some t.kind
  | lost found text => s.pattern.automaton.matchAt position rest = some found ∧
      found.start = position ∧ found.stop = position + text.length ∧ s.classify found.names = none
  | skipped text => text.toList ≠ [] ∧ Text.Trimmed text.toList
  | blank text => ∀ c ∈ text, Text.isBlank c = true

end Part

variable {before parts : List Part} {part : Part}

/-- Parts one behind the other, from a position on. -/
inductive Laid (s : Scanner) : Nat → List Part → Prop
  | nil {position : Nat} : Laid s position []
  | cons {position : Nat} {part parts} (h : part.Stands s position ((part :: parts).flatMap Part.chars))
      (next : Laid s (position + part.chars.length) parts) : Laid s position (part :: parts)

namespace Laid

theorem append_right (h : Laid s position (before ++ parts)) :
    Laid s (position + (before.flatMap Part.chars).length) parts := by
  induction before generalizing position with
  | nil => exact h
  | cons part before ih =>
    cases h with
    | cons _ next =>
      rw [List.flatMap_cons, List.length_append, ← Nat.add_assoc]
      exact ih next

theorem stands {behind : List Part} (h : Laid s position (before ++ part :: behind)) :
    part.Stands s (position + (before.flatMap Part.chars).length) ((part :: behind).flatMap Part.chars) := by
  cases h.append_right with
  | cons hpart _ => exact hpart

theorem found_bounds (h : Laid s position parts) (hf : found ∈ parts.filterMap Part.found?) :
    position ≤ found.start ∧ found.start ≤ found.stop ∧
      found.stop ≤ position + (parts.flatMap Part.chars).length := by
  obtain ⟨part, hpart, hfound⟩ := List.mem_filterMap.mp hf
  obtain ⟨before, behind, rfl⟩ := List.append_of_mem hpart
  cases part with
  | token | lost =>
    obtain rfl := Option.some.inj hfound
    obtain ⟨-, hstart, hstop, -⟩ := h.stands
    rw [List.flatMap_append, List.flatMap_cons, List.length_append, List.length_append, Part.chars]
    omega
  | skipped | blank => cases hfound

/-- **No two matches overlap**, and the earlier one comes first. -/
theorem pairwise_found (h : Laid s position parts) :
    (parts.filterMap Part.found?).Pairwise fun found later => found.stop ≤ later.start := by
  induction h with
  | nil => exact .nil
  | @cons position part parts hpart next ih =>
    cases part with
    | token found | lost found =>
      refine List.pairwise_cons.mpr ⟨fun later hlater => ?_, ih⟩
      rw [hpart.2.2.1]
      exact (next.found_bounds hlater).1
    | skipped | blank => exact ih

end Laid

/-! ## The parts of a scanned text -/

namespace Segment

/-- The matches of a text cut into segments, each with its place; the first segment starts at a position. -/
def places : Nat → List Segment → List Found
  | _, [] => []
  | position, skipped _ :: rest => places (position + 1) rest
  | position, matched text names :: rest =>
    ⟨position, position + text.length, names⟩ :: places (position + text.length) rest

end Segment

namespace Part

/-- The parts of a text between two matches. -/
def ofGap (gap : List Char) : List Part :=
  blank (gap.takeWhile Text.isBlank) ::
    ((if Text.trim gap = [] then [] else [skipped (.ofList (Text.trim gap))]) ++
      [blank ((gap.dropWhile Text.isBlank).drop (Text.trim gap).length)])

/-- The part of a match. -/
def ofMatch (s : Scanner) (found : Found) (text : List Char) : Part :=
  match s.classify found.names with
  | none => lost found text
  | some kind => token found ⟨.ofList text, kind⟩

/-- The parts from the first match on. -/
def behind (s : Scanner) : Nat → List Segment → List Part
  | _, [] => []
  | position, .skipped _ :: rest => behind s (position + 1) rest
  | position, .matched text names :: rest =>
    ofMatch s ⟨position, position + text.length, names⟩ text ::
      (ofGap (Segment.gaps rest).1 ++ behind s (position + text.length) rest)

/-- The parts of a text cut into segments, from a position on. -/
def ofSegments (s : Scanner) (position : Nat) (segments : List Segment) : List Part :=
  ofGap (Segment.gaps segments).1 ++ behind s position segments

variable {gap : List Char}

theorem filterMap_ofGap {α : Type} (f : Part → Option α) (hblank : ∀ text, f (blank text) = none) :
    (ofGap gap).filterMap f =
      if Text.trim gap = [] then [] else (f (skipped (.ofList (Text.trim gap)))).toList := by
  by_cases h : Text.trim gap = []
  · simp [ofGap, h, hblank]
  · cases hf : f (skipped (.ofList (Text.trim gap))) <;> simp [ofGap, h, hblank, hf]

@[simp] theorem filterMap_token?_ofGap : (ofGap gap).filterMap token? = [] :=
  (filterMap_ofGap token? fun _ => rfl).trans (ite_self _)

@[simp] theorem filterMap_found?_ofGap : (ofGap gap).filterMap found? = [] :=
  (filterMap_ofGap found? fun _ => rfl).trans (ite_self _)

theorem skipped?_gaps (gaps : List (List Char)) :
    ((gaps.map Text.trim).filter (· ≠ [])).map String.ofList =
      gaps.flatMap fun gap => (ofGap gap).filterMap skipped? := by
  induction gaps with
  | nil => rfl
  | cons gap gaps ih =>
    rw [List.flatMap_cons, ← ih, filterMap_ofGap skipped? fun _ => rfl]
    by_cases h : Text.trim gap = [] <;> simp [h, skipped?]

theorem exists_ofGap_eq (gap : List Char) : ∃ lead tail,
    ofGap gap = blank lead ::
      ((if Text.trim gap = [] then [] else [skipped (.ofList (Text.trim gap))]) ++ [blank tail]) ∧
    lead ++ (Text.trim gap ++ tail) = gap ∧ (∀ c ∈ lead, Text.isBlank c = true) ∧
    ∀ c ∈ tail, Text.isBlank c = true := by
  obtain ⟨tail, htail, hblank⟩ := Text.exists_append_trim gap
  refine ⟨gap.takeWhile Text.isBlank, tail, ?_, ?_, List.all_eq_true.mp List.all_takeWhile, hblank⟩
  · rw [ofGap, htail, List.drop_left]
  · rw [← htail, List.takeWhile_append_dropWhile]

theorem flatMap_chars_ofGap (gap : List Char) : (ofGap gap).flatMap chars = gap := by
  obtain ⟨lead, tail, heq, hgap, -⟩ := exists_ofGap_eq gap
  rw [heq]
  by_cases h : Text.trim gap = [] <;> simpa [h, chars] using hgap

theorem flatMap_chars_ofSegments (s : Scanner) (position : Nat) (segments : List Segment) :
    (ofSegments s position segments).flatMap chars =
      (Segment.gaps segments).1 ++ (behind s position segments).flatMap chars := by
  rw [ofSegments, List.flatMap_append, flatMap_chars_ofGap]

theorem chars_ofMatch (s : Scanner) (found : Found) (text : List Char) :
    (ofMatch s found text).chars = text := by
  unfold ofMatch
  split
  · rfl
  · exact String.toList_ofList

/-! What is in the parts is what is in the segments. -/

theorem filterMap_token?_behind (position : Nat) (segments : List Segment) :
    (behind s position segments).filterMap token? = segments.filterMap (Segment.token? s) := by
  induction segments generalizing position with
  | nil => rfl
  | cons segment segments ih =>
    cases segment with
    | skipped c => exact ih (position + 1)
    | matched text names =>
      cases h : s.classify names <;>
        simp [behind, ofMatch, Segment.token?, List.filterMap_cons, token?, h, ih]

theorem filterMap_found?_behind (position : Nat) (segments : List Segment) :
    (behind s position segments).filterMap found? = Segment.places position segments := by
  induction segments generalizing position with
  | nil => rfl
  | cons segment segments ih =>
    cases segment with
    | skipped c => exact ih (position + 1)
    | matched text names =>
      cases h : s.classify names <;>
        simp [behind, ofMatch, Segment.places, found?, h, ih]

theorem filterMap_skipped?_behind (position : Nat) (segments : List Segment) :
    (behind s position segments).filterMap skipped? =
      (Segment.gaps segments).2.flatMap fun gap => (ofGap gap).filterMap skipped? := by
  induction segments generalizing position with
  | nil => rfl
  | cons segment segments ih =>
    cases segment with
    | skipped c => exact ih (position + 1)
    | matched text names =>
      cases h : s.classify names <;>
        simp [behind, ofMatch, Segment.gaps, List.filterMap_cons, skipped?, h, ih]

end Part

theorem Laid.ofGap {gap : List Char} (h : Laid s (position + gap.length) parts) :
    Laid s position (Part.ofGap gap ++ parts) := by
  obtain ⟨lead, tail, heq, hgap, hlead, htail⟩ := Part.exists_ofGap_eq gap
  have hback : ∀ start, start + tail.length = position + gap.length →
      Laid s start (.blank tail :: parts) := fun start hstart => .cons htail (hstart ▸ h)
  rw [heq]
  refine .cons hlead ?_
  have hlength := congrArg List.length hgap
  rw [List.length_append, List.length_append] at hlength
  show Laid s (position + lead.length) _
  split
  · rename_i hnone
    rw [hnone, List.length_nil] at hlength
    exact hback _ (by omega)
  · rename_i hsome
    refine .cons ?_ (hback _ ?_)
    · show (String.ofList _).toList ≠ [] ∧ Text.Trimmed (String.ofList _).toList
      rw [String.toList_ofList]
      exact ⟨hsome, Text.trimmed_trim gap⟩
    · show position + lead.length + (String.ofList _).toList.length + _ = _
      rw [String.toList_ofList]
      omega

theorem Laid.ofMatch {text : List Char} (h : Laid s (position + text.length) parts)
    (hmatch : s.pattern.automaton.matchAt position (text ++ parts.flatMap Part.chars) = some found)
    (hstop : found.stop = position + text.length) : Laid s position (Part.ofMatch s found text :: parts) := by
  have hchars := Part.chars_ofMatch s found text
  refine .cons ?_ (by rwa [hchars])
  rw [List.flatMap_cons, hchars]
  have hstart := (Automaton.matchAt_bounds hmatch).1
  cases hkind : s.classify found.names with
  | none =>
    rw [Part.ofMatch, hkind]
    exact ⟨hmatch, hstart, hstop, hkind⟩
  | some kind =>
    rw [Part.ofMatch, hkind]
    exact ⟨hmatch, hstart, by rw [String.toList_ofList, hstop], hkind⟩

/-- **The parts of a text that is cut from match to match lie one behind the other**, and they are the
whole text. -/
theorem Cut.laid_behind (h : Cut s.pattern.automaton position rest segments) :
    Laid s (position + (Segment.gaps segments).1.length) (Part.behind s position segments) ∧
      (Segment.gaps segments).1 ++ (Part.behind s position segments).flatMap Part.chars = rest := by
  induction h with
  | done => exact ⟨.nil, rfl⟩
  | @skip position c rest segments _ ih =>
    obtain ⟨hlaid, hrest⟩ := ih
    rw [Nat.add_assoc, Nat.add_comm 1] at hlaid
    exact ⟨hlaid, congrArg (c :: ·) hrest⟩
  | @take position text rest found segments hmatch hstop _ ih =>
    obtain ⟨hlaid, hrest⟩ := ih
    have hall := hlaid.ofGap
    have hchars := (Part.flatMap_chars_ofSegments s (position + text.length) segments).trans hrest
    rw [← hchars] at hmatch
    have hfound : found = ⟨position, position + text.length, found.names⟩ := by
      rw [← hstop, ← (Automaton.matchAt_bounds hmatch).1]
    have hlaid' := hall.ofMatch hmatch hstop
    rw [hfound] at hlaid'
    refine ⟨hlaid', ?_⟩
    show (Part.ofMatch s _ text :: Part.ofSegments s _ segments).flatMap _ = _
    rw [List.flatMap_cons, hchars, Part.chars_ofMatch]

/-! ## Runs -/

/-- **What the parts of a selector are** under a scanner. -/
structure Covers (s : Scanner) (selector : String) (parts : List Part) : Prop where
  /-- Joined, they are the selector in its normal form. -/
  chars : parts.flatMap Part.chars = (normalize selector).toList
  /-- Their tokens are those of the run, in order. -/
  tokens : parts.filterMap Part.token? = (s.run selector).tokens
  /-- The texts that are skipped are those of the run, in order. -/
  skipped : parts.filterMap Part.skipped? = (s.run selector).skipped
  /-- Their matches are those of the scan, in order. -/
  found : parts.filterMap Part.found? = Segment.places 0 (s.pattern.scan (normalize selector).toList)
  /-- Where a part lies, it is what it has to be there. -/
  stands : ∀ before part behind, parts = before ++ part :: behind →
    part.Stands s (before.flatMap Part.chars).length ((part :: behind).flatMap Part.chars)
  /-- The matches lie in the selector. -/
  bounds : ∀ found ∈ parts.filterMap Part.found?,
    found.start ≤ found.stop ∧ found.stop ≤ (normalize selector).toList.length
  /-- No two matches overlap, and the earlier one comes first. -/
  apart : (parts.filterMap Part.found?).Pairwise fun found later => found.stop ≤ later.start

namespace Scanner

theorem eq_nil_of_lost {c : Configuration} {selector : String} {text : List Char} (h : compile c = .ok s)
    (hcomments : c.CommentsEnd) (hcovers : Covers s selector parts)
    (hlost : Part.lost found text ∈ parts) : text = [] := by
  obtain ⟨before, behind, heq⟩ := List.append_of_mem hlost
  obtain ⟨hmatch, -, hstop, hnone⟩ := hcovers.stands before _ behind heq
  rcases classify_of_matchAt h hcomments hmatch with ⟨kind, hkind⟩ | hempty
  · rw [hnone] at hkind
    cases hkind
  · exact List.eq_nil_of_length_eq_zero (by omega)

/-- **A run repeats and moves nothing, and what it loses has no kind**: the normal form of a selector is made
of the tokens of its run, of the texts that are skipped, each in their order, of blanks, and of the texts of
matches without a kind. The matches do not overlap, and they come in order. If no rule ends inside of a
comment, nothing is lost. -/
theorem exists_covers {c : Configuration} (h : compile c = .ok s) (selector : String) :
    ∃ parts, Covers s selector parts ∧
      (c.CommentsEnd → ∀ found text, .lost found text ∈ parts → text = []) := by
  let segments := s.pattern.scan (normalize selector).toList
  have hcut : Cut s.pattern.automaton 0 (normalize selector).toList segments := cut_segments _ true 0 _
  obtain ⟨hlaid, hchars⟩ := hcut.laid_behind
  have hall : Laid s 0 (Part.ofSegments s 0 segments) := hlaid.ofGap
  have htext := (Part.flatMap_chars_ofSegments s 0 segments).trans hchars
  have hcovers : Covers s selector (Part.ofSegments s 0 segments) := by
    refine ⟨htext, ?_, ?_, ?_, ?_, ?_, hall.pairwise_found⟩
    · rw [Part.ofSegments, List.filterMap_append, Part.filterMap_token?_ofGap,
        Part.filterMap_token?_behind]
      rfl
    · rw [Part.ofSegments, List.filterMap_append, Part.filterMap_skipped?_behind]
      exact (Part.skipped?_gaps ((Segment.gaps segments).1 :: (Segment.gaps segments).2)).symm
    · rw [Part.ofSegments, List.filterMap_append, Part.filterMap_found?_ofGap,
        Part.filterMap_found?_behind]
      rfl
    · intro before part behind hparts
      rw [hparts] at hall
      simpa using hall.stands
    · intro found hf
      obtain ⟨-, hle, hle'⟩ := hall.found_bounds hf
      rw [htext, Nat.zero_add] at hle'
      exact ⟨hle, hle'⟩
  exact ⟨_, hcovers, fun hcomments _ _ hlost => eq_nil_of_lost h hcomments hcovers hlost⟩

/-- A rule that may match nothing: its empty matches are tokens between the texts that are skipped, and
nothing is lost. -/
theorem covers_of_empty_matches : ∃ s parts,
    compile ⟨⟨.ofList []⟩, .ofList [(.element, "[a-z]*".toList), (.id, "#[a-z]".toList)]⟩ = .ok s ∧
    Covers s "> é\t#b" parts ∧ (∀ found text, .lost found text ∈ parts → text = []) ∧
    parts.filterMap Part.token? =
      [⟨"", .element⟩, ⟨"", .element⟩, ⟨"", .element⟩, ⟨"", .element⟩, ⟨"#b", .id⟩] ∧
    parts.filterMap Part.skipped? = [">", "é"] := by
  let s : Scanner := ⟨"(?P<id>#[a-z])|(?P<element>[a-z]*)".toList,
    .alt (.group 0 (some "id") (.seq (.literal ['#']) (.one ⟨[(97, 122)]⟩)))
      (.group 1 (some "element") (.rep (.one ⟨[(97, 122)]⟩) 0 none true)), [.id, .element]⟩
  have hs : compile ⟨⟨.ofList []⟩, .ofList [(.element, "[a-z]*".toList), (.id, "#[a-z]".toList)]⟩ =
      .ok s := by decide +kernel
  have htokens : (s.run "> é\t#b").tokens =
      [⟨"", .element⟩, ⟨"", .element⟩, ⟨"", .element⟩, ⟨"", .element⟩, ⟨"#b", .id⟩] := by cbv
  have hskipped : (s.run "> é\t#b").skipped = [">", "é"] := by cbv
  obtain ⟨parts, hcovers, hlost⟩ := exists_covers hs "> é\t#b"
  exact ⟨s, parts, hs, hcovers, hlost (by decide +kernel), hcovers.tokens.trans htokens, hcovers.skipped.trans hskipped⟩

/-- A comment that goes on in the next rule may swallow a parenthesis there. What is left of the rule then
stands outside of all groups, and the text of its matches is neither a token nor skipped. -/
theorem lost_of_open_comment : ∃ s,
    compile ⟨⟨.ofList []⟩, .ofList [(.nameAndId, "(?x)a#".toList), (.id, "[\n)|c(]".toList)]⟩ = .ok s ∧
    (s.run "c]").tokens = [] ∧ (s.run "c]").skipped = [] ∧
    ¬ ∃ parts, Covers s "c]" parts ∧ ∀ found text, .lost found text ∈ parts → text = [] := by
  let s : Scanner := ⟨"(?P<name_and_id>(?x)a#)|(?P<id>[\n)|c(])".toList,
    .alt (.group 0 (some "name_and_id") (.literal ['a']))
      (.seq (.literal ['c']) (.group 1 none (.literal [']']))), [.nameAndId, .id]⟩
  have hs : compile ⟨⟨.ofList []⟩,
      .ofList [(.nameAndId, "(?x)a#".toList), (.id, "[\n)|c(]".toList)]⟩ = .ok s := by decide +kernel
  have htokens : (s.run "c]").tokens = [] := by cbv
  have hskipped : (s.run "c]").skipped = [] := by cbv
  refine ⟨s, hs, htokens, hskipped, ?_⟩
  rintro ⟨parts, hcovers, hlost⟩
  -- one of the parts holds the first character, which is no blank
  have hc : 'c' ∈ parts.flatMap Part.chars := by
    rw [hcovers.chars]
    decide +kernel
  obtain ⟨part, hpart, hc⟩ := List.mem_flatMap.mp hc
  cases part with
  | token found t =>
    have ht : t ∈ parts.filterMap Part.token? := List.mem_filterMap.mpr ⟨_, hpart, rfl⟩
    rw [hcovers.tokens, htokens] at ht
    cases ht
  | lost found text =>
    rw [Part.chars, hlost found text hpart] at hc
    cases hc
  | skipped text =>
    have ht : text ∈ parts.filterMap Part.skipped? := List.mem_filterMap.mpr ⟨_, hpart, rfl⟩
    rw [hcovers.skipped, hskipped] at ht
    cases ht
  | blank text =>
    obtain ⟨before, behind, heq⟩ := List.append_of_mem hpart
    exact absurd (hcovers.stands before _ behind heq 'c' hc) (by decide +kernel)

/-- Without rules the scanner matches nothing but the empty text, and no match has a kind. -/
example : (compile ⟨⟨.ofList []⟩, .ofList []⟩).toOption.map (fun s => (s.run "a b").skipped) =
    some ["a", "b"] := by
  cbv

end Scanner

end Selectors
