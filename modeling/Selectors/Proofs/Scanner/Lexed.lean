import Selectors.Proofs.Pattern.Alternatives
import Selectors.Proofs.Scanner.Fragments
import Selectors.Proofs.Scanner.Segments
import Selectors.Proofs.Text.Normal
import Selectors.Scanner.Standard

/-!
# The scanner of selectors is the lexer

On a text in normal form the pattern of the standard scanner has, at every position, the match that the
lexer reads there. So both give the same tokens and skip the same texts, and no character that could start
an identifier is skipped.

* `plain_normalize`: texts in normal form have no separators but spaces;
* `matchAt_standard`: the match at a position;
* `lexBehind_eq`: scanning and reading go on together;
* **`Scanner.run_standard`**: the run of the standard scanner.
-/

namespace Selectors

/-! ## Texts in normal form -/

theorem plain_normalize (selector : String) : Lexer.Plain (normalize selector).toList := by
  rw [toList_normalize]
  intro c hc hseparator
  rcases Text.mem_joinWords hc with hspace | ⟨w, hw, hcw⟩
  · exact hspace
  · have hfield := Text.mem_fields (List.mem_of_mem_filter hw) c hcw
    exact absurd hseparator (Bool.eq_false_iff.mp hfield)

namespace Scanner

open Lexer

/-! ## The pattern -/

/-- The fragments as alternatives. -/
def fragments : List Alternative :=
  RuleKind.priority.zipIdx.map fun (kind, number) => ⟨number, kind.groupName, fragmentPattern kind⟩

theorem standard_eq : (standard.pattern, standard.kinds) =
    (.ofBranches (fragments.map (·.pattern)), RuleKind.priority) := by
  decide +kernel

theorem findSome?_zipIdx {α β : Type} (f : α → Option β) (l : List α) (i : Nat) :
    (l.zipIdx i).findSome? (fun x => f x.1) = l.findSome? f := by
  induction l generalizing i with
  | nil => rfl
  | cons x l ih => rw [List.zipIdx_cons, List.findSome?_cons, List.findSome?_cons, ih]

/-- **At every position the pattern has the match that the lexer reads.** -/
theorem matchAt_standard {cs : List Char} (h : Plain cs) (position : Nat) :
    standard.pattern.automaton.matchAt position cs =
      (fragment? cs).map fun f => ⟨position, position + f.2, [f.1.groupName]⟩ := by
  have hne : fragments ≠ [] := List.ne_nil_of_length_pos (by decide)
  rw [(Prod.mk.inj standard_eq).1, Automaton.matchAt_alternatives hne]
  unfold Automaton.firstAlternative fragments fragment?
  rw [List.findSome?_map, List.map_findSome?, ← findSome?_zipIdx _ RuleKind.priority 0]
  congr 1
  funext x
  simp only [Function.comp_apply, matchAt_fragment x.1 h, Option.map_map]
  rfl

theorem classify_standard (kind : RuleKind) : standard.classify [kind.groupName] = some kind := by
  unfold classify
  rw [(Prod.mk.inj standard_eq).2]
  cases kind <;> rfl

/-! ## Scanning and reading -/

section

variable {cs : List Char} {c : Char} {kind : RuleKind} {n : Nat}

theorem segments_of_fragment? (h : Plain cs) (hf : fragment? cs = some (kind, n)) (fresh : Bool)
    (position : Nat) : standard.pattern.automaton.segments fresh position cs =
      .matched (cs.take n) [kind.groupName] ::
        standard.pattern.automaton.segments false (position + n) (cs.drop n) := by
  have hmatch := matchAt_standard h position
  rw [hf, Option.map_some] at hmatch
  have hpos : 0 < n := (fragment?_pos hf).1
  rw [Automaton.segments_of_matchAt_eq_some fresh hmatch (Nat.lt_add_of_pos_right hpos),
    Nat.add_sub_cancel_left]

theorem segments_of_fragment?_none (h : Plain (c :: cs)) (hf : fragment? (c :: cs) = none)
    (fresh : Bool) (position : Nat) :
    standard.pattern.automaton.segments fresh position (c :: cs) =
      .skipped c :: standard.pattern.automaton.segments true (position + 1) cs := by
  have hmatch := matchAt_standard h position
  rw [hf, Option.map_none] at hmatch
  exact Automaton.segments_of_matchAt_eq_none fresh hmatch

theorem segments_nil (fresh : Bool) (position : Nat) :
    standard.pattern.automaton.segments fresh position [] = [] := by
  have hplain : Plain [] := fun c hc => absurd hc List.not_mem_nil
  exact Automaton.segments_nil_of_matchAt_eq_none fresh (matchAt_standard hplain position)

/-- The texts of gaps as they are reported. -/
def reported (gaps : List (List Char)) : List String :=
  ((gaps.map Text.trim).filter (· ≠ [])).map .ofList

theorem reported_cons (gap : List Char) (gaps : List (List Char)) :
    reported (gap :: gaps) = flush gap ++ reported gaps := by
  unfold reported flush
  rw [List.map_cons, ← List.singleton_append, List.filter_append, List.map_append]

/-- **Scanning and reading go on together**, with a text skipped right before. -/
theorem lexBehind_eq (h : Plain cs) (run : List Char) (fresh : Bool) (position : Nat) :
    lexBehind run cs =
      ((standard.pattern.automaton.segments fresh position cs).filterMap (Segment.token? standard),
        reported ((run ++ (Segment.gaps (standard.pattern.automaton.segments fresh position cs)).1) ::
          (Segment.gaps (standard.pattern.automaton.segments fresh position cs)).2)) := by
  induction hl : cs.length using Nat.strong_induction_on generalizing cs run fresh position with
  | h l ih =>
  cases cs with
  | nil =>
    rw [segments_nil, lexBehind_nil, reported_cons]
    simp [Segment.gaps, reported]
  | cons c cs =>
    cases hf : fragment? (c :: cs) with
    | none =>
      rw [lexBehind_of_none hf, segments_of_fragment?_none h hf,
        ih cs.length (hl ▸ Nat.lt_succ_self _) h.tail _ true (position + 1) rfl]
      simp [List.filterMap_cons, Segment.gaps, Segment.token?]
    | some f =>
      obtain ⟨kind, n⟩ := f
      have hlt : ((c :: cs).drop n).length < l := hl ▸ length_drop_lt hf
      rw [lexBehind_of_some hf, segments_of_fragment? h hf,
        ih _ hlt (h.drop n) [] false (position + n) rfl,
        Segment.filterMap_token?_matched _ _ (classify_standard kind)]
      simp [Segment.gaps, reported_cons]

/-- The tokens of a selector are those that the lexer reads. -/
theorem tokenize_eq (selector : String) :
    tokenize selector = (lex (normalize selector).toList).1 :=
  (congrArg Prod.fst (lexBehind_eq (plain_normalize selector) [] true 0)).symm

/-- So are the texts that are skipped. -/
theorem skipped_eq (selector : String) :
    (standard.run selector).skipped = (lex (normalize selector).toList).2 :=
  (congrArg Prod.snd (lexBehind_eq (plain_normalize selector) [] true 0)).symm

/-! ## What is skipped -/

theorem isStart_of_fragment?_none (h : fragment? (c :: cs) = none) : isStart c = false := by
  refine Bool.eq_false_iff.mpr fun hstart => ?_
  have hsign : ¬ isSign c = true := by
    rw [isStart_iff] at hstart
    rw [isSign_iff]
    omega
  have hsigns : sign (c :: cs) = 0 := if_neg hsign
  have helement := List.findSome?_eq_none_iff.mp h .element (RuleKind.mem_priority _)
  rw [Option.map_eq_none_iff] at helement
  change ident? (c :: cs) = none at helement
  unfold ident? at helement
  rw [hsigns, List.drop_zero, item?_of_isChar hstart] at helement
  cases helement

theorem isStart_of_skipped (h : Plain cs) (fresh : Bool) (position : Nat)
    (hc : .skipped c ∈ standard.pattern.automaton.segments fresh position cs) : isStart c = false := by
  induction hl : cs.length using Nat.strong_induction_on generalizing cs fresh position with
  | h l ih =>
  cases cs with
  | nil =>
    rw [segments_nil] at hc
    cases hc
  | cons d cs =>
    cases hf : fragment? (d :: cs) with
    | none =>
      rw [segments_of_fragment?_none h hf] at hc
      rcases List.mem_cons.mp hc with heq | hc
      · obtain rfl := Segment.skipped.inj heq
        exact isStart_of_fragment?_none hf
      · exact ih cs.length (hl ▸ Nat.lt_succ_self _) h.tail _ _ hc rfl
    | some f =>
      obtain ⟨kind, n⟩ := f
      have hlt : ((d :: cs).drop n).length < l := hl ▸ length_drop_lt hf
      rw [segments_of_fragment? h hf] at hc
      rcases List.mem_cons.mp hc with heq | hc
      · cases heq
      · exact ih _ hlt (h.drop n) _ _ hc rfl

end

/-- **The standard scanner gives what the lexer gives**: the same tokens, and the same texts skipped. The
lexer reads the longest identifiers, and a character that could start one is never skipped. -/
theorem run_standard (selector : String) :
    ((standard.run selector).tokens, (standard.run selector).skipped) =
        lex (normalize selector).toList ∧
      (∀ cs n, ident? cs = some n ↔
        n ≤ cs.length ∧ IsIdent (cs.take n) ∧ ∀ m ≤ cs.length, IsIdent (cs.take m) → m ≤ n) ∧
      (∀ c, .skipped c ∈ standard.pattern.scan (normalize selector).toList → isStart c = false) ∧
      ∀ text ∈ (standard.run selector).skipped, ∀ c ∈ text.toList, isStart c = false := by
  have hplain := plain_normalize selector
  have hskipped : ∀ c, .skipped c ∈ standard.pattern.scan (normalize selector).toList →
      isStart c = false := fun c hc => isStart_of_skipped hplain true 0 hc
  exact ⟨(lexBehind_eq hplain [] true 0).symm, fun _ _ => ident?_eq_some_iff, hskipped,
    fun text ht c hc => hskipped c (Segment.skipped_of_mem_run ht hc)⟩

end Scanner

end Selectors
