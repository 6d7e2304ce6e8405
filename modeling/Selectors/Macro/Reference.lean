/-!
# Macro references

A *reference* in a pattern fragment is `#{`, one or more characters other than `}`, and `}`. An
empty `#{}` and an opening without a closing brace are ordinary text.

* `Reference.first?`: the first reference of a text, with the text on both sides of it;
* `first?_eq_some_text`: the three parts give the text back;
* `pieces`: a fragment cut at its references (`flatMap_chars_pieces`);
* `references`: the names referenced, left to right.
-/

namespace Selectors.Macro

/-- A reference found in a text: the text before it, the name, and the text behind it. -/
structure Reference where
  before : List Char
  name : List Char
  after : List Char
  deriving DecidableEq

/-- The text up to the first `}`, and the text behind that brace. -/
def untilBrace : List Char → Option (List Char × List Char)
  | [] => none
  | c :: cs =>
    if c = '}' then some ([], cs) else (untilBrace cs).map fun (name, after) => (c :: name, after)

theorem untilBrace_eq_some {cs name after : List Char} (h : untilBrace cs = some (name, after)) :
    cs = name ++ '}' :: after ∧ '}' ∉ name := by
  induction cs generalizing name with
  | nil => simp [untilBrace] at h
  | cons c cs ih =>
    rw [untilBrace] at h
    split at h
    · rename_i hc
      cases h
      exact ⟨by rw [hc]; rfl, List.not_mem_nil⟩
    · rename_i hc
      obtain ⟨⟨n, a⟩, hna, he⟩ := Option.map_eq_some_iff.mp h
      cases he
      obtain ⟨rfl, hn⟩ := ih hna
      exact ⟨rfl, fun hm => (List.mem_cons.mp hm).elim (fun e => hc e.symm) hn⟩

theorem untilBrace_eq_none {cs : List Char} : untilBrace cs = none ↔ '}' ∉ cs := by
  induction cs with
  | nil => simp [untilBrace]
  | cons c cs ih =>
    rw [untilBrace]
    split
    · simp_all
    · rename_i hc
      rw [Option.map_eq_none_iff, ih, List.mem_cons, not_or]
      exact ⟨fun h => ⟨fun e => hc e.symm, h⟩, And.right⟩

namespace Reference

/-- The same reference, further to the right. -/
def shift (skipped : List Char) (r : Reference) : Reference :=
  { r with before := skipped ++ r.before }

/-- The first reference of a text. -/
def first? : List Char → Option Reference
  | '#' :: '{' :: '}' :: cs => (first? cs).map (shift ['#', '{', '}'])
  | '#' :: '{' :: cs => (untilBrace cs).map fun (name, after) => ⟨[], name, after⟩
  | c :: cs => (first? cs).map (shift [c])
  | [] => none

/-- The text in which the reference stands. -/
def text (r : Reference) : List Char := r.before ++ '#' :: '{' :: r.name ++ '}' :: r.after

/-- The parts of the first reference give the text back, and its name is a name. -/
theorem first?_eq_some_text {cs : List Char} {r : Reference} (h : first? cs = some r) :
    r.text = cs ∧ r.name ≠ [] ∧ '}' ∉ r.name := by
  fun_induction first? cs generalizing r with
  | case1 cs ih =>
    obtain ⟨s, hs, rfl⟩ := Option.map_eq_some_iff.mp h
    obtain ⟨rfl, hn⟩ := ih hs
    exact ⟨rfl, hn⟩
  | case2 cs hne =>
    obtain ⟨⟨name, after⟩, hu, rfl⟩ := Option.map_eq_some_iff.mp h
    obtain ⟨rfl, hn⟩ := untilBrace_eq_some hu
    refine ⟨rfl, fun hnil => ?_, hn⟩
    obtain rfl : name = [] := hnil
    exact hne after rfl
  | case3 c cs _ _ ih =>
    obtain ⟨s, hs, rfl⟩ := Option.map_eq_some_iff.mp h
    obtain ⟨rfl, hn⟩ := ih hs
    exact ⟨rfl, hn⟩
  | case4 => simp at h

theorem length_after_lt {cs : List Char} {r : Reference} (h : first? cs = some r) :
    r.after.length < cs.length := by
  rw [← (first?_eq_some_text h).1]
  simp only [text, List.length_append, List.length_cons]
  omega

end Reference

/-! ## Pieces -/

/-- A stretch of a fragment: ordinary text or a reference. -/
inductive Piece where
  | text (cs : List Char)
  | reference (name : String)
  deriving DecidableEq

namespace Piece

/-- The name of a reference. -/
def name? : Piece → Option String
  | text _ => none
  | reference name => some name

/-- The fragment's text of a piece. -/
def chars : Piece → List Char
  | text cs => cs
  | reference name => '#' :: '{' :: name.toList ++ ['}']

end Piece

/-- A fragment, cut at its references. -/
def pieces (cs : List Char) : List Piece :=
  match h : Reference.first? cs with
  | none => [.text cs]
  | some r =>
    have _ := Reference.length_after_lt h
    .text r.before :: .reference (.ofList r.name) :: pieces r.after
termination_by cs.length

theorem pieces_of_none {cs : List Char} (h : Reference.first? cs = none) :
    pieces cs = [.text cs] := by
  rw [pieces]; split <;> simp_all

theorem pieces_of_some {cs : List Char} {r : Reference} (h : Reference.first? cs = some r) :
    pieces cs = .text r.before :: .reference (.ofList r.name) :: pieces r.after := by
  rw [pieces]; split <;> simp_all

/-- The pieces give the fragment back. -/
theorem flatMap_chars_pieces (cs : List Char) : (pieces cs).flatMap Piece.chars = cs := by
  match h : Reference.first? cs with
  | none => rw [pieces_of_none h]; simp [Piece.chars]
  | some r =>
    have _ := Reference.length_after_lt h
    rw [pieces_of_some h, List.flatMap_cons, List.flatMap_cons, flatMap_chars_pieces r.after]
    conv => rhs; rw [← (Reference.first?_eq_some_text h).1]
    simp [Piece.chars, Reference.text]
termination_by cs.length

/-- The names referenced by a fragment, left to right. -/
def references (cs : List Char) : List String := (pieces cs).filterMap Piece.name?

theorem references_of_none {cs : List Char} (h : Reference.first? cs = none) :
    references cs = [] := by
  rw [references, pieces_of_none h]; rfl

theorem references_of_some {cs : List Char} {r : Reference} (h : Reference.first? cs = some r) :
    references cs = .ofList r.name :: references r.after := by
  rw [references, pieces_of_some h]; rfl

example : references ("a#{x}b#{}c##{y}".toList ++ ['#', '{', 'z']) = ["x", "y"] := by
  decide +kernel

end Selectors.Macro
