import Selectors.Proofs.Pattern.Nested

/-!
# The lexemes of a text

What a reader notes beside its frames depends on the lexemes of the text alone: the names of the groups
that they open, and how deep the groups nest. In a text that closes no group but its own, the levels of
the groups around it stay as they are.

* `writtenNames`: the names of the groups in a text;
* `PatternReader.Notes`: what some lexemes add to names and levels; `Notes.step?`;
* **`PatternReader.exists_lexemes`**: reading a text notes what its lexemes add.
-/

namespace Selectors

/-! ## Names -/

/-- The name of the group that a lexeme opens. -/
def Lexeme.groupName? : Lexeme → Option String
  | opening (.numbered name) => name
  | _ => none

/-- The names of the groups that are written in a text, from left to right. -/
def writtenNames (text : List Char) : List String :=
  ((PatternLexer.start.lexemes? text).map fun (_, lexemes) => lexemes.filterMap Lexeme.groupName?).getD []

namespace PatternReader

variable {r s : PatternReader} {text : List Char} {levels outer : List Level}

/-! ## One lexeme -/

theorem names_step? {lexeme : Lexeme} (h : r.step? lexeme = some s) :
    s.names = lexeme.groupName?.toList ++ r.names := by
  obtain ⟨lexer, frames, ls, groups, names⟩ := r
  cases frames with
  | nil => cases h
  | cons f fs =>
    cases lexeme with
    | one | set | dot | textStart | textEnd | bar | flags | gap =>
      obtain rfl := Option.some.inj h
      rfl
    | opening kind =>
      obtain rfl := Option.some.inj h
      cases kind <;> rfl
    | closing =>
      cases fs with
      | nil => cases h
      | cons g fs =>
        obtain rfl := Option.some.inj h
        rfl
    | times | question =>
      obtain ⟨g, -, rfl⟩ := Option.map_eq_some_iff.mp h
      rfl

theorem levels_step? {lexeme : Lexeme} (h : r.step? lexeme = some s)
    (hlevels : levels.length = r.frames.length) :
    (Level.step levels lexeme).length = s.frames.length ∧
      ∀ outer, Level.step (levels ++ outer) lexeme = Level.step levels lexeme ++ outer := by
  obtain ⟨lexer, frames, ls, groups, names⟩ := r
  cases frames with
  | nil => cases h
  | cons f fs =>
    cases levels with
    | nil => cases hlevels
    | cons l levels =>
      cases lexeme with
      | one | set | dot | textStart | textEnd | bar | flags | gap =>
        obtain rfl := Option.some.inj h
        exact ⟨hlevels, fun _ => rfl⟩
      | opening kind =>
        obtain rfl := Option.some.inj h
        cases kind <;> exact ⟨congrArg (· + 1) hlevels, fun _ => rfl⟩
      | closing =>
        cases fs with
        | nil => cases h
        | cons g fs =>
          obtain rfl := Option.some.inj h
          cases levels with
          | nil => cases hlevels
          | cons k levels => exact ⟨Nat.succ.inj hlevels, fun _ => rfl⟩
      | times | question =>
        obtain ⟨g, -, rfl⟩ := Option.map_eq_some_iff.mp h
        exact ⟨hlevels, fun _ => rfl⟩

/-! ## Many lexemes -/

/-- From `r` to `s` the names are noted that the lexemes write, and the levels follow the frames. -/
structure Notes (r s : PatternReader) (lexemes : List Lexeme) : Prop where
  names_eq : s.names = (lexemes.filterMap Lexeme.groupName?).reverse ++ r.names
  levels : ∀ levels, levels.length = r.frames.length →
    (lexemes.foldl Level.step levels).length = s.frames.length ∧
      ∀ outer, lexemes.foldl Level.step (levels ++ outer) = lexemes.foldl Level.step levels ++ outer

namespace Notes

theorem refl (r : PatternReader) : Notes r r [] := ⟨rfl, fun _ h => ⟨h, fun _ => rfl⟩⟩

theorem trans {q : PatternReader} {lexemes lexemes' : List Lexeme} (h : Notes r q lexemes)
    (h' : Notes q s lexemes') : Notes r s (lexemes ++ lexemes') := by
  refine ⟨?_, fun levels hlevels => ?_⟩
  · rw [h'.names_eq, h.names_eq, List.filterMap_append, List.reverse_append, List.append_assoc]
  · obtain ⟨hlength, happend⟩ := h.levels levels hlevels
    obtain ⟨hlength', happend'⟩ := h'.levels _ hlength
    simp only [List.foldl_append]
    exact ⟨hlength', fun outer => by rw [happend, happend']⟩

theorem step? {lexeme : Lexeme} (h : r.step? lexeme = some s) : Notes r s [lexeme] := by
  refine ⟨?_, fun levels hlevels => levels_step? h hlevels⟩
  rw [names_step? h]
  cases hname : lexeme.groupName? <;> simp [hname]

theorem steps? {lexemes : List Lexeme} (h : lexemes.foldlM PatternReader.step? r = some s) :
    Notes r s lexemes := by
  induction lexemes generalizing r with
  | nil =>
    obtain rfl := Option.some.inj h
    exact refl r
  | cons lexeme lexemes ih =>
    rw [List.foldlM_cons] at h
    obtain ⟨q, hq, h⟩ := Option.bind_eq_some_iff.mp h
    exact (step? hq).trans (ih h)

end Notes

/-- **Reading a text notes what its lexemes add.** -/
theorem exists_lexemes (h : r.read? text = some s) : ∃ lexemes,
    r.lexer.lexemes? text = some (s.lexer, lexemes) ∧
      s.levels = lexemes.foldl Level.step r.levels ∧ Notes r s lexemes := by
  induction text generalizing r with
  | nil =>
    obtain rfl := Option.some.inj h
    exact ⟨[], rfl, rfl, .refl r⟩
  | cons c text ih =>
    rw [read?_cons, Option.bind_eq_some_iff] at h
    obtain ⟨q, hq, h⟩ := h
    obtain ⟨lexer, first, next, hfeed, hnext, rfl⟩ := feed?_eq_some_iff.mp hq
    obtain ⟨rest, hrest, hlevels, hnotes⟩ := ih h
    refine ⟨first ++ rest,
      PatternLexer.lexemes?_cons_eq_some_iff.mpr ⟨lexer, first, rest, hfeed, hrest, rfl⟩, ?_, ?_⟩
    · rw [hlevels, List.foldl_append]
    · have hfirst := Notes.steps? hnext
      exact Notes.trans (q := { next with lexer, levels := first.foldl Level.step r.levels })
        ⟨hfirst.names_eq, hfirst.levels⟩ hnotes

/-- **The levels around a text stay as they are** while it is read. -/
theorem levels_within {r' s' : PatternReader} (h : r.read? text = some s)
    (h' : r'.read? text = some s') {around : List Bool} (hlexer : r'.lexer = r.lexer.within around)
    (hlength : r.levels.length = r.frames.length) (hlevels : r'.levels = r.levels ++ outer) :
    s'.levels = s.levels ++ outer := by
  obtain ⟨lexemes, hlexemes, hs, hnotes⟩ := exists_lexemes h
  obtain ⟨lexemes', hlexemes', hs', -⟩ := exists_lexemes h'
  rw [hlexer, PatternLexer.lexemes?_within around hlexemes] at hlexemes'
  obtain ⟨-, rfl⟩ := Prod.mk.inj (Option.some.inj hlexemes')
  rw [hs', hs, hlevels, (hnotes.levels _ hlength).2]

theorem names_eq_writtenNames (h : start.read? text = some s) :
    s.names = (writtenNames text).reverse := by
  obtain ⟨lexemes, hlexemes, -, hnotes⟩ := exists_lexemes h
  have hwritten : writtenNames text = lexemes.filterMap Lexeme.groupName? := by
    unfold writtenNames
    rw [show PatternLexer.start.lexemes? text = some (s.lexer, lexemes) from hlexemes]
    rfl
  rw [hnotes.names_eq, hwritten]
  exact List.append_nil _

theorem comment_eq_true_iff (h : start.read? text = some s) :
    s.lexer.comment = true ↔ EndsInComment text := by
  obtain ⟨lexemes, hlexemes, -⟩ := exists_lexemes h
  unfold EndsInComment
  rw [show PatternLexer.start.lexemes? text = some (s.lexer, lexemes) from hlexemes]
  exact Option.some_inj.symm

end PatternReader

end Selectors
