import Selectors.Proofs.Pattern.Bounds
import Selectors.Token

/-!
# How a scan goes on

From match to match a text is cut into segments: character by character where no match starts, and behind
the match where one starts. Segments that are skipped make no tokens.

* `segments_of_nonempty`, `segments_of_empty`, `segments_of_dropped`: up to the first match;
* `segments_of_matchAt_eq_none`, **`segments_of_matchAt_eq_some`**: at one position;
* `exists_find?_of_matched`: where the matches come from.
-/

namespace Selectors

namespace Automaton

variable {a : Automaton} {position : Nat} {rest : List Char} {found : Found} (fresh : Bool)

theorem lengths_of_find? (h : a.find? position rest = some found) :
    (rest.take (found.start - position)).length = found.start - position ∧
      ((rest.drop (found.start - position)).take (found.stop - found.start)).length =
        found.stop - found.start := by
  obtain ⟨hle, hle', hle'', -⟩ := find?_bounds h
  rw [List.length_take, List.length_take, List.length_drop]
  omega

theorem segments_of_find?_eq_none (h : a.find? position rest = none) :
    a.segments fresh position rest = rest.map .skipped := by
  rw [segments.eq_def, h]

theorem segments_of_nonempty (h : a.find? position rest = some found)
    (hlt : found.start < found.stop) : a.segments fresh position rest =
      (rest.take (found.start - position)).map .skipped ++
        .matched ((rest.drop (found.start - position)).take (found.stop - found.start)) found.names ::
          a.segments false found.stop (rest.drop (found.stop - position)) := by
  obtain ⟨hle, -⟩ := find?_bounds h
  obtain ⟨hgap, htext⟩ := lengths_of_find? h
  have hne : (rest.drop (found.start - position)).take (found.stop - found.start) ≠ [] := by
    rw [← List.length_pos_iff]; omega
  rw [segments.eq_def, h]
  simp only [dif_pos hne, htext, hgap, List.drop_drop]
  rw [show position + (found.start - position) + (found.stop - found.start) = found.stop by omega,
    show found.start - position + (found.stop - found.start) = found.stop - position by omega]

theorem segments_of_empty (h : a.find? position rest = some found) (heq : found.start = found.stop)
    (hfresh : position < found.start ∨ fresh = true) : a.segments fresh position rest =
      (rest.take (found.start - position)).map .skipped ++
        .matched [] found.names :: a.segments false found.stop (rest.drop (found.stop - position)) := by
  obtain ⟨hle, -⟩ := find?_bounds h
  obtain ⟨hgap, -⟩ := lengths_of_find? h
  have hor : rest.take (found.start - position) ≠ [] ∨ fresh = true := by
    refine hfresh.imp_left fun hlt => ?_
    rw [← List.length_pos_iff]; omega
  rw [segments.eq_def, h]
  simp only [heq, Nat.sub_self, List.take_zero, ne_eq, not_true_eq_false, dite_false]
  rw [heq] at hor hgap hle
  rw [dif_pos hor, hgap, Nat.add_sub_of_le hle]

theorem segments_of_dropped (h : a.find? position rest = some found)
    (hstart : found.start = position) (hstop : found.stop = position) :
    a.segments false position rest =
      match rest with
      | [] => []
      | c :: rest => .skipped c :: a.segments true (position + 1) rest := by
  rw [segments.eq_def, h]
  cases rest <;> simp [hstart, hstop]

theorem segments_of_matchAt_eq_none {c : Char} (h : a.matchAt position (c :: rest) = none) :
    a.segments fresh position (c :: rest) = .skipped c :: a.segments true (position + 1) rest := by
  have hfind : a.find? position (c :: rest) = a.find? (position + 1) rest := by
    rw [find?_cons, h, Option.none_or]
  cases hf : a.find? (position + 1) rest with
  | none =>
    rw [segments_of_find?_eq_none fresh (hfind.trans hf), segments_of_find?_eq_none true hf]
    rfl
  | some found =>
    obtain ⟨hle, hle', -⟩ := find?_bounds hf
    obtain ⟨k, hk⟩ : ∃ k, found.start = position + 1 + k := ⟨_, (Nat.add_sub_of_le hle).symm⟩
    obtain ⟨l, hl⟩ : ∃ l, found.stop = position + 1 + l := ⟨_, (Nat.add_sub_of_le (hle.trans hle')).symm⟩
    have hshift : ∀ m, position + 1 + m - position = m + 1 := by omega
    have hshift' : ∀ m, position + 1 + m - (position + 1) = m := by omega
    by_cases hlt : found.start < found.stop
    · rw [segments_of_nonempty fresh (hfind.trans hf) hlt, segments_of_nonempty true hf hlt]
      simp only [hk, hl, hshift, hshift', List.take_succ_cons, List.drop_succ_cons, List.map_cons,
        List.cons_append]
    · have heq : found.start = found.stop := Nat.le_antisymm hle' (Nat.le_of_not_lt hlt)
      rw [segments_of_empty fresh (hfind.trans hf) heq (Or.inl hle),
        segments_of_empty true hf heq (Or.inr rfl)]
      simp only [hk, hl, hshift, hshift', List.take_succ_cons, List.drop_succ_cons, List.map_cons,
        List.cons_append]

/-- **Where a match starts that is not empty, the scan goes on behind it.** -/
theorem segments_of_matchAt_eq_some (h : a.matchAt position rest = some found)
    (hlt : position < found.stop) : a.segments fresh position rest =
      .matched (rest.take (found.stop - position)) found.names ::
        a.segments false found.stop (rest.drop (found.stop - position)) := by
  have hstart := (matchAt_bounds h).1
  rw [segments_of_nonempty fresh (find?_of_matchAt_eq_some h) (hstart ▸ hlt), hstart, Nat.sub_self]
  rfl

theorem segments_nil_of_matchAt_eq_none (h : a.matchAt position [] = none) :
    a.segments fresh position [] = [] :=
  segments_of_find?_eq_none fresh ((find?_nil position).trans h)

theorem matched_mem_skipped_append {text : List Char} {names : List String} {gap : List Char}
    {segments : List Segment} (h : .matched text names ∈ gap.map .skipped ++ segments) :
    .matched text names ∈ segments := by
  rcases List.mem_append.mp h with h | h
  · obtain ⟨c, -, hc⟩ := List.mem_map.mp h
    cases hc
  · exact h

theorem exists_find?_of_matched {text : List Char} {names : List String}
    (h : .matched text names ∈ a.segments fresh position rest) :
    ∃ position' rest' found, a.find? position' rest' = some found ∧ found.names = names := by
  fun_induction segments a fresh position rest with
  | case1 fresh position rest =>
    rw [← List.append_nil (rest.map _)] at h
    exact absurd (matched_mem_skipped_append h) List.not_mem_nil
  | case2 fresh position rest found hf gap behind matched _ ih
  | case3 fresh position rest found hf gap behind matched _ _ ih =>
    rcases List.mem_cons.mp (matched_mem_skipped_append h) with h | h
    · obtain ⟨-, rfl⟩ := Segment.matched.inj h
      exact ⟨position, rest, found, hf, rfl⟩
    · exact ih h
  | case4 => exact absurd h List.not_mem_nil
  | case5 fresh position found c rest hf gap behind matched _ _ ih =>
    rcases List.mem_cons.mp h with h | h
    · cases h
    · exact ih h

end Automaton

/-! ## Tokens -/

namespace Segment

variable {s : Scanner}

theorem filterMap_token?_skipped (cs : List Char) (segments : List Segment) :
    (cs.map skipped ++ segments).filterMap (token? s) = segments.filterMap (token? s) := by
  rw [List.filterMap_append, List.filterMap_map]
  have hnone : cs.filterMap (token? s ∘ skipped) = [] := List.filterMap_eq_nil_iff.mpr fun _ _ => rfl
  rw [hnone, List.nil_append]

theorem filterMap_token?_matched {names : List String} {kind : RuleKind} (text : List Char)
    (segments : List Segment) (h : s.classify names = some kind) :
    (matched text names :: segments).filterMap (token? s) =
      ⟨.ofList text, kind⟩ :: segments.filterMap (token? s) := by
  refine List.filterMap_cons_some ?_
  show (s.classify names).map _ = _
  rw [h]
  rfl

theorem skipped_of_mem_gaps {segments : List Segment} {gap : List Char} {c : Char}
    (hgap : gap ∈ (gaps segments).1 :: (gaps segments).2) (hc : c ∈ gap) : skipped c ∈ segments := by
  induction segments generalizing gap with
  | nil =>
    rw [List.mem_singleton.mp hgap] at hc
    cases hc
  | cons segment segments ih =>
    cases segment with
    | skipped d =>
      rcases List.mem_cons.mp hgap with rfl | hgap
      · rcases List.mem_cons.mp hc with rfl | hc
        · exact List.mem_cons_self
        · exact List.mem_cons_of_mem _ (ih List.mem_cons_self hc)
      · exact List.mem_cons_of_mem _ (ih (List.mem_cons_of_mem _ hgap) hc)
    | matched text names =>
      rcases List.mem_cons.mp hgap with rfl | hgap
      · cases hc
      · exact List.mem_cons_of_mem _ (ih hgap hc)

theorem mem_of_mem_trim {cs : List Char} {c : Char} (h : c ∈ Text.trim cs) : c ∈ cs := by
  have hfront := List.mem_reverse.mp ((List.dropWhile_sublist _).mem (List.mem_reverse.mp h))
  exact (List.dropWhile_sublist _).mem hfront

theorem skipped_of_mem_run {selector text : String} {c : Char} (ht : text ∈ (s.run selector).skipped)
    (hc : c ∈ text.toList) : skipped c ∈ s.pattern.scan (normalize selector).toList := by
  obtain ⟨trimmed, htrimmed, rfl⟩ := List.mem_map.mp ht
  obtain ⟨gap, hgap, rfl⟩ := List.mem_map.mp (List.mem_filter.mp htrimmed).1
  rw [String.toList_ofList] at hc
  exact skipped_of_mem_gaps hgap (mem_of_mem_trim hc)

end Segment

end Selectors
