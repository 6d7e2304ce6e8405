import Selectors.Proofs.Macro.FirstReference

/-!
# Searching by byte offsets

The first reference of a text can be searched for in its UTF-8 bytes: find an opening, cut behind it, find the
next closing brace, and start again behind that brace if there is nothing in between. Such a search cuts the
text at offsets, and an offset inside of a character is no place for a cut. It comes to an end, each of its cuts
lies between two characters, and it finds what `first?` finds.

* `cut?`: a text cut at a byte offset; **`isSome_cut?_iff`**: where it can be cut;
* `offset?`: where a pattern occurs first;
* `Reference.round?`, `Reference.Searches`: one round of the search, and its rounds one after another;
  `exists_round`: what a round comes to;
* **`Reference.searches_iff`**: what the search finds.
-/

namespace Selectors.Macro

/-! ## Cuts -/

section Cuts

variable {cs front back : List Char} {i : Nat}

/-- The number of bytes of a text. -/
def byteLength (cs : List Char) : Nat := (String.ofList cs).utf8ByteSize

@[simp] theorem byteLength_nil : byteLength [] = 0 := rfl

@[simp] theorem byteLength_append (cs ds : List Char) :
    byteLength (cs ++ ds) = byteLength cs + byteLength ds := by
  rw [byteLength, String.ofList_append, String.utf8ByteSize_append]
  rfl

@[simp] theorem byteLength_cons (c : Char) (cs : List Char) :
    byteLength (c :: cs) = c.utf8Size + byteLength cs := by
  rw [← List.singleton_append, byteLength_append]
  congr 1
  rw [byteLength, ← String.singleton_eq_ofList, String.utf8ByteSize_singleton]

/-- The text before a byte offset and the text behind it. There is no cut inside of a character. -/
def cut? : Nat → List Char → Option (List Char × List Char)
  | 0, cs => some ([], cs)
  | _ + 1, [] => none
  | i + 1, c :: cs =>
    if c.utf8Size ≤ i + 1 then
      (cut? (i + 1 - c.utf8Size) cs).map fun (front, back) => (c :: front, back)
    else none

theorem cut?_append (front back : List Char) :
    cut? (byteLength front) (front ++ back) = some (front, back) := by
  induction front with
  | nil => rw [byteLength_nil, List.nil_append, cut?]
  | cons c front ih =>
    obtain ⟨i, hi⟩ : ∃ i, byteLength (c :: front) = i + 1 :=
      Nat.exists_eq_succ_of_ne_zero (by have := c.utf8Size_pos; rw [byteLength_cons]; omega)
    rw [byteLength_cons] at hi
    rw [byteLength_cons, hi, List.cons_append, cut?, if_pos (by omega), ← hi, Nat.add_sub_cancel_left, ih]
    rfl

theorem cut?_of_eq {text : List Char} (htext : text = front ++ back) (hi : i = byteLength front) :
    cut? i text = some (front, back) := by
  rw [htext, hi, cut?_append]

theorem of_cut? (h : cut? i cs = some (front, back)) : cs = front ++ back ∧ i = byteLength front := by
  fun_induction cut? i cs generalizing front with
  | case1 cs => cases h; exact ⟨rfl, rfl⟩
  | case2 => cases h
  | case3 i c cs hle ih =>
    obtain ⟨⟨front, back⟩, hcut, heq⟩ := Option.map_eq_some_iff.mp h
    cases heq
    obtain ⟨rfl, hlength⟩ := ih hcut
    exact ⟨rfl, by rw [byteLength_cons]; omega⟩
  | case4 => cases h

/-- **A text is cut exactly between characters**, at the valid positions of the string. -/
theorem isSome_cut?_iff : (cut? i cs).isSome ↔ (String.Pos.Raw.mk i).IsValid (.ofList cs) := by
  rw [Option.isSome_iff_exists, String.Pos.Raw.isValid_ofList]
  constructor
  · rintro ⟨⟨front, back⟩, hcut⟩
    obtain ⟨rfl, rfl⟩ := of_cut? hcut
    exact ⟨front.length, by rw [List.take_left]; rfl⟩
  · rintro ⟨k, rfl⟩
    have hcut := cut?_append (cs.take k) (cs.drop k)
    rw [List.take_append_drop] at hcut
    exact ⟨_, hcut⟩

example : cut? 2 ['é', 'a'] = some (['é'], ['a']) ∧ cut? 1 ['é', 'a'] = none := by decide

end Cuts

/-! ## Occurrences of a pattern -/

/-- The byte offset at which a pattern occurs first. -/
def offset? (pattern : List Char) : List Char → Option Nat
  | [] => if pattern = [] then some 0 else none
  | c :: cs => if pattern <+: c :: cs then some 0 else (offset? pattern cs).map (c.utf8Size + ·)

theorem offset?_brace (cs : List Char) :
    offset? ['}'] cs = (untilBrace cs).map fun (name, _) => byteLength name := by
  induction cs with
  | nil => rfl
  | cons c cs ih =>
    rw [offset?, untilBrace, ih]
    by_cases hc : c = '}'
    · rw [if_pos (by simp [hc]), if_pos hc]
      rfl
    · rw [if_neg (by simp [Ne.symm hc]), if_neg hc, Option.map_map, Option.map_map]
      congr 1
      funext p
      exact (byteLength_cons c p.1).symm

namespace Reference

section Openings

variable {cs : List Char} {c : Char} {i : Nat}

theorem map_shift_shift (front back : List Char) (r : Option Reference) :
    (r.map (shift back)).map (shift front) = r.map (shift (front ++ back)) := by
  rw [Option.map_map]
  congr 1
  funext r
  exact congrArg (Reference.mk · r.name r.after) (List.append_assoc front back r.before).symm

theorem first?_opening (back : List Char) : first? ('#' :: '{' :: back) =
    match untilBrace back with
    | none => none
    | some ([], after) => (first? after).map (shift ['#', '{', '}'])
    | some (name, after) => some ⟨[], name, after⟩ := by
  cases back with
  | nil => rfl
  | cons c back =>
    by_cases hc : c = '}'
    · rw [hc, first?, untilBrace, if_pos rfl]
    · rw [first?, untilBrace, if_neg hc]
      · cases untilBrace back <;> rfl
      · exact fun ds heq => hc (List.cons.inj heq).1

theorem first?_cons (h : ¬ ['#', '{'] <+: c :: cs) : first? (c :: cs) = (first? cs).map (shift [c]) := by
  rw [first?]
  · rintro ds rfl rfl
    exact h (by simp)
  · rintro ds rfl rfl
    exact h (by simp)

theorem first?_of_offset?_none (h : offset? ['#', '{'] cs = none) : first? cs = none := by
  induction cs with
  | nil => rfl
  | cons c cs ih =>
    rw [offset?] at h
    split at h
    · cases h
    · rename_i hnot
      rw [first?_cons hnot, ih (Option.map_eq_none_iff.mp h)]
      rfl

theorem first?_of_offset? (h : offset? ['#', '{'] cs = some i) : ∃ front back,
    cs = front ++ '#' :: '{' :: back ∧ i = byteLength front ∧
      first? cs = (first? ('#' :: '{' :: back)).map (shift front) := by
  induction cs generalizing i with
  | nil => cases h
  | cons c cs ih =>
    rw [offset?] at h
    split at h
    · rename_i hopening
      obtain ⟨back, hback⟩ := hopening
      obtain rfl := Option.some.inj h
      refine ⟨[], back, hback.symm, rfl, ?_⟩
      rw [← hback]
      exact Option.map_id'.symm
    · rename_i hnot
      obtain ⟨j, hj, rfl⟩ := Option.map_eq_some_iff.mp h
      obtain ⟨front, back, rfl, rfl, hfirst⟩ := ih hj
      refine ⟨c :: front, back, rfl, (byteLength_cons c front).symm, ?_⟩
      rw [first?_cons hnot, hfirst, map_shift_shift]
      rfl

end Openings

/-! ## The search -/

/-- What comes of a round of the search: there is no reference, or the first one is found, or the search
starts again at an offset. -/
inductive Round where
  | nothing
  | found (r : Reference)
  | again (start : Nat)

/-- **One round of the search**, from a byte offset on; there is none if the text cannot be cut at an
offset. -/
def round? (text : List Char) (start : Nat) : Option Round := do
  let (_, rest) ← cut? start text
  let some i := offset? ['#', '{'] rest | return .nothing
  let opening := start + i + 2
  let (_, inner) ← cut? opening text
  let some j := offset? ['}'] inner | return .nothing
  let closing := opening + j
  if opening < closing then
    let (before, _) ← cut? (start + i) text
    let (name, _) ← cut? (closing - opening) inner
    let (_, after) ← cut? (closing + 1) text
    return .found ⟨before, name, after⟩
  else
    return .again (closing + 1)

/-- What a round behind the text `skipped` comes to, by what stands there. -/
inductive Advances (skipped : List Char) : (rest : List Char) → Round → Prop
  /-- There is no reference. -/
  | nothing {rest} (h : first? rest = none) : Advances skipped rest .nothing
  /-- The first reference is found. -/
  | found {rest r} (h : first? rest = some r) : Advances skipped rest (.found (r.shift skipped))
  /-- There is no reference up to the end of an empty `#{}`. -/
  | again {front back} (h : first? (front ++ '#' :: '{' :: '}' :: back) =
      (first? back).map (shift (front ++ ['#', '{', '}']))) :
      Advances skipped (front ++ '#' :: '{' :: '}' :: back)
        (.again (byteLength (skipped ++ (front ++ ['#', '{', '}']))))

theorem utf8Size_marks : '#'.utf8Size = 1 ∧ '{'.utf8Size = 1 ∧ '}'.utf8Size = 1 := by decide

theorem round?_of_opening (skipped : List Char) {front back : List Char}
    (h : offset? ['#', '{'] (front ++ '#' :: '{' :: back) = some (byteLength front)) :
    round? (skipped ++ (front ++ '#' :: '{' :: back)) (byteLength skipped) =
      some (match untilBrace back with
        | none => .nothing
        | some ([], _) => .again (byteLength (skipped ++ (front ++ ['#', '{', '}'])))
        | some (name, after) => .found ⟨skipped ++ front, name, after⟩) := by
  have hcut := cut?_append skipped (front ++ '#' :: '{' :: back)
  have hinner : cut? (byteLength skipped + byteLength front + 2)
      (skipped ++ (front ++ '#' :: '{' :: back)) = some (skipped ++ (front ++ ['#', '{']), back) :=
    cut?_of_eq (by simp) (by simp [utf8Size_marks, Nat.add_assoc])
  have hclosing := offset?_brace back
  cases hname : untilBrace back with
  | none =>
    rw [hname, Option.map_none] at hclosing
    simp only [round?, hcut, h, hinner, hclosing, Option.bind_eq_bind, Option.bind_some, Option.pure_def]
  | some p =>
    obtain ⟨name, after⟩ := p
    obtain ⟨rfl, -⟩ := untilBrace_eq_some hname
    rw [hname, Option.map_some] at hclosing
    simp only [round?, hcut, h, hinner, hclosing, Option.bind_eq_bind, Option.bind_some, Option.pure_def]
    cases name with
    | nil =>
      rw [if_neg (by simp)]
      simp [utf8Size_marks]
      omega
    | cons c name =>
      have hbefore : cut? (byteLength skipped + byteLength front)
          (skipped ++ (front ++ '#' :: '{' :: (c :: name ++ '}' :: after))) =
            some (skipped ++ front, '#' :: '{' :: (c :: name ++ '}' :: after)) :=
        cut?_of_eq (List.append_assoc ..).symm (byteLength_append ..).symm
      have hafter : cut? (byteLength skipped + byteLength front + 2 + byteLength (c :: name) + 1)
          (skipped ++ (front ++ '#' :: '{' :: (c :: name ++ '}' :: after))) =
            some (skipped ++ (front ++ '#' :: '{' :: (c :: name ++ ['}'])), after) :=
        cut?_of_eq (by simp) (by simp [utf8Size_marks]; omega)
      have hpos : 0 < byteLength (c :: name) := by
        rw [byteLength_cons]
        exact Nat.add_pos_left c.utf8Size_pos _
      rw [if_pos (Nat.lt_add_of_pos_right hpos), Nat.add_sub_cancel_left, hbefore, hafter, cut?_append]
      rfl

theorem exists_round (skipped rest : List Char) : ∃ round,
    round? (skipped ++ rest) (byteLength skipped) = some round ∧ Advances skipped rest round := by
  cases hopening : offset? ['#', '{'] rest with
  | none =>
    refine ⟨.nothing, ?_, .nothing (first?_of_offset?_none hopening)⟩
    simp only [round?, cut?_append, hopening, Option.bind_eq_bind, Option.bind_some, Option.pure_def]
  | some i =>
    obtain ⟨front, back, rfl, rfl, hfirst⟩ := first?_of_offset? hopening
    refine ⟨_, round?_of_opening skipped hopening, ?_⟩
    rw [first?_opening] at hfirst
    cases hname : untilBrace back with
    | none =>
      rw [hname] at hfirst
      exact .nothing hfirst
    | some p =>
      obtain ⟨name, after⟩ := p
      rw [hname] at hfirst
      cases name with
      | nil =>
        obtain ⟨rfl, -⟩ := untilBrace_eq_some hname
        exact .again (hfirst.trans (map_shift_shift ..))
      | cons c name =>
        rw [Option.map_some, shift, List.append_nil] at hfirst
        show Advances skipped _ (.found ((Reference.mk front (c :: name) after).shift skipped))
        exact .found hfirst

/-- **The search from a byte offset on**, round by round. A text that cannot be cut at an offset has no result. -/
inductive Searches (text : List Char) : (start : Nat) → Option Reference → Prop
  | nothing {start} (h : round? text start = some .nothing) : Searches text start none
  | found {start r} (h : round? text start = some (.found r)) : Searches text start (some r)
  | again {start next result} (h : round? text start = some (.again next))
      (rest : Searches text next result) : Searches text start result

variable {text skipped rest : List Char} {start : Nat} {result result' : Option Reference}

theorem Searches.unique (h : Searches text start result) (h' : Searches text start result') :
    result' = result := by
  induction h with
  | nothing hround =>
    cases h' with
    | nothing => rfl
    | found hround' => cases hround.symm.trans hround'
    | again hround' => cases hround.symm.trans hround'
  | found hround =>
    cases h' with
    | nothing hround' => cases hround.symm.trans hround'
    | found hround' => cases hround.symm.trans hround'; rfl
    | again hround' => cases hround.symm.trans hround'
  | again hround _ ih =>
    cases h' with
    | nothing hround' => cases hround.symm.trans hround'
    | found hround' => cases hround.symm.trans hround'
    | again hround' rest' => cases hround.symm.trans hround'; exact ih rest'

theorem searches_append (skipped rest : List Char) :
    Searches (skipped ++ rest) (byteLength skipped) ((first? rest).map (shift skipped)) := by
  obtain ⟨round, hround, hadvances⟩ := exists_round skipped rest
  cases hadvances with
  | nothing hfirst =>
    rw [hfirst]
    exact .nothing hround
  | found hfirst =>
    rw [hfirst]
    exact .found hround
  | @again front back hfirst =>
    have htext : skipped ++ (front ++ '#' :: '{' :: '}' :: back) =
        (skipped ++ (front ++ ['#', '{', '}'])) ++ back := by simp
    have hnext := searches_append (skipped ++ (front ++ ['#', '{', '}'])) back
    rw [← htext, ← map_shift_shift, ← hfirst] at hnext
    exact .again hround hnext
termination_by rest.length
decreasing_by all_goals simp; omega

/-- **The search ends, each of its cuts lies between characters**, and it finds the first reference. -/
theorem searches_iff : Searches text 0 result ↔ result = first? text := by
  have hsearch := searches_append [] text
  rw [show (first? text).map (shift []) = first? text from Option.map_id'] at hsearch
  exact ⟨hsearch.unique, fun h => h ▸ hsearch⟩

end Reference

end Selectors.Macro
