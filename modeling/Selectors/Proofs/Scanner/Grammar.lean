import Selectors.Proofs.Scanner.Fragments

/-!
# The grammar of fragments

What the fragments of each kind look like. The lexer reads a fragment of a kind where it reads that kind, and it
reads every fragment to its end: the identifiers end where the marks stand, and none of the kinds that come first
applies.

* `IsFragment`: the grammar;
* **`isFragment_of_length?`**, **`isFragment_iff`**: what is read as a kind, and what is read to its end;
* **`fragment?_of_isFragment`**: the kind of a fragment.
-/

namespace Selectors.Lexer

variable {cs v w : List Char} {mark other : Char} {kind : RuleKind} {n : Nat}

/-- **The fragments of each kind.** -/
inductive IsFragment : RuleKind → List Char → Prop
  | nameAndId {v w : List Char} (hv : IsIdent v) (hw : IsIdent w) : IsFragment .nameAndId (v ++ '#' :: w)
  | id {w : List Char} (hw : IsIdent w) : IsFragment .id ('#' :: w)
  | nameAndClass {v w : List Char} (hv : IsIdent v) (hw : IsIdent w) :
      IsFragment .nameAndClass (v ++ '.' :: w)
  | className {w : List Char} (hw : IsIdent w) : IsFragment .className ('.' :: w)
  | element {w : List Char} (hw : IsIdent w) : IsFragment .element w
  | pseudoClass {w : List Char} (hw : IsIdent w) : IsFragment .pseudoClass (':' :: w)

/-! ## What is read -/

theorem isIdent_of_marked? (h : marked? mark cs = some n) :
    n ≤ cs.length ∧ ∃ w, cs.take n = mark :: w ∧ IsIdent w := by
  cases cs with
  | nil => cases h
  | cons c cs =>
    rw [marked?, Option.ite_none_right_eq_some] at h
    obtain ⟨rfl, h⟩ := h
    obtain ⟨m, hm, rfl⟩ := Option.map_eq_some_iff.mp h
    obtain ⟨hle, hident⟩ := isIdent_of_ident? hm
    refine ⟨?_, cs.take m, ?_, hident⟩
    · rw [List.length_cons]
      omega
    · rw [Nat.add_comm, List.take_succ_cons]

theorem isIdent_of_pair? (h : pair? mark cs = some n) :
    n ≤ cs.length ∧ ∃ v w, cs.take n = v ++ mark :: w ∧ IsIdent v ∧ IsIdent w := by
  obtain ⟨k, hk, h⟩ := Option.bind_eq_some_iff.mp h
  obtain ⟨m, hm, rfl⟩ := Option.map_eq_some_iff.mp h
  obtain ⟨hle, hv⟩ := isIdent_of_ident? hk
  obtain ⟨hle', w, heq, hw⟩ := isIdent_of_marked? hm
  rw [List.length_drop] at hle'
  refine ⟨by omega, cs.take k, w, ?_, hv, hw⟩
  rw [List.take_add, heq]

/-- **What is read as a kind is a fragment of that kind.** -/
theorem isFragment_of_length? (h : length? kind cs = some n) :
    n ≤ cs.length ∧ IsFragment kind (cs.take n) := by
  cases kind with
  | nameAndId =>
    obtain ⟨hle, v, w, heq, hv, hw⟩ := isIdent_of_pair? h
    exact ⟨hle, heq ▸ .nameAndId hv hw⟩
  | id =>
    obtain ⟨hle, w, heq, hw⟩ := isIdent_of_marked? h
    exact ⟨hle, heq ▸ .id hw⟩
  | nameAndClass =>
    obtain ⟨hle, v, w, heq, hv, hw⟩ := isIdent_of_pair? h
    exact ⟨hle, heq ▸ .nameAndClass hv hw⟩
  | className =>
    obtain ⟨hle, w, heq, hw⟩ := isIdent_of_marked? h
    exact ⟨hle, heq ▸ .className hw⟩
  | element => exact (isIdent_of_ident? h).imp_right .element
  | pseudoClass =>
    obtain ⟨hle, w, heq, hw⟩ := isIdent_of_marked? h
    exact ⟨hle, heq ▸ .pseudoClass hw⟩

theorem length?_of_fragment? (h : fragment? cs = some (kind, n)) : length? kind cs = some n := by
  obtain ⟨k, -, hk⟩ := List.exists_of_findSome?_eq_some h
  obtain ⟨m, hm, heq⟩ := Option.map_eq_some_iff.mp hk
  obtain ⟨rfl, rfl⟩ := Prod.mk.inj heq
  exact hm

/-! ## Reading at marks -/

theorem ident?_append_mark (hv : IsIdent v) (hmark : IsMark mark) (t : List Char) :
    ident? (v ++ mark :: t) = some v.length := by
  obtain ⟨n, hn, hends⟩ := hv.ends (mark :: t)
  have hlength : v.length = n := hends.resolve_right fun h => not_inside_mark hmark t h.2
  rw [hn, hlength]

theorem ident?_mark (hmark : IsMark mark) (hsign : isSign mark = false) (t : List Char) :
    ident? (mark :: t) = none := by
  obtain ⟨hname, hslash, -⟩ := hmark
  have hstart : ¬ isStart mark = true := fun h =>
    Bool.false_ne_true (hname.symm.trans (isName_iff.mpr (.inl h)))
  have hsigns : sign (mark :: t) = 0 := if_neg (Bool.eq_false_iff.mp hsign)
  unfold ident?
  rw [hsigns, List.drop_zero, item?, if_neg hstart, escape?_of_ne hslash]
  rfl

theorem marked?_mark (hw : IsIdent w) (mark : Char) : marked? mark (mark :: w) = some (mark :: w).length := by
  rw [marked?, if_pos rfl, isIdent_iff_ident?.mp hw, Option.map_some, List.length_cons, Nat.add_comm]

theorem marked?_of_ne (h : other ≠ mark) (t : List Char) : marked? mark (other :: t) = none := if_neg h

theorem marked?_of_ident? (hmark : IsMark mark) (hsign : isSign mark = false) (h : ident? cs = some n) :
    marked? mark cs = none := by
  cases cs with
  | nil => rfl
  | cons c t =>
    refine marked?_of_ne ?_ t
    rintro rfl
    cases (ident?_mark hmark hsign t).symm.trans h

theorem pair?_of_ident?_none (h : ident? cs = none) (mark : Char) : pair? mark cs = none := by
  rw [pair?, h, Option.bind_none]

theorem pair?_append_mark (hv : IsIdent v) (hother : IsMark other) (mark : Char) (t : List Char) :
    pair? mark (v ++ other :: t) = (marked? mark (other :: t)).map (v.length + ·) := by
  rw [pair?, ident?_append_mark hv hother, Option.bind_some, List.drop_left]

theorem pair?_of_isIdent (hw : IsIdent w) (mark : Char) : pair? mark w = none := by
  rw [pair?, isIdent_iff_ident?.mp hw, Option.bind_some, List.drop_length]
  rfl

/-! ## Reading fragments -/

theorem isMark_hash : IsMark '#' ∧ isSign '#' = false := by decide

theorem isMark_dot : IsMark '.' ∧ isSign '.' = false := by decide

theorem isMark_colon : IsMark ':' ∧ isSign ':' = false := by decide

theorem length?_of_isFragment (h : IsFragment kind w) : length? kind w = some w.length := by
  have hpair : ∀ {mark v w}, IsMark mark → IsIdent v → IsIdent w →
      pair? mark (v ++ mark :: w) = some (v ++ mark :: w).length := by
    intro mark v w hmark hv hw
    rw [pair?_append_mark hv hmark, marked?_mark hw, Option.map_some, List.length_append]
  cases h with
  | nameAndId hv hw => exact hpair isMark_hash.1 hv hw
  | nameAndClass hv hw => exact hpair isMark_dot.1 hv hw
  | id hw => exact marked?_mark hw '#'
  | className hw => exact marked?_mark hw '.'
  | pseudoClass hw => exact marked?_mark hw ':'
  | element hw => exact isIdent_iff_ident?.mp hw

/-- **The fragments of a kind** are the texts that are read to their end as one of that kind. -/
theorem isFragment_iff : IsFragment kind w ↔ length? kind w = some w.length := by
  refine ⟨length?_of_isFragment, fun h => ?_⟩
  have hfragment := (isFragment_of_length? h).2
  rwa [List.take_length] at hfragment

instance (kind : RuleKind) (w : List Char) : Decidable (IsFragment kind w) :=
  decidable_of_iff _ isFragment_iff.symm

theorem fragment?_of_length? (before : List RuleKind) {after : List RuleKind}
    (hpriority : RuleKind.priority = before ++ kind :: after) (hbefore : ∀ k ∈ before, length? k w = none)
    (h : length? kind w = some n) : fragment? w = some (kind, n) := by
  refine List.findSome?_eq_some_iff.mpr ⟨before, kind, after, hpriority, ?_, fun k hk => ?_⟩
  · rw [h, Option.map_some]
  · rw [hbefore k hk, Option.map_none]

/-- **A fragment is read as one of its kind**: the kinds that come first do not apply. -/
theorem fragment?_of_isFragment (h : IsFragment kind w) : fragment? w = some (kind, w.length) := by
  have hlength := length?_of_isFragment h
  cases h with
  | nameAndId => exact fragment?_of_length? [] rfl (by simp) hlength
  | @id w hw =>
    have hpair := pair?_of_ident?_none (ident?_mark isMark_hash.1 isMark_hash.2 w)
    exact fragment?_of_length? [.nameAndId] rfl (by simp [length?, hpair]) hlength
  | @nameAndClass v w hv hw =>
    -- the first identifier ends at the dot, where no other mark stands
    have hpair : pair? '#' (v ++ '.' :: w) = none := by
      rw [pair?_append_mark hv isMark_dot.1, marked?_of_ne (by decide), Option.map_none]
    have hid := marked?_of_ident? isMark_hash.1 isMark_hash.2 (ident?_append_mark hv isMark_dot.1 w)
    exact fragment?_of_length? [.nameAndId, .id] rfl (by simp [length?, hpair, hid]) hlength
  | @className w hw =>
    have hpair := pair?_of_ident?_none (ident?_mark isMark_dot.1 isMark_dot.2 w)
    have hid : marked? '#' ('.' :: w) = none := marked?_of_ne (by decide) w
    exact fragment?_of_length? [.nameAndId, .id, .nameAndClass] rfl (by simp [length?, hpair, hid]) hlength
  | element hw =>
    have hident := isIdent_iff_ident?.mp hw
    have hid := marked?_of_ident? isMark_hash.1 isMark_hash.2 hident
    have hclass := marked?_of_ident? isMark_dot.1 isMark_dot.2 hident
    exact fragment?_of_length? [.nameAndId, .id, .nameAndClass, .className] rfl
      (by simp [length?, pair?_of_isIdent hw, hid, hclass]) hlength
  | @pseudoClass w hw =>
    have hident := ident?_mark isMark_colon.1 isMark_colon.2 w
    exact fragment?_of_length? [.nameAndId, .id, .nameAndClass, .className, .element] rfl
      (by simp [length?, pair?_of_ident?_none hident, hident, marked?]) hlength

end Selectors.Lexer
