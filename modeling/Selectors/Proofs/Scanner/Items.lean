import Selectors.Proofs.Pattern.Backtrack
import Selectors.Proofs.Scanner.Identifiers

/-!
# Patterns of items

The patterns of the characters and the escapes in identifiers, with their ways. On a text without line
breaks and tabs, the preferred way of an item reads what the lexer reads, and every other way reads an
item as well.

* `itemPattern`, with `escapePattern` and the sets of characters;
* `Plain`: there are no separators but spaces;
* `head?_ways_itemPattern`, `isItem_of_mem_ways`: the preferred way and the others;
* **`star_items`**: the same for runs of items.
-/

namespace Selectors.Lexer

open Pattern

/-! ## Patterns -/

def hexSet : CharSet := ⟨[(48, 57), (65, 70), (97, 102)]⟩

/-- Neither a hexadecimal digit nor the end of a line. -/
def otherSet : CharSet := ⟨[(0, 9), (11, 11), (14, 47), (58, 64), (71, 96), (103, 1114111)]⟩

def blankSet : CharSet := ⟨[(9, 10), (12, 13), (32, 32)]⟩

def nonAsciiSet : CharSet := ⟨[(128, 1114111)]⟩

/-- The ASCII characters that an identifier may start with. -/
def startSet : CharSet := ⟨[(65, 90), (95, 95), (97, 122)]⟩

/-- The ASCII characters that may follow. -/
def nameSet : CharSet := ⟨[(45, 45), (48, 57), (65, 90), (95, 95), (97, 122)]⟩

def signSet : CharSet := ⟨[(45, 45), (64, 64)]⟩

/-- Perhaps one blank, or a carriage return and a line feed. -/
def spacePattern : Pattern := .rep (.alt (.literal ['\r', '\n']) (.one blankSet)) 0 (some 1) true

def escapePattern : Pattern :=
  .alt (.seq (.literal ['\\']) (.seq (.rep (.one hexSet) 1 (some 6) true) spacePattern))
    (.seq (.literal ['\\']) (.one otherSet))

def itemPattern (set : CharSet) : Pattern := .alt (.one set) (.alt (.one nonAsciiSet) escapePattern)

/-! ## Sets -/

section

variable {c : Char}

theorem toNat_le_last (c : Char) : c.toNat ≤ 1114111 := by
  rcases c.valid with h | ⟨-, h⟩
  · exact Nat.le_of_lt (Nat.lt_trans h (by decide))
  · exact Nat.le_of_lt_succ h

theorem contains_hexSet : hexSet.contains c = isHex c := by
  rw [Bool.eq_iff_iff, isHex_iff]
  simp [hexSet, CharSet.contains]

theorem contains_signSet : signSet.contains c = isSign c := by
  rw [Bool.eq_iff_iff, isSign_iff]
  simp [signSet, CharSet.contains]
  omega

theorem contains_startSet : (startSet.contains c || nonAsciiSet.contains c) = isStart c := by
  have hlast := toNat_le_last c
  rw [Bool.eq_iff_iff, isStart_iff]
  simp [startSet, nonAsciiSet, CharSet.contains]
  omega

theorem contains_nameSet : (nameSet.contains c || nonAsciiSet.contains c) = isName c := by
  have hlast := toNat_le_last c
  rw [Bool.eq_iff_iff, isName_iff, isStart_iff]
  simp [nameSet, nonAsciiSet, CharSet.contains]
  omega

theorem contains_blankSet : blankSet.contains c = Text.isSeparator c := by
  rw [Bool.eq_iff_iff]
  simp [blankSet, CharSet.contains, Text.isSeparator, ← Char.toNat_inj]
  omega

theorem contains_otherSet (h : Text.isSeparator c = true → c = ' ') :
    otherSet.contains c = !isHex c := by
  have hlast := toNat_le_last c
  rw [Bool.eq_iff_iff, Bool.not_eq_true', ← Bool.not_eq_true, isHex_iff]
  simp [Text.isSeparator, ← Char.toNat_inj] at h
  simp [otherSet, CharSet.contains]
  omega

end

/-! ## Escapes -/

/-- There are no separators but spaces. -/
def Plain (cs : List Char) : Prop := ∀ c ∈ cs, Text.isSeparator c = true → c = ' '

section

variable {position n k : Nat} {cs : List Char} {c : Char}

theorem Plain.drop (h : Plain cs) (n : Nat) : Plain (cs.drop n) :=
  fun c hc => h c (List.mem_of_mem_drop hc)

theorem Plain.tail (h : Plain (c :: cs)) : Plain cs := h.drop 1

theorem ways_spacePattern (h : Plain cs) :
    spacePattern.ways position cs = if cs.head? = some ' ' then [1, 0] else [0] := by
  show (rep _ 0 (some 1) true).ways position cs = _
  rw [ways_optional]
  cases cs with
  | nil => rfl
  | cons c cs =>
    have hc := h c List.mem_cons_self
    have hreturn : c ≠ '\r' := by
      rintro rfl
      exact absurd (hc rfl) (by decide)
    have hpair : Ways.literal ['\r', '\n'] position (c :: cs) = [] := by
      simp [Ways.literal, Ne.symm hreturn]
    show (Ways.literal ['\r', '\n'] position (c :: cs) ++ Ways.one blankSet position (c :: cs)) ++ [0] = _
    rw [hpair, Ways.one_cons, contains_blankSet, List.head?_cons]
    by_cases hblank : Text.isSeparator c = true
    · rw [if_pos hblank, if_pos (congrArg some (hc hblank))]
      rfl
    · have hspace : some c ≠ some ' ' := by
        intro heq
        obtain rfl := Option.some.inj heq
        exact hblank rfl
      rw [if_neg hblank, if_neg hspace]
      rfl

theorem ways_hexDigits : (rep (.one hexSet) 1 (some 6) true).ways position cs =
    (List.range (hexDigits cs)).reverse.map (1 + ·) := by
  show ((Ways.stay.andThen (.one hexSet)).andThen ((Ways.one hexSet).upTo true 5)) position cs = _
  rw [Ways.stay_andThen]
  unfold Ways.andThen hexDigits
  cases cs with
  | nil => rfl
  | cons c cs =>
    rw [Ways.one_cons, contains_hexSet, List.take_succ_cons]
    by_cases hc : isHex c = true
    · rw [if_pos hc, List.flatMap_singleton, Ways.upTo_one, List.takeWhile_cons_of_pos hc,
        funext fun c => contains_hexSet (c := c)]
      rfl
    · rw [if_neg hc, List.takeWhile_cons_of_neg hc]
      rfl

theorem ways_hexEscape (h : Plain cs) :
    (seq (rep (.one hexSet) 1 (some 6) true) spacePattern).ways position cs =
      (List.range (hexDigits cs)).reverse.flatMap fun k =>
        if (cs.drop (1 + k)).head? = some ' ' then [1 + k + 1, 1 + k] else [1 + k] := by
  show Ways.andThen _ _ position cs = _
  unfold Ways.andThen
  rw [ways_hexDigits, List.flatMap_map]
  refine List.flatMap_congr fun k _ => ?_
  rw [ways_spacePattern (h.drop _)]
  split <;> rfl

theorem ways_escapePattern_cons : escapePattern.ways position (c :: cs) =
    if c = '\\' then
      ((seq (rep (.one hexSet) 1 (some 6) true) spacePattern).ways (position + 1) cs ++
        (Ways.one otherSet) (position + 1) cs).map (1 + ·)
    else [] := by
  show (Ways.literal ['\\']).andThen _ position (c :: cs) ++
    (Ways.literal ['\\']).andThen _ position (c :: cs) = _
  rw [Ways.literal_andThen_cons, Ways.literal_andThen_cons]
  split
  · rw [List.map_append]
    rfl
  · rfl

theorem head?_ways_escapePattern (h : Plain cs) :
    (escapePattern.ways position cs).head? = escape? cs := by
  cases cs with
  | nil => rfl
  | cons c cs =>
    rw [ways_escapePattern_cons]
    by_cases hc : c = '\\'
    · subst hc
      rw [if_pos rfl, ways_hexEscape h.tail]
      cases cs with
      | nil => rfl
      | cons d cs =>
        rw [Ways.one_cons, contains_otherSet (h.tail d List.mem_cons_self)]
        by_cases hd : isHex d = true
        · have hhead : (d :: cs).head?.any isHex = true := hd
          obtain ⟨m, hm⟩ : ∃ m, hexDigits (d :: cs) = 1 + m :=
            ⟨_, (Nat.add_sub_of_le (hexDigits_pos hhead)).symm⟩
          rw [escape?_of_isHex hhead hm, hm, Nat.add_comm 1 m, List.range_succ, List.reverse_append,
            List.reverse_singleton, List.singleton_append, List.flatMap_cons, Nat.add_comm 1 m]
          split
          · exact congrArg some (Nat.add_comm 1 (m + 2))
          · exact congrArg some (Nat.add_comm 1 (m + 1))
        · have hdigits : hexDigits (d :: cs) = 0 := by
            unfold hexDigits
            rw [List.take_succ_cons, List.takeWhile_cons_of_neg hd]
            rfl
          rw [escape?_of_other (Bool.eq_false_iff.mpr hd), hdigits, Bool.eq_false_iff.mpr hd]
          rfl
    · rw [if_neg hc, escape?_of_ne hc]
      rfl

theorem isEscape_of_mem_ways (h : Plain cs) (hk : k ∈ escapePattern.ways position cs) :
    IsEscape (cs.take k) := by
  cases cs with
  | nil => cases hk
  | cons c cs =>
    rw [ways_escapePattern_cons] at hk
    split at hk
    · rename_i hc
      subst hc
      obtain ⟨j, hj, rfl⟩ := List.mem_map.mp hk
      rw [Nat.add_comm 1 j]
      rcases List.mem_append.mp hj with hj | hj
      · rw [ways_hexEscape h.tail] at hj
        obtain ⟨i, hi, hj⟩ := List.mem_flatMap.mp hj
        have hle : 1 + i ≤ hexDigits cs := by
          have := List.mem_range.mp (List.mem_reverse.mp hi)
          omega
        obtain ⟨hplain, hspaced⟩ := isEscape_of_digits (Nat.add_pos_left Nat.zero_lt_one i) hle
        split at hj
        · rename_i hspace
          rcases List.mem_cons.mp hj with rfl | hj
          · exact hspaced hspace
          · rw [List.mem_singleton.mp hj]
            exact hplain
        · rw [List.mem_singleton.mp hj]
          exact hplain
      · cases cs with
        | nil => cases hj
        | cons d cs =>
          rw [Ways.one_cons, contains_otherSet (h.tail d List.mem_cons_self)] at hj
          split at hj
          · rename_i hd
            rw [List.mem_singleton.mp hj]
            exact .other (by simpa using hd)
          · cases hj
    · cases hk

/-! ## Items -/

/-- The class of characters that the pattern of an item reads, escapes apart. -/
def Reads (set : CharSet) (isChar : Char → Bool) : Prop :=
  ∀ c, (set.contains c || nonAsciiSet.contains c) = isChar c

theorem reads_startSet : Reads startSet isStart := fun _ => contains_startSet

theorem reads_nameSet : Reads nameSet isName := fun _ => contains_nameSet

variable {set : CharSet} {isChar : Char → Bool}

theorem ways_itemPattern (position : Nat) (cs : List Char) :
    (itemPattern set).ways position cs =
      Ways.one set position cs ++ (Ways.one nonAsciiSet position cs ++ escapePattern.ways position cs) :=
  rfl

theorem head?_ways_itemPattern (hr : Reads set isChar) (h : Plain cs) :
    ((itemPattern set).ways position cs).head? = item? isChar cs := by
  rw [ways_itemPattern]
  cases cs with
  | nil => rfl
  | cons c cs =>
    rw [Ways.one_cons, Ways.one_cons, item?, ← hr c]
    by_cases hset : set.contains c = true
    · rw [if_pos hset, hset]
      rfl
    · rw [if_neg hset, Bool.eq_false_iff.mpr hset, Bool.false_or, List.nil_append]
      by_cases hascii : nonAsciiSet.contains c = true
      · rw [if_pos hascii, if_pos hascii]
        rfl
      · rw [if_neg hascii, if_neg hascii, List.nil_append]
        exact head?_ways_escapePattern h

theorem isItem_of_mem_ways (hr : Reads set isChar) (h : Plain cs)
    (hk : k ∈ (itemPattern set).ways position cs) : IsItem isChar (cs.take k) := by
  have hone : ∀ {s : CharSet}, (∀ c, s.contains c = true → isChar c = true) →
      k ∈ Ways.one s position cs → IsItem isChar (cs.take k) := by
    intro s hs hk
    cases cs with
    | nil => cases hk
    | cons c cs =>
      rw [Ways.one_cons] at hk
      split at hk
      · rename_i hc
        rw [List.mem_singleton.mp hk]
        exact .char (hs c hc)
      · cases hk
  rw [ways_itemPattern] at hk
  rcases List.mem_append.mp hk with hk | hk
  · exact hone (fun c hc => by rw [← hr c, hc]; rfl) hk
  · rcases List.mem_append.mp hk with hk | hk
    · exact hone (fun c hc => by rw [← hr c, hc, Bool.or_true]) hk
    · exact .escape (isEscape_of_mem_ways h hk)

theorem bounded_item (set : CharSet) : (itemPattern set).ways.Bounded ((itemPattern set).movesOn = true) :=
  ((itemPattern set).runs_build rfl).bounded

theorem ways_items : (rep (itemPattern nameSet) 0 none true).ways = (itemPattern nameSet).ways.star true :=
  Ways.stay_andThen

/-- **The preferred way through items reads them all**, and every way reads some of them. -/
theorem star_items (h : Plain cs) (position : Nat) :
    ((itemPattern nameSet).ways.star true position cs).head? = some (items cs) ∧
      ∀ k ∈ (itemPattern nameSet).ways.star true position cs, AreItems (cs.take k) := by
  have hbounded : (itemPattern nameSet).ways.Bounded True := (bounded_item nameSet).mono fun _ => rfl
  induction hl : cs.length using Nat.strong_induction_on generalizing position cs with
  | h l ih =>
  have hnext : ∀ k ∈ (itemPattern nameSet).ways position cs, (cs.drop k).length < l := by
    intro k hk
    obtain ⟨hle, hpos⟩ := hbounded position cs k hk
    have := hpos trivial
    rw [List.length_drop]
    omega
  rw [hbounded.star_eq true]
  constructor
  · have hround : ((itemPattern nameSet).ways.andThen ((itemPattern nameSet).ways.star true)
        position cs).head? = (item? isName cs).map fun k => k + items (cs.drop k) := by
      rw [← head?_ways_itemPattern reads_nameSet h]
      exact Ways.head?_andThen fun k hk => (ih _ (hnext k hk) (h.drop k) _ rfl).1
    show (_ ++ [0]).head? = _
    rw [List.head?_append, hround]
    cases hi : item? isName cs with
    | none => rw [items_of_none hi]; rfl
    | some n => rw [items_of_some hi]; rfl
  · intro k hk
    rcases List.mem_append.mp hk with hk | hk
    · obtain ⟨i, hi, hk⟩ := List.mem_flatMap.mp hk
      obtain ⟨j, hj, rfl⟩ := List.mem_map.mp hk
      rw [List.take_add]
      exact .append (isItem_of_mem_ways reads_nameSet h hi)
        ((ih _ (hnext i hi) (h.drop i) _ rfl).2 j hj)
    · rw [List.mem_singleton.mp hk]
      exact .nil

end

end Selectors.Lexer
