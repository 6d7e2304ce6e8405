import Mathlib.Data.List.Basic
import Selectors.Text.Blank
import Selectors.Text.Hex
import Selectors.Token

/-!
# A lexer for selectors

Selectors cut into tokens by hand, from left to right and without patterns. An identifier is read item
by item, as far as there are items: characters of names, and escapes.

* `isStart`, `isName`: the characters of identifiers;
* `escape?`, `item?`, `items`, `ident?`: how much of a text is read;
* `fragment?`: the first fragment that applies; `lex`: tokens and skipped texts.
-/

namespace Selectors.Lexer

/-! ## Characters -/

def isHex (c : Char) : Bool := (Text.hexDigit? c).isSome

/-- An identifier may start with a letter, an underscore or a character that is not ASCII. -/
def isStart (c : Char) : Bool := c.isAlpha || c == '_' || 128 ≤ c.toNat

/-- A digit or a hyphen may follow. -/
def isName (c : Char) : Bool := isStart c || c.isDigit || c == '-'

/-- An identifier may have a sign in front. -/
def isSign (c : Char) : Bool := c == '-' || c == '@'

section

variable {c : Char}

theorem isHex_iff : isHex c = true ↔ (48 ≤ c.toNat ∧ c.toNat ≤ 57) ∨
    (65 ≤ c.toNat ∧ c.toNat ≤ 70) ∨ (97 ≤ c.toNat ∧ c.toNat ≤ 102) := by
  have hle : ∀ a b : Char, a ≤ b ↔ a.toNat ≤ b.toNat := fun a b => Iff.rfl
  simp only [isHex, Text.hexDigit?, hle, Char.reduceToNat]
  split_ifs <;> simp <;> omega

theorem isUpper_iff : c.isUpper = true ↔ 65 ≤ c.toNat ∧ c.toNat ≤ 90 :=
  decide_eq_true_iff.trans (and_congr UInt32.le_iff_toNat_le UInt32.le_iff_toNat_le)

theorem isLower_iff : c.isLower = true ↔ 97 ≤ c.toNat ∧ c.toNat ≤ 122 :=
  (Bool.and_eq_true ..).to_iff.trans <| and_congr
    (decide_eq_true_iff.trans UInt32.le_iff_toNat_le)
    (decide_eq_true_iff.trans UInt32.le_iff_toNat_le)

theorem isStart_iff : isStart c = true ↔ (65 ≤ c.toNat ∧ c.toNat ≤ 90) ∨ c.toNat = 95 ∨
    (97 ≤ c.toNat ∧ c.toNat ≤ 122) ∨ 128 ≤ c.toNat := by
  have halpha : c.isAlpha = true ↔ c.isUpper = true ∨ c.isLower = true :=
    (Bool.or_eq_true ..).to_iff
  simp only [isStart, Bool.or_eq_true, halpha, isUpper_iff, isLower_iff, decide_eq_true_eq,
    beq_iff_eq, ← Char.toNat_inj, Char.reduceToNat]
  omega

theorem isName_iff : isName c = true ↔
    isStart c = true ∨ (48 ≤ c.toNat ∧ c.toNat ≤ 57) ∨ c.toNat = 45 := by
  simp only [isName, Bool.or_eq_true, Char.isDigit_iff_toNat, beq_iff_eq, ← Char.toNat_inj,
    Char.reduceToNat, or_assoc]

theorem isSign_iff : isSign c = true ↔ c.toNat = 45 ∨ c.toNat = 64 := by
  simp only [isSign, Bool.or_eq_true, beq_iff_eq, ← Char.toNat_inj, Char.reduceToNat]

end

/-! ## Items -/

/-- The digits behind a backslash: as many as there are, but no more than six. -/
def hexDigits (cs : List Char) : Nat := ((cs.take 6).takeWhile isHex).length

/-- The length of the escape that the text begins with: a backslash and hexadecimal digits, with one
space behind them if there is one, or a backslash and another character. -/
def escape? : List Char → Option Nat
  | '\\' :: c :: rest =>
    if isHex c then
      let n := hexDigits (c :: rest)
      some (if ((c :: rest).drop n).head? = some ' ' then n + 2 else n + 1)
    else some 2
  | _ => none

/-- The length of the character or escape that the text begins with. -/
def item? (isChar : Char → Bool) : List Char → Option Nat
  | [] => none
  | c :: rest => if isChar c then some 1 else escape? (c :: rest)

theorem escape?_bounds {cs : List Char} {n : Nat} (h : escape? cs = some n) :
    0 < n ∧ n ≤ cs.length := by
  unfold escape? at h
  split at h
  · rename_i c rest
    have hdigits : hexDigits (c :: rest) ≤ (c :: rest).length := by
      exact Nat.le_trans (List.takeWhile_prefix _).length_le (List.length_take_le' _ _)
    split at h
    · obtain rfl := Option.some.inj h
      split
      · rename_i hspace
        have hlt : hexDigits (c :: rest) < (c :: rest).length := by
          by_contra hge
          rw [List.drop_eq_nil_of_le (Nat.le_of_not_lt hge)] at hspace
          cases hspace
        rw [List.length_cons]
        omega
      · rw [List.length_cons]
        omega
    · obtain rfl := Option.some.inj h
      simp only [List.length_cons]
      omega
  · cases h

theorem item?_bounds {isChar : Char → Bool} {cs : List Char} {n : Nat}
    (h : item? isChar cs = some n) : 0 < n ∧ n ≤ cs.length := by
  cases cs with
  | nil => cases h
  | cons c rest =>
    rw [item?] at h
    split at h
    · obtain rfl := Option.some.inj h
      exact ⟨Nat.zero_lt_one, by rw [List.length_cons]; omega⟩
    · exact escape?_bounds h

/-! ## Identifiers -/

/-- The length of all items that the text begins with. -/
def items (cs : List Char) : Nat :=
  match _h : item? isName cs with
  | none => 0
  | some n => n + items (cs.drop n)
termination_by cs.length
decreasing_by
  have := item?_bounds _h
  rw [List.length_drop]
  omega

theorem items_of_none {cs : List Char} (h : item? isName cs = none) : items cs = 0 := by
  rw [items]
  split
  · rfl
  · rename_i h'
    cases h.symm.trans h'

theorem items_of_some {cs : List Char} {n : Nat} (h : item? isName cs = some n) :
    items cs = n + items (cs.drop n) := by
  rw [items]
  split
  · rename_i h'
    cases h.symm.trans h'
  · rename_i h'
    obtain rfl := Option.some.inj (h.symm.trans h')
    rfl

/-- Whether there is a sign in front. -/
def sign (cs : List Char) : Nat := if cs.head?.any isSign then 1 else 0

/-- The length of the identifier that the text begins with. -/
def ident? (cs : List Char) : Option Nat :=
  (item? isStart (cs.drop (sign cs))).map fun n => sign cs + n + items (cs.drop (sign cs + n))

/-! ## Fragments -/

/-- The length of a mark and an identifier. -/
def marked? (mark : Char) : List Char → Option Nat
  | [] => none
  | c :: rest => if c = mark then (ident? rest).map (1 + ·) else none

/-- The length of an identifier, a mark and another identifier. -/
def pair? (mark : Char) (cs : List Char) : Option Nat :=
  (ident? cs).bind fun n => (marked? mark (cs.drop n)).map (n + ·)

/-- The length of the fragment of a kind. -/
def length? : RuleKind → List Char → Option Nat
  | .nameAndId => pair? '#'
  | .id => marked? '#'
  | .nameAndClass => pair? '.'
  | .className => marked? '.'
  | .element => ident?
  | .pseudoClass => marked? ':'

/-- **The first fragment that applies**, in order of priority. -/
def fragment? (cs : List Char) : Option (RuleKind × Nat) :=
  RuleKind.priority.findSome? fun kind => (length? kind cs).map fun n => (kind, n)

theorem ident?_pos {cs : List Char} {n : Nat} (h : ident? cs = some n) : 0 < n ∧ cs ≠ [] := by
  obtain ⟨m, hm, rfl⟩ := Option.map_eq_some_iff.mp h
  refine ⟨Nat.add_pos_left (Nat.add_pos_right _ (item?_bounds hm).1) _, ?_⟩
  rintro rfl
  rw [List.drop_nil] at hm
  cases hm

theorem marked?_pos {mark : Char} {cs : List Char} {n : Nat} (h : marked? mark cs = some n) :
    0 < n ∧ cs ≠ [] := by
  cases cs with
  | nil => cases h
  | cons c rest =>
    rw [marked?] at h
    split at h
    · obtain ⟨m, -, rfl⟩ := Option.map_eq_some_iff.mp h
      exact ⟨Nat.add_pos_left Nat.zero_lt_one m, List.cons_ne_nil _ _⟩
    · cases h

theorem length?_pos {kind : RuleKind} {cs : List Char} {n : Nat} (h : length? kind cs = some n) :
    0 < n ∧ cs ≠ [] := by
  have hpair : ∀ mark, pair? mark cs = some n → 0 < n ∧ cs ≠ [] := by
    intro mark hp
    obtain ⟨m, hm, hp⟩ := Option.bind_eq_some_iff.mp hp
    obtain ⟨l, -, rfl⟩ := Option.map_eq_some_iff.mp hp
    exact ⟨Nat.add_pos_left (ident?_pos hm).1 l, (ident?_pos hm).2⟩
  cases kind with
  | nameAndId | nameAndClass => exact hpair _ h
  | id | className | pseudoClass => exact marked?_pos h
  | element => exact ident?_pos h

theorem fragment?_pos {cs : List Char} {f : RuleKind × Nat} (h : fragment? cs = some f) :
    0 < f.2 ∧ cs ≠ [] := by
  obtain ⟨kind, -, hk⟩ := List.exists_of_findSome?_eq_some h
  obtain ⟨n, hn, rfl⟩ := Option.map_eq_some_iff.mp hk
  exact length?_pos hn

theorem length_drop_lt {cs : List Char} {f : RuleKind × Nat} (h : fragment? cs = some f) :
    (cs.drop f.2).length < cs.length := by
  obtain ⟨hpos, hne⟩ := fragment?_pos h
  have hlen : 0 < cs.length := List.length_pos_iff.mpr hne
  rw [List.length_drop]
  omega

/-! ## The lexer -/

/-- A text that was skipped, trimmed, if it is not blank. -/
def flush (run : List Char) : List String :=
  ([Text.trim run].filter (· ≠ [])).map .ofList

/-- The tokens of a text, and what is skipped; `run` has been skipped right before. -/
def lexBehind (run : List Char) : List Char → List Token × List String
  | [] => ([], flush run)
  | c :: rest =>
    match _h : fragment? (c :: rest) with
    | some (kind, n) =>
      let (tokens, skipped) := lexBehind [] ((c :: rest).drop n)
      (⟨.ofList ((c :: rest).take n), kind⟩ :: tokens, flush run ++ skipped)
    | none => lexBehind (run ++ [c]) rest
termination_by cs => cs.length
decreasing_by
  · exact length_drop_lt _h
  · exact Nat.lt_succ_self _

/-- **The tokens of a text, and the texts skipped between them.** -/
def lex (cs : List Char) : List Token × List String := lexBehind [] cs

@[simp] theorem lexBehind_nil (run : List Char) : lexBehind run [] = ([], flush run) := by
  rw [lexBehind]

theorem lexBehind_of_some {run cs : List Char} {kind : RuleKind} {n : Nat}
    (h : fragment? cs = some (kind, n)) : lexBehind run cs =
      (⟨.ofList (cs.take n), kind⟩ :: (lexBehind [] (cs.drop n)).1,
        flush run ++ (lexBehind [] (cs.drop n)).2) := by
  cases cs with
  | nil => exact absurd rfl (fragment?_pos h).2
  | cons c rest =>
    rw [lexBehind]
    split
    · rename_i h'
      obtain ⟨rfl, rfl⟩ := Prod.mk.inj (Option.some.inj (h.symm.trans h'))
      rfl
    · rename_i h'
      cases h.symm.trans h'

theorem lexBehind_of_none {run rest : List Char} {c : Char} (h : fragment? (c :: rest) = none) :
    lexBehind run (c :: rest) = lexBehind (run ++ [c]) rest := by
  rw [lexBehind]
  split
  · rename_i h'
    cases h.symm.trans h'
  · rfl

end Selectors.Lexer
