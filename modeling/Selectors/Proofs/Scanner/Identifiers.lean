import Mathlib.Data.List.TakeWhile
import Selectors.Proofs.Scanner.Lexer

/-!
# Identifiers

What an identifier is, and that item by item the longest one is read. A shorter text may be an identifier
too, if it ends between two items, among the digits of an escape or right before the space behind them. A
mark such as `#` stands at none of these places.

* `IsEscape`, `IsItem`, `IsIdent`: the grammar;
* **`ident?_eq_some_iff`**: the longest identifier is read;
* **`IsIdent.ends`**: what follows an identifier that is not the longest.
-/

namespace Selectors.Lexer

variable {isChar : Char → Bool} {cs w t : List Char} {c : Char} {n : Nat}

/-! ## The grammar -/

/-- A backslash with one to six hexadecimal digits and perhaps a space, or with another character. -/
inductive IsEscape : List Char → Prop
  | hex {digits : List Char} (hne : digits ≠ []) (hlen : digits.length ≤ 6)
      (h : ∀ c ∈ digits, isHex c = true) : IsEscape ('\\' :: digits)
  | spaced {digits : List Char} (hne : digits ≠ []) (hlen : digits.length ≤ 6)
      (h : ∀ c ∈ digits, isHex c = true) : IsEscape ('\\' :: (digits ++ [' ']))
  | other {c : Char} (h : isHex c = false) : IsEscape ['\\', c]

/-- A character of a class, or an escape. -/
inductive IsItem (isChar : Char → Bool) : List Char → Prop
  | char {c : Char} (h : isChar c = true) : IsItem isChar [c]
  | escape {w : List Char} (h : IsEscape w) : IsItem isChar w

/-- Any number of items. -/
inductive AreItems : List Char → Prop
  | nil : AreItems []
  | append {w t : List Char} (h : IsItem isName w) (ht : AreItems t) : AreItems (w ++ t)

/-- **An identifier**: perhaps a sign, then an item that may come first, then any number of items. -/
inductive IsIdent : List Char → Prop
  | unsigned {w t : List Char} (h : IsItem isStart w) (ht : AreItems t) : IsIdent (w ++ t)
  | signed {c : Char} {w t : List Char} (hc : isSign c = true) (h : IsItem isStart w)
      (ht : AreItems t) : IsIdent (c :: (w ++ t))

/-! ## Reading an item -/

theorem isName_of_isHex (h : isHex c = true) : isName c = true := by
  rw [isHex_iff] at h
  rw [isName_iff, isStart_iff]
  omega

theorem item?_of_isChar (h : isChar c = true) : item? isChar (c :: t) = some 1 := by
  rw [item?, if_pos h]

theorem item?_of_escape (hb : isChar '\\' = false) :
    item? isChar ('\\' :: t) = escape? ('\\' :: t) := by
  rw [item?, if_neg (Bool.eq_false_iff.mp hb)]

theorem items_of_isName (h : isName c = true) : items (c :: t) = 1 + items t :=
  items_of_some (item?_of_isChar h)

theorem items_of_isHex {digits : List Char} (h : ∀ c ∈ digits, isHex c = true) :
    items (digits ++ t) = digits.length + items t := by
  induction digits with
  | nil => exact (Nat.zero_add _).symm
  | cons c digits ih =>
    rw [List.cons_append, items_of_isName (isName_of_isHex (h c List.mem_cons_self)),
      ih fun d hd => h d (List.mem_cons_of_mem c hd), List.length_cons]
    omega

theorem items_space : items (' ' :: t) = 0 := items_of_none rfl

theorem exists_hexDigits {digits : List Char} (hlen : digits.length ≤ 6)
    (h : ∀ c ∈ digits, isHex c = true) (t : List Char) : ∃ more behind, t = more ++ behind ∧
      (∀ c ∈ more, isHex c = true) ∧ hexDigits (digits ++ t) = digits.length + more.length := by
  let more := (t.take (6 - digits.length)).takeWhile isHex
  have hpre : more <+: t := (List.takeWhile_prefix _).trans (List.take_prefix _ _)
  obtain ⟨behind, hbehind⟩ := hpre
  refine ⟨more, behind, hbehind.symm, fun c hc => List.mem_takeWhile_imp hc, ?_⟩
  unfold hexDigits
  rw [List.take_append, List.take_of_length_le hlen, List.takeWhile_append_of_pos h,
    List.length_append]

theorem escape?_of_isHex (hc : cs.head?.any isHex = true) (hn : hexDigits cs = n) :
    escape? ('\\' :: cs) = some (if (cs.drop n).head? = some ' ' then n + 2 else n + 1) := by
  cases cs with
  | nil => cases hc
  | cons c cs =>
    have hc' : isHex c = true := hc
    rw [escape?, if_pos hc', hn]

theorem escape?_of_other {c : Char} (h : isHex c = false) (t : List Char) :
    escape? ('\\' :: c :: t) = some 2 := by
  rw [escape?, if_neg (Bool.eq_false_iff.mp h)]

theorem escape?_of_ne (hc : c ≠ '\\') (t : List Char) : escape? (c :: t) = none := by
  unfold escape?
  split
  · rename_i heq
    exact absurd (List.cons.inj heq).1 hc
  · rfl

theorem head?_any_isHex {digits : List Char} (hne : digits ≠ []) (h : ∀ c ∈ digits, isHex c = true)
    (t : List Char) : (digits ++ t).head?.any isHex = true := by
  cases digits with
  | nil => exact absurd rfl hne
  | cons c digits => exact h c List.mem_cons_self

/-- **Where an item and the items behind it end**: where those end that are read, or before, in front of a
space. -/
theorem IsItem.ends (h : IsItem isChar w) (hb : isChar '\\' = false) (t : List Char) :
    ∃ n, item? isChar (w ++ t) = some n ∧
      (w.length + items t = n + items ((w ++ t).drop n) ∨
        w.length + items t < n + items ((w ++ t).drop n) ∧ (t.drop (items t)).head? = some ' ') := by
  cases h with
  | @char c h => exact ⟨1, item?_of_isChar h, Or.inl rfl⟩
  | escape h =>
    cases h with
    | @other c h =>
      refine ⟨2, ?_, Or.inl rfl⟩
      rw [List.cons_append, item?_of_escape hb]
      exact escape?_of_other h t
    | @hex digits hne hlen h =>
      obtain ⟨more, behind, rfl, hmore, hcount⟩ := exists_hexDigits hlen h t
      have hread := escape?_of_isHex (head?_any_isHex hne h _) hcount
      rw [← List.append_assoc, List.drop_left' (List.length_append ..)] at hread
      have hitems : items (more ++ behind) = more.length + items behind := items_of_isHex hmore
      rw [List.cons_append, item?_of_escape hb, ← List.append_assoc, hread, hitems, List.length_cons]
      refine ⟨_, rfl, ?_⟩
      split
      · rename_i hspace
        obtain ⟨u, rfl⟩ := List.head?_eq_some_iff.mp hspace
        right
        simp only [items_space, Nat.add_zero, List.drop_left]
        exact ⟨by omega, rfl⟩
      · left
        rw [List.drop_succ_cons, List.drop_left' (List.length_append ..)]
        omega
    | @spaced digits hne hlen h =>
      obtain ⟨more, behind, ht, hmore, hcount⟩ := exists_hexDigits hlen h (' ' :: t)
      obtain rfl : more = [] := by
        cases more with
        | nil => rfl
        | cons c more =>
          obtain ⟨rfl, -⟩ := List.cons.inj ht
          exact absurd (hmore ' ' List.mem_cons_self) (by decide)
      have hread := escape?_of_isHex (head?_any_isHex hne h _) hcount
      rw [List.length_nil, Nat.add_zero, List.drop_left, if_pos (List.head?_cons ..)] at hread
      have htext : '\\' :: (digits ++ [' ']) ++ t = '\\' :: (digits ++ ' ' :: t) := by
        rw [List.cons_append, List.append_assoc]
        rfl
      refine ⟨digits.length + 2, ?_, Or.inl ?_⟩
      · rw [htext, item?_of_escape hb, hread]
      · rw [List.drop_left' (by rw [List.length_cons, List.length_append]; rfl), List.length_cons,
          List.length_append]
        rfl

/-! ## Where identifiers end -/

/-- The text goes on as it may inside of an identifier: with a character of names, an escape or the space
behind one. -/
def Inside (t : List Char) : Prop := ∃ c ∈ t.head?, isName c = true ∨ c = '\\' ∨ c = ' '

theorem inside_of_item? (h : item? isName cs = some n) : Inside cs := by
  cases cs with
  | nil => cases h
  | cons c cs =>
    refine ⟨c, rfl, ?_⟩
    by_cases hc : isName c = true
    · exact Or.inl hc
    · rw [item?, if_neg hc] at h
      unfold escape? at h
      split at h
      · rename_i heq
        exact Or.inr (Or.inl (List.cons.inj heq).1)
      · cases h

theorem IsItem.ends_append {u : List Char} (h : IsItem isChar w) (hb : isChar '\\' = false)
    (hu : u.length = items (u ++ t) ∨ u.length < items (u ++ t) ∧ Inside t) :
    ∃ n, item? isChar (w ++ u ++ t) = some n ∧
      ((w ++ u).length = n + items ((w ++ u ++ t).drop n) ∨
        (w ++ u).length < n + items ((w ++ u ++ t).drop n) ∧ Inside t) := by
  obtain ⟨n, hn, hends⟩ := h.ends hb (u ++ t)
  refine ⟨n, by rwa [List.append_assoc], ?_⟩
  rw [List.append_assoc, List.length_append]
  rcases hu with heq | ⟨hlt, hinside⟩
  · rcases hends with heq' | ⟨hlt, hspace⟩
    · left
      omega
    · rw [← heq, List.drop_left] at hspace
      exact Or.inr ⟨by omega, ' ', hspace, Or.inr (Or.inr rfl)⟩
  · right
    rcases hends with heq' | ⟨hlt', -⟩
    · exact ⟨by omega, hinside⟩
    · exact ⟨by omega, hinside⟩

theorem AreItems.ends (h : AreItems w) (t : List Char) :
    w.length = items (w ++ t) ∨ w.length < items (w ++ t) ∧ Inside t := by
  induction h with
  | nil =>
    cases hi : item? isName t with
    | none => exact Or.inl (items_of_none hi).symm
    | some n =>
      refine Or.inr ⟨?_, inside_of_item? hi⟩
      rw [List.nil_append, items_of_some hi, List.length_nil]
      exact Nat.add_pos_left (item?_bounds hi).1 _
  | append h _ ih =>
    obtain ⟨n, hn, hends⟩ := h.ends_append (by decide) ih
    rwa [items_of_some hn]

theorem sign_of_item (h : IsItem isStart w) (t : List Char) : sign (w ++ t) = 0 := by
  have hhead : ∃ c u, w = c :: u ∧ isSign c = false := by
    cases h with
    | @char c h =>
      refine ⟨c, [], rfl, Bool.eq_false_iff.mpr fun hs => ?_⟩
      rw [isStart_iff] at h
      rw [isSign_iff] at hs
      omega
    | escape h =>
      cases h with
      | hex | spaced | other => exact ⟨'\\', _, rfl, by decide⟩
  obtain ⟨c, u, rfl, hc⟩ := hhead
  show (if isSign c = true then 1 else 0) = 0
  rw [if_neg (Bool.eq_false_iff.mp hc)]

/-- **Where an identifier ends**: where the one that is read ends, or inside of it. -/
theorem IsIdent.ends (h : IsIdent w) (t : List Char) :
    ∃ n, ident? (w ++ t) = some n ∧ (w.length = n ∨ w.length < n ∧ Inside t) := by
  cases h with
  | @unsigned first u hfirst hu =>
    obtain ⟨n, hn, hends⟩ := hfirst.ends_append (by decide) (hu.ends t)
    have hsign : sign (first ++ u ++ t) = 0 := by
      rw [List.append_assoc]
      exact sign_of_item hfirst _
    refine ⟨n + items ((first ++ u ++ t).drop n), ?_, hends⟩
    unfold ident?
    rw [hsign, List.drop_zero, hn, Option.map_some, Nat.zero_add]
  | @signed c first u hc hfirst hu =>
    obtain ⟨n, hn, hends⟩ := hfirst.ends_append (by decide) (hu.ends t)
    have hsign : sign (c :: (first ++ u) ++ t) = 1 := by
      show (if isSign c = true then 1 else 0) = 1
      rw [if_pos hc]
    refine ⟨1 + n + items ((first ++ u ++ t).drop n), ?_, ?_⟩
    · unfold ident?
      rw [hsign, List.cons_append, List.drop_succ_cons, List.drop_zero, hn, Option.map_some,
        Nat.add_comm 1 n, List.drop_succ_cons]
    · rw [List.length_cons]
      rcases hends with heq | ⟨hlt, hinside⟩
      · left
        omega
      · exact Or.inr ⟨by omega, hinside⟩

/-! ## The longest identifier -/

theorem take_of_le_hexDigits (h : n ≤ hexDigits cs) :
    n ≤ 6 ∧ (cs.take n).length = n ∧ ∀ c ∈ cs.take n, isHex c = true := by
  have hprefix : (cs.take 6).takeWhile isHex <+: cs :=
    (List.takeWhile_prefix _).trans (List.take_prefix _ _)
  have htake : cs.take n = ((cs.take 6).takeWhile isHex).take n := by
    have hle : n ≤ ((cs.take 6).takeWhile isHex).length := h
    rw [List.prefix_iff_eq_take.mp hprefix, List.take_take, Nat.min_eq_left hle]
  have hsix : hexDigits cs ≤ 6 :=
    (List.takeWhile_prefix _).length_le.trans (List.length_take_le _ _)
  refine ⟨h.trans hsix, ?_, fun c hc => ?_⟩
  · rw [List.length_take, Nat.min_eq_left (h.trans hprefix.length_le)]
  · rw [htake] at hc
    exact List.mem_takeWhile_imp (List.mem_of_mem_take hc)

theorem isEscape_of_digits (hpos : 0 < n) (h : n ≤ hexDigits cs) :
    IsEscape (('\\' :: cs).take (n + 1)) ∧
      ((cs.drop n).head? = some ' ' → IsEscape (('\\' :: cs).take (n + 2))) := by
  obtain ⟨hsix, hlen, hhex⟩ := take_of_le_hexDigits h
  have hne : cs.take n ≠ [] := by
    rw [← List.length_pos_iff, hlen]
    exact hpos
  rw [List.take_succ_cons, List.take_succ_cons]
  refine ⟨.hex hne (hlen.trans_le hsix) hhex, fun hspace => ?_⟩
  obtain ⟨t, ht⟩ := List.head?_eq_some_iff.mp hspace
  have htake : cs.take (n + 1) = cs.take n ++ [' '] := by
    rw [List.take_add, ht]
    rfl
  rw [htake]
  exact .spaced hne (hlen.trans_le hsix) hhex

theorem hexDigits_pos (h : cs.head?.any isHex = true) : 0 < hexDigits cs := by
  cases cs with
  | nil => cases h
  | cons c cs =>
    have hc : isHex c = true := h
    unfold hexDigits
    rw [List.take_succ_cons, List.takeWhile_cons_of_pos hc]
    exact Nat.succ_pos _

theorem isEscape_of_escape? (h : escape? cs = some n) : IsEscape (cs.take n) := by
  unfold escape? at h
  split at h
  · rename_i c rest
    split at h
    · rename_i hc
      have hhead : (c :: rest).head?.any isHex = true := hc
      obtain ⟨hplain, hspaced⟩ := isEscape_of_digits (hexDigits_pos hhead) (Nat.le_refl _)
      obtain rfl := Option.some.inj h
      split
      · rename_i hspace
        exact hspaced hspace
      · exact hplain
    · rename_i hc
      obtain rfl := Option.some.inj h
      exact .other (Bool.eq_false_iff.mpr hc)
  · cases h

theorem isItem_of_item? (h : item? isChar cs = some n) : IsItem isChar (cs.take n) := by
  cases cs with
  | nil => cases h
  | cons c cs =>
    by_cases hc : isChar c = true
    · obtain rfl := Option.some.inj ((item?_of_isChar hc).symm.trans h)
      exact .char hc
    · rw [item?, if_neg hc] at h
      exact .escape (isEscape_of_escape? h)

theorem areItems_take (cs : List Char) : items cs ≤ cs.length ∧ AreItems (cs.take (items cs)) := by
  induction hl : cs.length using Nat.strong_induction_on generalizing cs with
  | h l ih =>
  cases hi : item? isName cs with
  | none =>
    rw [items_of_none hi]
    exact ⟨Nat.zero_le _, .nil⟩
  | some n =>
    have hbounds := item?_bounds hi
    have hdrop : (cs.drop n).length = cs.length - n := List.length_drop
    obtain ⟨hle, hitems⟩ := ih _ (by omega) (cs.drop n) rfl
    rw [items_of_some hi, List.take_add]
    exact ⟨by omega, .append (isItem_of_item? hi) hitems⟩

theorem isIdent_of_ident? (h : ident? cs = some n) : n ≤ cs.length ∧ IsIdent (cs.take n) := by
  obtain ⟨m, hm, rfl⟩ := Option.map_eq_some_iff.mp h
  have hbounds := item?_bounds hm
  have hitem := isItem_of_item? hm
  obtain ⟨hle, hitems⟩ := areItems_take (cs.drop (sign cs + m))
  rw [List.length_drop] at hbounds hle
  refine ⟨by omega, ?_⟩
  have htake : cs.take (sign cs + m + items (cs.drop (sign cs + m))) = cs.take (sign cs) ++
      ((cs.drop (sign cs)).take m ++
        (cs.drop (sign cs + m)).take (items (cs.drop (sign cs + m)))) := by
    rw [List.take_add, List.take_add, List.append_assoc]
  rw [htake]
  by_cases hs : cs.head?.any isSign = true
  · have hsign : sign cs = 1 := if_pos hs
    cases cs with
    | nil => cases hs
    | cons c cs =>
      rw [hsign] at hitem hitems ⊢
      rw [List.take_succ_cons, List.take_zero, List.singleton_append]
      exact .signed hs hitem hitems
  · have hsign : sign cs = 0 := if_neg hs
    rw [hsign] at hitem hitems ⊢
    rw [List.take_zero, List.nil_append]
    exact .unsigned hitem hitems

/-- **The longest identifier is read.** -/
theorem ident?_eq_some_iff : ident? cs = some n ↔
    n ≤ cs.length ∧ IsIdent (cs.take n) ∧ ∀ m ≤ cs.length, IsIdent (cs.take m) → m ≤ n := by
  have hlongest : ∀ {m : Nat}, m ≤ cs.length → IsIdent (cs.take m) →
      ∃ n, ident? cs = some n ∧ m ≤ n := by
    intro m hm hident
    obtain ⟨n, hn, hends⟩ := hident.ends (cs.drop m)
    rw [List.take_append_drop] at hn
    rw [List.length_take, Nat.min_eq_left hm] at hends
    refine ⟨n, hn, ?_⟩
    rcases hends with heq | ⟨hlt, -⟩ <;> omega
  constructor
  · intro h
    obtain ⟨hle, hident⟩ := isIdent_of_ident? h
    refine ⟨hle, hident, fun m hm hm' => ?_⟩
    obtain ⟨k, hk, hmk⟩ := hlongest hm hm'
    rwa [Option.some.inj (h.symm.trans hk)]
  · rintro ⟨hle, hident, hmax⟩
    obtain ⟨k, hk, hnk⟩ := hlongest hle hident
    obtain ⟨hle', hident'⟩ := isIdent_of_ident? hk
    rw [hk, Nat.le_antisymm (hmax k hle' hident') hnk]

theorem isIdent_iff_ident? : IsIdent w ↔ ident? w = some w.length := by
  constructor
  · intro hident
    obtain ⟨n, hn, hends⟩ := hident.ends []
    rw [List.append_nil] at hn
    rw [hn, hends.resolve_right]
    rintro ⟨-, c, hc, -⟩
    cases hc
  · intro hread
    have hident := (isIdent_of_ident? hread).2
    rwa [List.take_length] at hident

instance : DecidablePred IsIdent := fun _ => decidable_of_iff _ isIdent_iff_ident?.symm

end Selectors.Lexer
