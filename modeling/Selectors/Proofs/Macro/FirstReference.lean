import Mathlib.Data.List.Basic
import Selectors.Macro.Reference

/-!
# The first reference of a text

A complete reference is `#{`, one or more characters other than `}`, and `}`. The search for the first
one skips an empty `#{}` and gives up at an opening without a closing brace. Neither hides a reference
that starts further to the left, or behind.

* `StartsReference`, `HoldsReference`: complete references in a text;
* `Reference.IsFirst`: the complete reference before which no other one starts, and its `target`;
* **`Reference.first?_eq_some_iff`**, **`Reference.first?_eq_none_iff`**: what the search finds;
* `references_of_isFirst`, `fragment_induction`: from one reference to the next.
-/

namespace Selectors.Macro

variable {cs name : List Char} {c : Char}

/-! ## Complete references -/

/-- The text starts with a complete reference. -/
def StartsReference (cs : List Char) : Prop :=
  ∃ name after, cs = '#' :: '{' :: name ++ '}' :: after ∧ name ≠ [] ∧ '}' ∉ name

/-- The text contains a complete reference. -/
def HoldsReference (cs : List Char) : Prop := ∃ before rest, cs = before ++ rest ∧ StartsReference rest

theorem untilBrace_append (h : '}' ∉ name) (after : List Char) :
    untilBrace (name ++ '}' :: after) = some (name, after) := by
  induction name with
  | nil => rfl
  | cons c name ih =>
    rw [List.mem_cons, not_or] at h
    rw [List.cons_append, untilBrace, if_neg (Ne.symm h.1), ih h.2]
    rfl

theorem reference_inj {name' after after' : List Char} (hbrace : '}' ∉ name) (hbrace' : '}' ∉ name')
    (h : '#' :: '{' :: name ++ '}' :: after = '#' :: '{' :: name' ++ '}' :: after') :
    name = name' ∧ after = after' := by
  simp only [List.cons_append, List.cons.injEq, true_and] at h
  have hread := congrArg untilBrace h
  rwa [untilBrace_append hbrace, untilBrace_append hbrace', Option.some.injEq, Prod.mk.injEq] at hread

theorem not_startsReference_of_ne (h : c ≠ '#') : ¬ StartsReference (c :: cs) := by
  rintro ⟨name, after, heq, -⟩
  exact h (List.cons.inj heq).1

theorem StartsReference.exists_opening (h : StartsReference (c :: cs)) :
    c = '#' ∧ ∃ ds, cs = '{' :: ds ∧ '}' ∈ ds := by
  obtain ⟨name, after, heq, -⟩ := h
  obtain ⟨rfl, rfl⟩ := List.cons.inj heq
  exact ⟨rfl, name ++ '}' :: after, rfl, by simp⟩

theorem not_startsReference_empty : ¬ StartsReference ('#' :: '{' :: '}' :: cs) := by
  rintro ⟨name, after, heq, hne, hnot⟩
  obtain ⟨c, name, rfl⟩ := List.exists_cons_of_ne_nil hne
  simp only [List.cons_append, List.cons.injEq] at heq
  exact hnot (List.mem_cons.mpr (.inl heq.2.2.1))

theorem not_holdsReference_nil : ¬ HoldsReference [] := by
  rintro ⟨before, rest, heq, name, after, rfl, -⟩
  simp at heq

theorem holdsReference_cons : HoldsReference (c :: cs) ↔ StartsReference (c :: cs) ∨ HoldsReference cs := by
  constructor
  · rintro ⟨before, rest, heq, hrest⟩
    rcases List.cons_eq_append_iff.mp heq with ⟨-, rfl⟩ | ⟨before, -, rfl⟩
    · exact .inl hrest
    · exact .inr ⟨before, rest, rfl, hrest⟩
  · rintro (h | ⟨before, rest, rfl, hrest⟩)
    · exact ⟨[], c :: cs, rfl, h⟩
    · exact ⟨c :: before, rest, rfl, hrest⟩

theorem HoldsReference.brace_mem (h : HoldsReference cs) : '}' ∈ cs := by
  obtain ⟨before, rest, rfl, name, after, rfl, -⟩ := h
  simp

theorem startsReference_concat_iff (hc : c ≠ '}') : StartsReference (cs ++ [c]) ↔ StartsReference cs := by
  constructor
  · rintro ⟨name, after, heq, hname⟩
    rcases List.eq_nil_or_concat' after with rfl | ⟨after, d, rfl⟩
    · have heq' : cs ++ [c] = ('#' :: '{' :: name) ++ ['}'] := heq
      exact absurd (List.cons.inj (List.append_inj' heq' rfl).2).1 hc
    · have heq' : cs ++ [c] = ('#' :: '{' :: name ++ '}' :: after) ++ [d] := by simpa using heq
      exact ⟨name, after, (List.append_inj' heq' rfl).1, hname⟩
  · rintro ⟨name, after, rfl, hname⟩
    exact ⟨name, after ++ [c], by simp, hname⟩

theorem exists_startsReference_of_concat (hc : c ≠ '}') {before rest : List Char}
    (heq : cs ++ [c] = before ++ rest) (h : StartsReference rest) :
    ∃ rest', cs = before ++ rest' ∧ StartsReference rest' := by
  rcases List.eq_nil_or_concat' rest with rfl | ⟨rest', d, rfl⟩
  · obtain ⟨name, after, hnil, -⟩ := h
    cases hnil
  · rw [← List.append_assoc] at heq
    obtain ⟨rfl, hd⟩ := List.append_inj' heq rfl
    obtain rfl := (List.cons.inj hd).1
    exact ⟨rest', rfl, (startsReference_concat_iff hc).mp h⟩

theorem holdsReference_concat_iff (hc : c ≠ '}') : HoldsReference (cs ++ [c]) ↔ HoldsReference cs := by
  constructor
  · rintro ⟨before, rest, heq, h⟩
    obtain ⟨rest, rfl, h⟩ := exists_startsReference_of_concat hc heq h
    exact ⟨before, rest, rfl, h⟩
  · rintro ⟨before, rest, rfl, h⟩
    exact ⟨before, rest ++ [c], List.append_assoc .., (startsReference_concat_iff hc).mpr h⟩

namespace Reference

variable {r s : Reference}

/-- The name of the macro that is referred to. -/
def target (r : Reference) : String := .ofList r.name

/-! ## The first one -/

/-- **The first complete reference of a text**: no other one starts before it does. -/
structure IsFirst (cs : List Char) (r : Reference) : Prop where
  text_eq : r.text = cs
  name_ne_nil : r.name ≠ []
  brace_not_mem : '}' ∉ r.name
  leftmost : ∀ before rest, cs = before ++ rest → StartsReference rest →
    r.before.length ≤ before.length

namespace IsFirst

theorem eq_append (h : IsFirst cs r) :
    cs = r.before ++ ('#' :: '{' :: r.name ++ '}' :: r.after) := by
  rw [← h.text_eq, Reference.text, List.append_assoc]

theorem startsReference (h : IsFirst cs r) : StartsReference ('#' :: '{' :: r.name ++ '}' :: r.after) :=
  ⟨r.name, r.after, rfl, h.name_ne_nil, h.brace_not_mem⟩

theorem holdsReference (h : IsFirst cs r) : HoldsReference cs := ⟨r.before, _, h.eq_append, h.startsReference⟩

theorem unique (h : IsFirst cs r) (h' : IsFirst cs s) : r = s := by
  have hlength : r.before.length = s.before.length :=
    Nat.le_antisymm (h.leftmost _ _ h'.eq_append h'.startsReference)
      (h'.leftmost _ _ h.eq_append h.startsReference)
  obtain ⟨hbefore, hrest⟩ := List.append_inj (h.eq_append.symm.trans h'.eq_append) hlength
  obtain ⟨hname, hafter⟩ := reference_inj h.brace_not_mem h'.brace_not_mem hrest
  cases r
  cases s
  simp_all

theorem shift (h : IsFirst cs r) (hc : ¬ StartsReference (c :: cs)) : IsFirst (c :: cs) (r.shift [c]) where
  text_eq := congrArg (c :: ·) h.text_eq
  name_ne_nil := h.name_ne_nil
  brace_not_mem := h.brace_not_mem
  leftmost before rest heq hrest := by
    rcases List.cons_eq_append_iff.mp heq with ⟨-, rfl⟩ | ⟨before, rfl, htail⟩
    · exact absurd hrest hc
    · exact Nat.succ_le_succ (h.leftmost before rest htail hrest)

theorem concat (h : IsFirst cs r) (hc : c ≠ '}') :
    IsFirst (cs ++ [c]) { r with after := r.after ++ [c] } where
  text_eq := by simp [Reference.text, h.eq_append]
  name_ne_nil := h.name_ne_nil
  brace_not_mem := h.brace_not_mem
  leftmost before rest heq hrest := by
    obtain ⟨rest, rfl, hrest⟩ := exists_startsReference_of_concat hc heq hrest
    exact h.leftmost before rest rfl hrest

end IsFirst

/-! ## The search -/

theorem isFirst_of_first? (h : first? cs = some r) : IsFirst cs r := by
  fun_induction first? cs generalizing r with
  | case1 cs ih =>
    obtain ⟨s, hs, rfl⟩ := Option.map_eq_some_iff.mp h
    have hbrace := (ih hs).shift (not_startsReference_of_ne (c := '}') (by decide))
    have hopening := hbrace.shift (not_startsReference_of_ne (c := '{') (by decide))
    exact hopening.shift not_startsReference_empty
  | case2 cs hne =>
    obtain ⟨⟨name, after⟩, huntil, rfl⟩ := Option.map_eq_some_iff.mp h
    obtain ⟨rfl, hbrace⟩ := untilBrace_eq_some huntil
    exact ⟨rfl, fun hnil => hne after (congrArg (· ++ '}' :: after) hnil), hbrace,
      fun _ _ _ _ => Nat.zero_le _⟩
  | case3 c cs _ hopening ih =>
    obtain ⟨s, hs, rfl⟩ := Option.map_eq_some_iff.mp h
    refine (ih hs).shift fun hstarts => ?_
    obtain ⟨hc, ds, hds, -⟩ := hstarts.exists_opening
    exact hopening ds hc hds
  | case4 => cases h

theorem not_holdsReference_of_first? (h : first? cs = none) : ¬ HoldsReference cs := by
  fun_induction first? cs with
  | case1 cs ih =>
    simp only [holdsReference_cons, not_or]
    exact ⟨not_startsReference_empty, not_startsReference_of_ne (by decide),
      not_startsReference_of_ne (by decide), ih (Option.map_eq_none_iff.mp h)⟩
  | case2 cs hne =>
    have hbrace : '}' ∉ cs := untilBrace_eq_none.mp (Option.map_eq_none_iff.mp h)
    intro hholds
    simpa [hbrace] using hholds.brace_mem
  | case3 c cs _ hopening ih =>
    rw [holdsReference_cons, not_or]
    refine ⟨fun hstarts => ?_, ih (Option.map_eq_none_iff.mp h)⟩
    obtain ⟨hc, ds, hds, -⟩ := hstarts.exists_opening
    exact hopening ds hc hds
  | case4 => exact not_holdsReference_nil

/-- **Nothing is found exactly in a text without a complete reference.** -/
theorem first?_eq_none_iff : first? cs = none ↔ ¬ HoldsReference cs := by
  refine ⟨not_holdsReference_of_first?, fun h => ?_⟩
  cases hfirst : first? cs with
  | none => rfl
  | some r => exact absurd (isFirst_of_first? hfirst).holdsReference h

/-- **What is found is the first complete reference.** -/
theorem first?_eq_some_iff : first? cs = some r ↔ IsFirst cs r := by
  refine ⟨isFirst_of_first?, fun h => ?_⟩
  cases hfirst : first? cs with
  | none => exact absurd h.holdsReference (first?_eq_none_iff.mp hfirst)
  | some s => rw [(isFirst_of_first? hfirst).unique h]

end Reference

theorem references_eq_nil_iff : references cs = [] ↔ ¬ HoldsReference cs := by
  rw [← Reference.first?_eq_none_iff]
  cases hfirst : Reference.first? cs with
  | none => simp [references_of_none hfirst]
  | some r => simp [references_of_some hfirst]

theorem references_of_isFirst {r : Reference} (h : Reference.IsFirst cs r) :
    references cs = r.target :: references r.after :=
  references_of_some (Reference.first?_eq_some_iff.mpr h)

/-- A fragment is plain, or has a first reference with a shorter fragment behind it. -/
theorem fragment_induction {motive : List Char → Prop} (plain : ∀ cs, ¬ HoldsReference cs → motive cs)
    (reference : ∀ cs ref, Reference.IsFirst cs ref → motive ref.after → motive cs) (cs : List Char) :
    motive cs := by
  induction cs using pieces.induct with
  | case1 cs h => exact plain cs (Reference.first?_eq_none_iff.mp h)
  | case2 cs ref h _ ih => exact reference cs ref (Reference.first?_eq_some_iff.mp h) ih

end Selectors.Macro
