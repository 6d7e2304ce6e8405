import Selectors.Proofs.Macro.Checked
import Selectors.Proofs.Macro.Expansion
import Selectors.Proofs.Macro.FirstReference

/-!
# What an expansion gives

An expansion goes through a fragment from one reference to the next, and into the definition of each macro
that it meets. It ends in every table, since no macro is entered inside of itself. It gives a text exactly
if neither an unknown macro nor a cycle can be reached from the fragment, and then the text is the fragment
with its references replaced, those in the definitions included.

* `Unfolds`: expanding without a bound on the nesting; **`unfolds_iff`**: the bound of `resolve` is never
  met;
* `Replaced`: a fragment with its references replaced; `Unfolds.replaced`, `Replaced.unique`;
* `Reachable`; **`Replaced.sound`**: what is reachable from a fragment that has a replaced text;
* **`Sound.expand_eq_error_iff`**: failures in sound tables;
* **`expand_outcome`**: what becomes of a fragment.
-/

namespace Selectors.MacroTable

open Macro Reference

/-! ## Fragments and their texts -/

/-- **What comes of a fragment** inside of the expansions of the macros in `active`. -/
inductive Unfolds (t : MacroTable) : List String → Fragment → Except MacroError Fragment → Prop
  /-- There is no reference left. -/
  | plain {active cs} (h : ¬ HoldsReference cs) : Unfolds t active cs (.ok cs)
  /-- The first reference is to no macro. -/
  | undefined {active cs ref} (hfirst : IsFirst cs ref) (h : t.get? ref.target = none) :
      Unfolds t active cs (.error (.undefined ref.target))
  /-- The first reference is to a macro that is being expanded. -/
  | cyclic {active cs ref definition} (hfirst : IsFirst cs ref)
      (hdef : t.get? ref.target = some definition) (h : ref.target ∈ active) :
      Unfolds t active cs (.error (.cyclic ref.target))
  /-- The definition of the macro cannot be expanded. -/
  | fail {active cs ref definition e} (hfirst : IsFirst cs ref)
      (hdef : t.get? ref.target = some definition) (h : ref.target ∉ active)
      (inner : Unfolds t (ref.target :: active) definition (.error e)) : Unfolds t active cs (.error e)
  /-- The definition of the macro is expanded, and it goes on behind the reference. -/
  | pass {active cs ref definition middle r} (hfirst : IsFirst cs ref)
      (hdef : t.get? ref.target = some definition) (h : ref.target ∉ active)
      (inner : Unfolds t (ref.target :: active) definition (.ok middle))
      (next : Unfolds t active ref.after r) :
      Unfolds t active cs (r.map (ref.before ++ middle ++ ·))

/-- **A fragment with each reference replaced**, by the text that the definition of its macro has with
each reference replaced. Everything else stays. -/
inductive Replaced (t : MacroTable) : Fragment → Fragment → Prop
  | plain {cs} (h : ¬ HoldsReference cs) : Replaced t cs cs
  | reference {cs ref definition middle tail} (hfirst : IsFirst cs ref)
      (hdef : t.get? ref.target = some definition) (inner : Replaced t definition middle)
      (next : Replaced t ref.after tail) : Replaced t cs (ref.before ++ middle ++ tail)

/-- **The names met from a fragment**: those that it refers to, and those that the definitions of met
macros refer to. -/
inductive Reachable (t : MacroTable) (cs : Fragment) : String → Prop
  | direct {x} (h : x ∈ references cs) : Reachable t cs x
  | through {x y} (hx : Reachable t cs x) (h : t.Refers x y) : Reachable t cs y

/-- The leftmost reference of a fragment to no macro. -/
def firstUndefined? (t : MacroTable) (cs : Fragment) : Option String :=
  (references cs).find? fun name => (t.get? name).isNone

variable {t : MacroTable} {cs definition text middle : Fragment} {c : Char} {depth : Nat}
  {active : List String} {name x y : String} {ref : Reference} {r : Except MacroError Fragment}
  {e : MacroError}

/-! ## From one reference to the next -/

/-- The expansion of a fragment inside the expansions of the macros in `active`. -/
def expandWithin (t : MacroTable) (depth : Nat) (active : List String) (cs : Fragment) :
    Except MacroError Fragment :=
  joinPieces (t.resolve depth active) (pieces cs)

theorem expandWithin_of_plain (h : ¬ HoldsReference cs) : t.expandWithin depth active cs = .ok cs := by
  rw [expandWithin, pieces_of_none (first?_eq_none_iff.mpr h)]
  simp [joinPieces, bind, Except.bind]

theorem expandWithin_of_isFirst (h : IsFirst cs ref) : t.expandWithin depth active cs =
    (t.resolve depth active ref.target).bind fun middle =>
      (t.expandWithin depth active ref.after).map (ref.before ++ middle ++ ·) := by
  unfold expandWithin
  rw [pieces_of_some (first?_eq_some_iff.mpr h), joinPieces, joinPieces, ← target]
  cases t.resolve depth active ref.target with
  | error e => rfl
  | ok middle =>
    cases joinPieces (t.resolve depth active) (pieces ref.after) with
    | error e => rfl
    | ok tail => simp [bind, Except.bind, Except.map]

theorem expandWithin_of_error (hfirst : IsFirst cs ref)
    (h : t.resolve depth active ref.target = .error e) : t.expandWithin depth active cs = .error e := by
  rw [expandWithin_of_isFirst hfirst, h]
  rfl

theorem expandWithin_of_ok (hfirst : IsFirst cs ref)
    (h : t.resolve depth active ref.target = .ok middle) : t.expandWithin depth active cs =
      (t.expandWithin depth active ref.after).map (ref.before ++ middle ++ ·) := by
  rw [expandWithin_of_isFirst hfirst, h]
  rfl

theorem expandWithin_cons (hc : c ≠ '#') : t.expandWithin depth active (c :: cs) =
    (t.expandWithin depth active cs).map (c :: ·) := by
  have hnot : ¬ StartsReference (c :: cs) := not_startsReference_of_ne hc
  induction cs using fragment_induction with
  | plain cs h =>
    rw [expandWithin_of_plain h, expandWithin_of_plain fun hcons =>
      (holdsReference_cons.mp hcons).elim hnot h]
    rfl
  | reference cs ref hfirst _ =>
    rw [expandWithin_of_isFirst hfirst, expandWithin_of_isFirst (hfirst.shift hnot)]
    show (t.resolve depth active ref.target).bind _ = _
    cases t.resolve depth active ref.target with
    | error e => rfl
    | ok middle =>
      show (t.expandWithin depth active ref.after).map _ =
        ((t.expandWithin depth active ref.after).map _).map _
      cases t.expandWithin depth active ref.after <;> rfl

theorem expandWithin_concat (hc : c ≠ '}') : t.expandWithin depth active (cs ++ [c]) =
    (t.expandWithin depth active cs).map (· ++ [c]) := by
  induction cs using fragment_induction with
  | plain cs h =>
    rw [expandWithin_of_plain h, expandWithin_of_plain ((holdsReference_concat_iff hc).not.mpr h)]
    rfl
  | reference cs ref hfirst ih =>
    rw [expandWithin_of_isFirst hfirst, expandWithin_of_isFirst (hfirst.concat hc)]
    show (t.resolve depth active ref.target).bind _ = _
    cases t.resolve depth active ref.target with
    | error e => rfl
    | ok middle =>
      show (t.expandWithin depth active (ref.after ++ [c])).map _ =
        ((t.expandWithin depth active ref.after).map _).map _
      rw [ih]
      cases t.expandWithin depth active ref.after with
      | error e => rfl
      | ok tail => exact congrArg Except.ok (List.append_assoc ..).symm

/-! ## Nesting -/

theorem unfolds_of_inner (hinner : ∀ name definition, t.get? name = some definition → name ∉ active →
      t.Unfolds (name :: active) definition (t.resolve depth active name)) (cs : Fragment) :
    t.Unfolds active cs (t.expandWithin depth active cs) := by
  induction cs using fragment_induction with
  | plain cs h =>
    rw [expandWithin_of_plain h]
    exact .plain h
  | reference cs ref hfirst ih =>
    cases hdef : t.get? ref.target with
    | none =>
      rw [expandWithin_of_error hfirst (resolve_of_none active hdef)]
      exact .undefined hfirst hdef
    | some definition =>
      by_cases hmem : ref.target ∈ active
      · rw [expandWithin_of_error hfirst (resolve_of_active hdef hmem)]
        exact .cyclic hfirst hdef hmem
      · have hunfolds := hinner ref.target definition hdef hmem
        cases hresolve : t.resolve depth active ref.target with
        | error e =>
          rw [hresolve] at hunfolds
          rw [expandWithin_of_error hfirst hresolve]
          exact .fail hfirst hdef hmem hunfolds
        | ok middle =>
          rw [hresolve] at hunfolds
          rw [expandWithin_of_ok hfirst hresolve]
          exact .pass hfirst hdef hmem hunfolds ih

/-- As long as the bound covers the macros that are not active, it is never met. -/
theorem unfolds_expandWithin (hw : t.Within depth active) (cs : Fragment) :
    t.Unfolds active cs (t.expandWithin depth active cs) := by
  induction depth generalizing active cs with
  | zero =>
    refine unfolds_of_inner (fun name definition hdef hmem => ?_) cs
    exact absurd (hw.mem_of_zero (defined_of_get? hdef)) hmem
  | succ depth ih =>
    refine unfolds_of_inner (fun name definition hdef hmem => ?_) cs
    rw [resolve_succ hdef hmem]
    exact ih (hw.push (defined_of_get? hdef) hmem) definition

theorem Unfolds.expandWithin_eq (h : t.Unfolds active cs r) (hw : t.Within depth active) :
    t.expandWithin depth active cs = r := by
  induction h generalizing depth with
  | plain hplain => exact expandWithin_of_plain hplain
  | undefined hfirst hnone => exact expandWithin_of_error hfirst (resolve_of_none _ hnone)
  | cyclic hfirst hdef hmem => exact expandWithin_of_error hfirst (resolve_of_active hdef hmem)
  | fail hfirst hdef hnew _ ih =>
    obtain ⟨depth, rfl, hpush⟩ := hw.exists_succ (defined_of_get? hdef) hnew
    apply expandWithin_of_error hfirst
    rw [resolve_succ hdef hnew]
    exact ih hpush
  | @pass active _ ref _ middle _ hfirst hdef hnew _ _ ih ih' =>
    obtain ⟨depth, rfl, hpush⟩ := hw.exists_succ (defined_of_get? hdef) hnew
    have hmiddle : t.resolve (depth + 1) active ref.target = .ok middle := by
      rw [resolve_succ hdef hnew]
      exact ih hpush
    rw [expandWithin_of_ok hfirst hmiddle, ih' hw]

/-- **Expanding gives what the fragment unfolds to**, and nothing else. -/
theorem unfolds_iff : t.Unfolds [] cs r ↔ t.expand cs = r :=
  ⟨fun h => h.expandWithin_eq (.start t), fun h => h ▸ unfolds_expandWithin (.start t) cs⟩

/-! ## Replaced texts -/

theorem Unfolds.replaced (h : t.Unfolds active cs r) (hr : r = .ok text) : t.Replaced cs text := by
  induction h generalizing text with
  | plain hplain =>
    obtain rfl := Except.ok.inj hr
    exact .plain hplain
  | undefined | cyclic | fail => cases hr
  | @pass _ _ _ _ _ r hfirst hdef _ _ _ ih ih' =>
    cases r with
    | error e => cases hr
    | ok tail =>
      obtain rfl := Except.ok.inj hr
      exact .reference hfirst hdef (ih rfl) (ih' rfl)

theorem Replaced.unique {text' : Fragment} (h : t.Replaced cs text) (h' : t.Replaced cs text') :
    text = text' := by
  induction h generalizing text' with
  | plain hplain =>
    cases h' with
    | plain => rfl
    | reference hfirst => exact absurd hfirst.holdsReference hplain
  | reference hfirst hdef _ _ ih ih' =>
    cases h' with
    | plain hplain => exact absurd hfirst.holdsReference hplain
    | reference hfirst' hdef' inner' next' =>
      obtain rfl := hfirst.unique hfirst'
      obtain rfl := Option.some.inj (hdef.symm.trans hdef')
      rw [ih inner', ih' next']

/-! ## Reachable macros -/

theorem reachable_iff : t.Reachable cs x ↔ ∃ b ∈ references cs, t.AtOrReaches b x := by
  constructor
  · intro h
    induction h with
    | direct h => exact ⟨_, h, .refl⟩
    | through _ h ih =>
      obtain ⟨b, hb, hreach⟩ := ih
      exact ⟨b, hb, hreach.tail h⟩
  · rintro ⟨b, hb, hreach⟩
    induction hreach with
    | refl => exact .direct hb
    | tail _ h ih => exact .through ih h

theorem Reachable.of_reaches (hdef : t.get? name = some definition) (h : t.Reaches name x) :
    t.Reachable definition x := by
  induction h with
  | single h =>
    obtain ⟨definition', hdef', hmem⟩ := h
    obtain rfl := Option.some.inj (hdef.symm.trans hdef')
    exact .direct hmem
  | tail _ h ih => exact .through ih h

theorem Reachable.cases_isFirst (hfirst : IsFirst cs ref) (hdef : t.get? ref.target = some definition)
    (h : t.Reachable cs x) : x = ref.target ∨ t.Reachable definition x ∨ t.Reachable ref.after x := by
  induction h with
  | direct h =>
    rw [references_of_isFirst hfirst, List.mem_cons] at h
    exact h.imp_right fun h => .inr (.direct h)
  | through _ h ih =>
    rcases ih with rfl | ih | ih
    · exact .inr (.inl (.of_reaches hdef (.single h)))
    · exact .inr (.inl (.through ih h))
    · exact .inr (.inr (.through ih h))

/-- **No fault is met from a fragment that has a replaced text.** The text of a macro that reaches itself
would be found within itself. -/
theorem Replaced.sound (h : t.Replaced cs text) (hx : t.Reachable cs x) :
    t.Defined x ∧ ¬ t.Reaches x x := by
  induction h generalizing x with
  | plain hplain =>
    obtain ⟨b, hb, -⟩ := reachable_iff.mp hx
    rw [references_eq_nil_iff.mpr hplain] at hb
    exact absurd hb List.not_mem_nil
  | reference hfirst hdef _ _ ih ih' =>
    rcases hx.cases_isFirst hfirst hdef with rfl | hx | hx
    · exact ⟨defined_of_get? hdef, fun hself => (ih (.of_reaches hdef hself)).2 hself⟩
    · exact ih hx
    · exact ih' hx

/-! ## Failures -/

theorem reachable_of_undefined (h : t.expand cs = .error (.undefined x)) :
    t.Reachable cs x ∧ ¬ t.Defined x := by
  obtain ⟨name, hname, hreach, hnot⟩ := exists_meetsFault_of_expand h
  exact ⟨reachable_iff.mpr ⟨name, hname, hreach⟩, hnot⟩

theorem reachable_of_cyclic (h : t.expand cs = .error (.cyclic x)) :
    t.Reachable cs x ∧ t.Reaches x x := by
  obtain ⟨name, hname, hreach, hself⟩ := exists_meetsFault_of_expand h
  exact ⟨reachable_iff.mpr ⟨name, hname, hreach⟩, hself⟩

/-- **A fragment can be expanded exactly if** no fault is met from it. -/
theorem exists_expand_iff : (∃ text, t.expand cs = .ok text) ↔
    ∀ x, t.Reachable cs x → t.Defined x ∧ ¬ t.Reaches x x := by
  constructor
  · rintro ⟨text, htext⟩ x hx
    exact ((unfolds_iff.mpr htext).replaced rfl).sound hx
  · intro h
    cases hexpand : t.expand cs with
    | ok text => exact ⟨text, rfl⟩
    | error e =>
      cases e with
      | undefined x =>
        obtain ⟨hx, hnot⟩ := reachable_of_undefined hexpand
        exact absurd (h x hx).1 hnot
      | cyclic x =>
        obtain ⟨hx, hself⟩ := reachable_of_cyclic hexpand
        exact absurd hself (h x hx).2

theorem expand_eq_ok_iff : t.expand cs = .ok text ↔ t.Replaced cs text := by
  refine ⟨fun h => (unfolds_iff.mpr h).replaced rfl, fun h => ?_⟩
  obtain ⟨text', htext'⟩ := exists_expand_iff.mpr fun _ hx => h.sound hx
  rw [htext', ((unfolds_iff.mpr htext').replaced rfl).unique h]

theorem Sound.resolves (ht : t.Sound) (h : t.Defined name) :
    ∃ text, t.resolve t.size [] name = .ok text := by
  cases hresolve : t.resolve t.size [] name with
  | ok text => exact ⟨text, rfl⟩
  | error e =>
    have hfault := meetsFault_of_resolve (.start t) (fun _ ha => absurd ha List.not_mem_nil) hresolve
    exact absurd hfault (ht.not_meetsFault h)

/-- **In a sound table the leftmost reference to no macro is the only failure.** -/
theorem Sound.expand_eq_error_iff (ht : t.Sound) :
    t.expand cs = .error e ↔ ∃ x, t.firstUndefined? cs = some x ∧ e = .undefined x := by
  show t.expandWithin t.size [] cs = .error e ↔ _
  unfold firstUndefined?
  induction cs using fragment_induction with
  | plain cs h =>
    rw [expandWithin_of_plain h, references_eq_nil_iff.mpr h]
    simp
  | reference cs ref hfirst ih =>
    rw [references_of_isFirst hfirst]
    cases hdef : t.get? ref.target with
    | none =>
      rw [expandWithin_of_error hfirst (resolve_of_none [] hdef)]
      simp [hdef, eq_comm]
    | some definition =>
      obtain ⟨middle, hmiddle⟩ := ht.resolves (defined_of_get? hdef)
      rw [expandWithin_of_ok hfirst hmiddle, List.find?_cons_of_neg (by simp [hdef]), ← ih]
      cases t.expandWithin t.size [] ref.after <;> simp [Except.map]

/-! ## The outcome -/

/-- **What becomes of a fragment**: expanding it ends in every table, and in one way. It gives a text
exactly if all macros met are defined and none reaches itself, and this text is the fragment with its
references replaced. A failure names a macro met that is not defined, or one met that reaches itself; in
a checked table it is the leftmost name in the fragment that is not defined. -/
theorem expand_outcome (t : MacroTable) (cs : Fragment) :
    (∀ r, t.Unfolds [] cs r ↔ t.expand cs = r) ∧
    ((∃ text, t.expand cs = .ok text) ↔ ∀ x, t.Reachable cs x → t.Defined x ∧ ¬ t.Reaches x x) ∧
    (∀ text, t.expand cs = .ok text ↔ t.Replaced cs text) ∧
    (∀ x, t.expand cs = .error (.undefined x) → t.Reachable cs x ∧ ¬ t.Defined x) ∧
    (∀ x, t.expand cs = .error (.cyclic x) → t.Reachable cs x ∧ t.Reaches x x) ∧
    ∀ pairs, ofList? pairs = .ok t → ∀ e, t.expand cs = .error e ↔
      ∃ x, t.firstUndefined? cs = some x ∧ e = .undefined x := by
  refine ⟨fun _ => unfolds_iff, exists_expand_iff, fun _ => expand_eq_ok_iff,
    fun _ => reachable_of_undefined, fun _ => reachable_of_cyclic, fun pairs hpairs e => ?_⟩
  obtain ⟨-, hsound⟩ := sound_of_ofList? hpairs
  exact hsound.expand_eq_error_iff

/-- Of two unknown macros the left one is reported, and an empty `#{}` is left alone. -/
theorem expand_unknown_macros : ∃ t,
    ofList? [("a", "<#{b}>".toList), ("b", "x".toList)] = .ok t ∧
    t.expand "#{a}#{}##{c}#{d}".toList = .error (.undefined "c") ∧
    t.firstUndefined? "#{a}#{}##{c}#{d}".toList = some "c" ∧
    t.Reachable "#{a}#{}##{c}#{d}".toList "c" ∧ ¬ t.Defined "c" ∧
    t.Replaced "#{a}#{}#".toList "<x>#{}#".toList := by
  let t : MacroTable := ofPairs [("a", "<#{b}>".toList), ("b", "x".toList)]
  have ht : ofList? [("a", "<#{b}>".toList), ("b", "x".toList)] = .ok t := by decide +kernel
  obtain ⟨-, -, -, hundefined, -, hfailure⟩ := expand_outcome t "#{a}#{}##{c}#{d}".toList
  have hexpand : t.expand "#{a}#{}##{c}#{d}".toList = .error (.undefined "c") := by decide +kernel
  obtain ⟨x, hx, he⟩ := (hfailure _ ht _).mp hexpand
  cases he
  obtain ⟨-, -, hreplaced, -⟩ := expand_outcome t "#{a}#{}#".toList
  exact ⟨t, ht, hexpand, hx, (hundefined "c" hexpand).1, (hundefined "c" hexpand).2,
    (hreplaced _).mp (by decide +kernel)⟩

end Selectors.MacroTable
