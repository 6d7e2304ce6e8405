import Mathlib.Data.List.Perm.Subperm
import Mathlib.Logic.Relation
import Selectors.Macro.Table

/-!
# Macros that macros refer to

The definition of a macro refers to other macros, and through them to further ones. A macro that is not
defined, or that reaches itself, is a fault of the table.

* `Defined`, `Refers`, `Reaches`;
* `MeetsFault`: a fault met on the way from a macro; `Sound`: a table without faults;
* `Within`: a bound on the nesting of visits, all of them to different macros.
-/

namespace Selectors.MacroTable

open Macro

variable {t : MacroTable} {a b name : String} {definition : Fragment} {depth : Nat}
  {active : List String}

/-! ## References -/

/-- There is a macro of that name. -/
def Defined (t : MacroTable) (name : String) : Prop := (t.get? name).isSome

/-- The definition of `a` refers to `b`. -/
def Refers (t : MacroTable) (a b : String) : Prop :=
  ∃ definition, t.get? a = some definition ∧ b ∈ references definition

/-- `a` refers to `b`, directly or through other macros. -/
def Reaches (t : MacroTable) : String → String → Prop := Relation.TransGen t.Refers

/-- `b` is `a`, or `a` reaches it. -/
def AtOrReaches (t : MacroTable) : String → String → Prop := Relation.ReflTransGen t.Refers

theorem defined_of_get? (h : t.get? name = some definition) : t.Defined name := by
  rw [Defined, h]; rfl

theorem not_defined_of_get? (h : t.get? name = none) : ¬ t.Defined name := by
  rw [Defined, h]; exact Bool.false_ne_true

theorem Refers.defined (h : t.Refers a b) : t.Defined a := by
  obtain ⟨definition, hdef, -⟩ := h
  exact defined_of_get? hdef

theorem Reaches.defined (h : t.Reaches a b) : t.Defined a := by
  obtain ⟨c, hc, -⟩ := Relation.TransGen.head'_iff.mp h
  exact hc.defined

/-! ## Faults -/

/-- A fault met on the way from `name`: a macro that is not defined, or one that reaches itself. -/
def MeetsFault (t : MacroTable) (name : String) : MacroError → Prop
  | .undefined x => t.AtOrReaches name x ∧ ¬ t.Defined x
  | .cyclic x => t.AtOrReaches name x ∧ t.Reaches x x

theorem MeetsFault.of_refers {e : MacroError} (h : t.Refers a b) (hb : t.MeetsFault b e) :
    t.MeetsFault a e := by
  cases e with
  | undefined x | cyclic x => exact ⟨.head h hb.1, hb.2⟩

theorem MeetsFault.exists_refers {x : String} (h : t.MeetsFault a (.undefined x)) (ha : t.Defined a) :
    ∃ b, t.Refers b x := by
  rcases Relation.ReflTransGen.cases_tail h.1 with rfl | ⟨b, -, hb⟩
  · exact absurd ha h.2
  · exact ⟨b, hb⟩

theorem MeetsFault.cases {e : MacroError} (h : t.MeetsFault a e) :
    e = .undefined a ∧ ¬ t.Defined a ∨ ∃ b, t.Refers a b := by
  cases e with
  | undefined x =>
    rcases Relation.ReflTransGen.cases_head h.1 with rfl | ⟨b, hb, -⟩
    · exact Or.inl ⟨rfl, h.2⟩
    · exact Or.inr ⟨b, hb⟩
  | cyclic x =>
    obtain ⟨b, hb, -⟩ := Relation.TransGen.head'_iff.mp (Relation.TransGen.trans_right h.1 h.2)
    exact Or.inr ⟨b, hb⟩

/-- **A table without faults**: all references are to macros of the table, and no macro reaches
itself. -/
structure Sound (t : MacroTable) : Prop where
  closed : ∀ a b, t.Refers a b → t.Defined b
  acyclic : ∀ a, t.Defined a → ¬ t.Reaches a a

theorem Sound.not_meetsFault {e : MacroError} (ht : t.Sound) (ha : t.Defined a) :
    ¬ t.MeetsFault a e := by
  intro h
  cases e with
  | undefined x =>
    obtain ⟨b, hb⟩ := h.exists_refers ha
    exact h.2 (ht.closed b x hb)
  | cyclic x => exact ht.acyclic x h.2.defined h.2

/-! ## Nesting -/

/-- The active macros are different macros of the table, and at most `depth` others are left. -/
structure Within (t : MacroTable) (depth : Nat) (active : List String) : Prop where
  defined : ∀ a ∈ active, t.Defined a
  nodup : active.Nodup
  size_le : t.size ≤ active.length + depth

namespace Within

theorem length_le_size (hdefined : ∀ a ∈ active, t.Defined a) (hnodup : active.Nodup) :
    active.length ≤ t.size := by
  have hsub : active ⊆ t.definitions.names := fun a ha => NameMap.mem_names_iff.mpr (hdefined a ha)
  calc active.length ≤ t.definitions.names.length := (List.subperm_of_subset hnodup hsub).length_le
    _ = t.size := List.length_map _

theorem start (t : MacroTable) : t.Within t.size [] :=
  ⟨fun _ h => absurd h List.not_mem_nil, List.nodup_nil, by simp⟩

theorem push (h : t.Within (depth + 1) active) (hdef : t.Defined name) (hnew : name ∉ active) :
    t.Within depth (name :: active) := by
  refine ⟨fun a ha => ?_, List.nodup_cons.mpr ⟨hnew, h.nodup⟩, ?_⟩
  · rcases List.mem_cons.mp ha with rfl | ha
    · exact hdef
    · exact h.defined a ha
  · have := h.size_le
    rw [List.length_cons]
    omega

theorem mem_of_zero (h : t.Within 0 active) (hdef : t.Defined name) : name ∈ active := by
  by_contra hnew
  have hle : (name :: active).length ≤ t.size := by
    refine length_le_size (fun a ha => ?_) (List.nodup_cons.mpr ⟨hnew, h.nodup⟩)
    rcases List.mem_cons.mp ha with rfl | ha
    · exact hdef
    · exact h.defined a ha
  have := h.size_le
  rw [List.length_cons] at hle
  omega

theorem exists_succ (h : t.Within depth active) (hdef : t.Defined name) (hnew : name ∉ active) :
    ∃ rest, depth = rest + 1 ∧ t.Within rest (name :: active) := by
  cases depth with
  | zero => exact absurd (h.mem_of_zero hdef) hnew
  | succ rest => exact ⟨rest, rfl, h.push hdef hnew⟩

end Within

end Selectors.MacroTable
