import Mathlib.Data.List.Induction
import Selectors.Warning

/-!
# Histories of warnings

Warnings are recognised by their lines, and a line does not say where the component ends: in `[a] b] c` that is
`a` or `a] b`. Two warnings have one line exactly if the front of a message, up to a closing bracket and a space,
can be moved to the component. Over any history a warning is printed exactly if none with its line was asked for
since the record was cleared last.

* `Warning.Shifts`, **`Warning.line_eq_iff`**: the warnings with one line;
* `Warning.IsPlain`, `Warning.line_inj`: components that show where they end;
* `Warnings.HasLine`: the lines of a record; `hasLine_report`, `hasLine_reportAll`: what is noted;
* `Warnings.Call`, `Warnings.answers`, `Warnings.Asked`: histories; **`Warnings.printed_iff`**: their answers.
-/

namespace Selectors

namespace Warning

variable {v w : Warning}

/-! ## Lines -/

/-- `w` is `v` with the front of the message, up to a closing bracket and a space, moved to the component. -/
def Shifts (v w : Warning) : Prop :=
  ∃ front, v.message = front ++ "] " ++ w.message ∧ w.component = v.component ++ "] " ++ front

/-- No closing bracket in the component is followed by a space. -/
def IsPlain (w : Warning) : Prop := ¬ [']', ' '] <:+: w.component.toList

instance (w : Warning) : Decidable w.IsPlain :=
  inferInstanceAs (Decidable (¬ [']', ' '] <:+: w.component.toList))

/-- Where a text begins with the divider, and goes on after some characters with the divider as well, these
characters are none or begin with the divider themselves. -/
theorem divided_eq {e m n : List Char} (h : ']' :: ' ' :: m = e ++ ']' :: ' ' :: n) :
    e = [] ∧ m = n ∨ ∃ front, e = ']' :: ' ' :: front ∧ m = front ++ ']' :: ' ' :: n := by
  match e with
  | [] => exact Or.inl ⟨rfl, by simpa using h⟩
  | [x] => simp at h
  | x :: y :: front =>
    simp only [List.cons_append, List.cons.injEq] at h
    obtain ⟨rfl, rfl, hm⟩ := h
    exact Or.inr ⟨front, rfl, hm⟩

theorem toList_line (w : Warning) :
    w.line.toList = '[' :: (w.component.toList ++ ']' :: ' ' :: w.message.toList) := by
  simp [line]

theorem eq_iff_toList : v = w ↔
    v.component.toList = w.component.toList ∧ v.message.toList = w.message.toList := by
  cases v
  cases w
  simp [String.toList_inj]

theorem shifts_iff_toList : v.Shifts w ↔ ∃ front, v.message.toList = front ++ ']' :: ' ' :: w.message.toList ∧
    w.component.toList = v.component.toList ++ ']' :: ' ' :: front := by
  constructor
  · rintro ⟨front, hm, hc⟩
    exact ⟨front.toList, by simp [hm], by simp [hc]⟩
  · rintro ⟨front, hm, hc⟩
    exact ⟨.ofList front, String.toList_inj.mp (by simp [hm]), String.toList_inj.mp (by simp [hc])⟩

/-- **Two warnings have one line** exactly if they are equal, or the front of the message of one is the end of the
component of the other. -/
theorem line_eq_iff : v.line = w.line ↔ v = w ∨ v.Shifts w ∨ w.Shifts v := by
  rw [← String.toList_inj, toList_line, toList_line, eq_iff_toList, shifts_iff_toList, shifts_iff_toList]
  constructor
  · intro h
    rcases List.append_eq_append_iff.mp (List.cons.inj h).2 with ⟨e, hc, he⟩ | ⟨e, hc, he⟩
    · rcases divided_eq he with ⟨rfl, hm⟩ | ⟨front, rfl, hm⟩
      · exact Or.inl ⟨by rw [hc, List.append_nil], hm⟩
      · exact Or.inr (Or.inl ⟨front, hm, hc⟩)
    · rcases divided_eq he with ⟨rfl, hm⟩ | ⟨front, rfl, hm⟩
      · exact Or.inl ⟨by rw [hc, List.append_nil], hm.symm⟩
      · exact Or.inr (Or.inr ⟨front, hm, hc⟩)
  · rintro (⟨hc, hm⟩ | ⟨front, hm, hc⟩ | ⟨front, hm, hc⟩) <;> simp [hc, hm]

theorem Shifts.not_isPlain (h : v.Shifts w) : ¬ w.IsPlain := by
  obtain ⟨front, -, hc⟩ := shifts_iff_toList.mp h
  exact fun hplain => hplain ⟨v.component.toList, front, by rw [hc]; simp⟩

theorem line_inj (hv : v.IsPlain) (hw : w.IsPlain) : v.line = w.line ↔ v = w := by
  rw [line_eq_iff]
  exact or_iff_left fun h => h.elim (fun h => h.not_isPlain hw) fun h => h.not_isPlain hv

theorem duplicateId_inj {x y : String} : duplicateId x = duplicateId y ↔ x = y := by
  simp [duplicateId, ← String.toList_inj]

theorem line_duplicateId_inj {x y : String} : (duplicateId x).line = (duplicateId y).line ↔ x = y := by
  have hplain : ∀ id, (duplicateId id).IsPlain := fun id => by
    show ¬ [']', ' '] <:+: "DOM".toList
    decide
  rw [line_inj (hplain x) (hplain y), duplicateId_inj]

end Warning

namespace Warnings

variable {ws : Warnings} {v w : Warning} {x : String}

/-! ## The lines of a record -/

/-- A warning with this line has been printed. -/
def HasLine (ws : Warnings) (x : String) : Prop := ∃ v ∈ ws.printed, v.line = x

theorem isNew_iff : ws.isNew w = true ↔ ¬ ws.HasLine w.line := by
  simp [isNew, HasLine]

theorem not_hasLine_none : ¬ Warnings.none.HasLine x := by
  rintro ⟨v, hv, -⟩
  cases hv

theorem hasLine_report : (ws.report w).HasLine x ↔ ws.HasLine x ∨ w.line = x := by
  unfold report
  split
  · simp [HasLine, or_and_right, exists_or]
  · rename_i h
    rw [isNew_iff, Classical.not_not] at h
    exact ⟨Or.inl, fun hx => hx.elim id fun hx => hx ▸ h⟩

theorem hasLine_reportAll {l : List Warning} :
    (ws.reportAll l).HasLine x ↔ ws.HasLine x ∨ ∃ v ∈ l, v.line = x := by
  induction l generalizing ws with
  | nil => simp [reportAll]
  | cons w l ih =>
    show ((ws.report w).reportAll l).HasLine x ↔ _
    simp only [ih, hasLine_report, or_assoc, List.mem_cons, exists_eq_or_imp]

theorem mem_printed_reportAll {l : List Warning} (h : v ∈ (ws.reportAll l).printed) :
    v ∈ ws.printed ∨ v ∈ l := by
  induction l generalizing ws with
  | nil => exact Or.inl h
  | cons w l ih =>
    rcases @ih (ws.report w) h with h | h
    · unfold report at h
      split at h
      · exact (List.mem_append.mp h).imp_right fun h => List.mem_cons.mpr (Or.inl (List.mem_singleton.mp h))
      · exact Or.inl h
    · exact Or.inr (List.mem_cons_of_mem w h)

/-! ## Histories -/

/-- A warning is to be printed, or the record is to be cleared. -/
inductive Call where
  | warn (w : Warning)
  | clear

/-- What a call answers, for a warning whether it is printed, and the record after the call. -/
def answer (ws : Warnings) : Call → Option Bool × Warnings
  | .warn w => (some (ws.isNew w), ws.report w)
  | .clear => (Option.none, .none)

/-- The answers of calls in turn. -/
def answers (ws : Warnings) : List Call → List (Option Bool)
  | [] => []
  | c :: calls => (ws.answer c).1 :: (ws.answer c).2.answers calls

/-- The record after calls in turn. -/
def after (ws : Warnings) (calls : List Call) : Warnings := calls.foldl (fun ws c => (ws.answer c).2) ws

/-- A warning was to be printed since the record was cleared last. -/
def Asked (v : Warning) (calls : List Call) : Prop :=
  ∃ before behind, calls = before ++ .warn v :: behind ∧ .clear ∉ behind

variable {calls before behind : List Call} {c : Call}

theorem getElem?_answers (ws : Warnings) (before : List Call) (c : Call) (behind : List Call) :
    (ws.answers (before ++ c :: behind))[before.length]? = some ((ws.after before).answer c).1 := by
  induction before generalizing ws with
  | nil => rfl
  | cons d before ih => exact ih (ws.answer d).2

theorem asked_concat_warn : Asked v (calls ++ [.warn w]) ↔ Asked v calls ∨ w = v := by
  constructor
  · rintro ⟨before, behind, h, hclear⟩
    rcases List.eq_nil_or_concat behind with rfl | ⟨behind, d, rfl⟩
    · obtain ⟨-, h⟩ := List.append_inj' h rfl
      exact Or.inr (Call.warn.inj (List.cons.inj h).1)
    · rw [List.concat_eq_append, ← List.cons_append, ← List.append_assoc] at h
      obtain ⟨rfl, -⟩ := List.append_inj' h rfl
      refine Or.inl ⟨before, behind, rfl, fun hmem => hclear ?_⟩
      rw [List.concat_eq_append]
      exact List.mem_append_left _ hmem
  · rintro (⟨before, behind, rfl, hclear⟩ | rfl)
    · refine ⟨before, behind ++ [.warn w], by simp, fun hmem => ?_⟩
      rcases List.mem_append.mp hmem with hmem | hmem
      · exact hclear hmem
      · cases List.mem_singleton.mp hmem
    · exact ⟨calls, [], rfl, List.not_mem_nil⟩

theorem not_asked_nil : ¬ Asked v [] := by
  rintro ⟨before, behind, h, -⟩
  simp at h

theorem asked_singleton : Asked v [.warn w] ↔ w = v := by
  rw [← List.nil_append [Call.warn w], asked_concat_warn]
  exact or_iff_right not_asked_nil

theorem not_asked_concat_clear : ¬ Asked v (calls ++ [.clear]) := by
  rintro ⟨before, behind, h, hclear⟩
  rcases List.eq_nil_or_concat behind with rfl | ⟨behind, d, rfl⟩
  · obtain ⟨-, h⟩ := List.append_inj' h rfl
    cases (List.cons.inj h).1
  · rw [List.concat_eq_append, ← List.cons_append, ← List.append_assoc] at h
    obtain ⟨-, h⟩ := List.append_inj' h rfl
    obtain rfl := (List.cons.inj h).1
    exact hclear (by simp)

/-- **The lines of a record** are those of the warnings asked for since it was cleared. -/
theorem hasLine_after : (Warnings.none.after calls).HasLine x ↔ ∃ v, Asked v calls ∧ v.line = x := by
  induction calls using List.reverseRecOn with
  | nil =>
    refine iff_of_false not_hasLine_none ?_
    rintro ⟨v, hv, -⟩
    exact not_asked_nil hv
  | append_singleton calls c ih =>
    rw [after, List.foldl_append]
    show ((Warnings.none.after calls).answer c).2.HasLine x ↔ _
    cases c with
    | warn w =>
      show ((Warnings.none.after calls).report w).HasLine x ↔ _
      simp only [hasLine_report, ih, asked_concat_warn, or_and_right, exists_or, exists_eq_left']
    | clear =>
      refine iff_of_false not_hasLine_none ?_
      rintro ⟨v, hv, -⟩
      exact not_asked_concat_clear hv

theorem isNew_after : (Warnings.none.after calls).isNew w = true ↔ ∀ v, Asked v calls → v.line ≠ w.line := by
  rw [isNew_iff, hasLine_after]
  simp only [not_exists, not_and]

/-- **The answer to every warning in a history.** It is printed exactly if, since the record was cleared last,
neither it was asked for nor one with the same line. If all these warnings have plain components, it is printed
exactly if it was not asked for. -/
theorem printed_iff (before behind : List Call) (w : Warning) : ∃ printed : Bool,
    (Warnings.none.answers (before ++ .warn w :: behind))[before.length]? = some (some printed) ∧
      (printed = true ↔ ∀ v, Asked v before → v ≠ w ∧ ¬ v.Shifts w ∧ ¬ w.Shifts v) ∧
      ((∀ v, Asked v before ∨ v = w → v.IsPlain) → (printed = true ↔ ¬ Asked w before)) := by
  refine ⟨_, getElem?_answers _ before (.warn w) behind, ?_, fun hplain => ?_⟩
  · rw [isNew_after]
    refine forall₂_congr fun v _ => ?_
    rw [ne_eq, Warning.line_eq_iff, not_or, not_or]
  · have hline : ∀ v, Asked v before → (v.line ≠ w.line ↔ v ≠ w) := fun v hv =>
      not_congr (Warning.line_inj (hplain v (Or.inl hv)) (hplain w (Or.inr rfl)))
    rw [isNew_after, forall₂_congr hline]
    exact ⟨fun h hw => h w hw rfl, fun h v hv heq => h (heq ▸ hv)⟩

/-- A message of one component is printed for another one. -/
theorem printed_for_other_component :
    let v : Warning := ⟨"DOM", "a"⟩
    let w : Warning := ⟨"Selector", "a"⟩
    Warnings.none.answers [.warn v, .warn w] = [some true, some true] ∧ (v.IsPlain ∧ w.IsPlain) ∧
      ¬ Asked w [.warn v] := by
  intro v w
  have hv : v.IsPlain := by decide +kernel
  have hw : w.IsPlain := by decide +kernel
  have hanswers : Warnings.none.answers [.warn v, .warn w] = [some true, some true] := by decide
  obtain ⟨printed, hprinted, -, hiff⟩ := printed_iff [.warn v] [] w
  have hplain : ∀ u, Asked u [.warn v] ∨ u = w → u.IsPlain := by
    rintro u (hu | rfl)
    · exact asked_singleton.mp hu ▸ hv
    · exact hw
  have htrue : printed = true := by
    change (Warnings.none.answers [.warn v, .warn w])[1]? = some (some printed) at hprinted
    rw [hanswers] at hprinted
    exact (Option.some.inj (Option.some.inj hprinted)).symm
  exact ⟨hanswers, ⟨hv, hw⟩, (hiff hplain).mp htrue⟩

/-- Two warnings of different components with one line: the second one is not printed, though it was not asked
for before. -/
theorem not_printed_bracket :
    let v : Warning := ⟨"a] b", "c"⟩
    let w : Warning := ⟨"a", "b] c"⟩
    Warnings.none.answers [.warn v, .warn w] = [some true, some false] ∧ ¬ Asked w [.warn v] := by
  intro v w
  exact ⟨by decide, fun h => absurd (asked_singleton.mp h) (by decide)⟩

end Warnings

end Selectors
