import Mathlib.Logic.Function.Basic
import Selectors.Pattern.Automaton
import Selectors.Pattern.Normal

/-!
# Numbers and names of groups

Patterns are put together in the same way whatever numbers their groups have, and their automata do not
depend on the numbers. The names of the groups are those of the patterns that are put together.

* `renumber`: a pattern with other numbers; **`concat_renumber`**, **`alternation_renumber`**,
  **`repeated_renumber`**, **`build_renumber`**;
* `groupNames`: the names; **`groupNames_concat`**, **`groupNames_alternation`**,
  **`groupNames_repeated`**; `Pattern.mem_groupNames_of_note`.
-/

namespace Selectors

namespace Pattern

/-! ## Numbers -/

/-- The pattern with the numbers of all groups raised by `k`. -/
def renumber (k : Nat) : Pattern → Pattern
  | empty => empty
  | literal text => literal text
  | one set => one set
  | textStart => textStart
  | textEnd => textEnd
  | seq p q => seq (p.renumber k) (q.renumber k)
  | alt p q => alt (p.renumber k) (q.renumber k)
  | rep p least most greedy => rep (p.renumber k) least most greedy
  | group number name p => group (number + k) name (p.renumber k)

section Renumber

variable (k : Nat)

theorem renumber_injective : Function.Injective (renumber k) := by
  intro p
  induction p with
  | empty | literal | one | textStart | textEnd =>
    intro q h
    cases q <;> simp_all [renumber]
  | seq p q ihp ihq | alt p q ihp ihq =>
    intro r h
    cases r with
    | seq | alt =>
      simp only [renumber, reduceCtorEq, seq.injEq, alt.injEq] at h
      try rw [ihp h.1, ihq h.2]
    | _ => simp [renumber] at h
  | rep p least most greedy ih =>
    intro r h
    cases r with
    | rep =>
      simp only [renumber, rep.injEq] at h
      rw [ih h.1, h.2.1, h.2.2.1, h.2.2.2]
    | _ => simp [renumber] at h
  | group number name p ih =>
    intro r h
    cases r with
    | group =>
      simp only [renumber, group.injEq] at h
      rw [Nat.add_right_cancel h.1, h.2.1, ih h.2.2]
    | _ => simp [renumber] at h

theorem parts_renumber (p : Pattern) : (p.renumber k).parts = p.parts.map (renumber k) := by
  induction p with
  | seq p q ihp ihq => simp only [renumber, parts, ihp, ihq, List.map_append]
  | _ => rfl

theorem branches_renumber (p : Pattern) :
    (p.renumber k).branches = p.branches.map (renumber k) := by
  induction p with
  | alt p q ihp ihq => simp only [renumber, branches, ihp, ihq, List.map_append]
  | _ => rfl

theorem isEmptyOnly_renumber (p : Pattern) : (p.renumber k).isEmptyOnly = p.isEmptyOnly := by
  induction p with
  | seq p q ihp ihq | alt p q ihp ihq => simp only [renumber, isEmptyOnly, ihp, ihq]
  | rep p least most greedy ih | group number name p ih => simp only [renumber, isEmptyOnly, ih]
  | _ => rfl

theorem minLength?_renumber (p : Pattern) : (p.renumber k).minLength? = p.minLength? := by
  induction p with
  | seq p q ihp ihq | alt p q ihp ihq => simp only [renumber, minLength?, ihp, ihq]
  | rep p least most greedy ih | group number name p ih => simp only [renumber, minLength?, ih]
  | _ => rfl

theorem ofSet_renumber (set : CharSet) : (ofSet set).renumber k = ofSet set := by
  unfold ofSet
  split <;> rfl

theorem ofParts_renumber (ps : List Pattern) :
    (ofParts ps).renumber k = ofParts (ps.map (renumber k)) := by
  induction ps with
  | nil => rfl
  | cons p ps ih =>
    cases ps with
    | nil => rfl
    | cons q ps => exact congrArg (seq (p.renumber k)) ih

theorem ofBranches_renumber (ps : List Pattern) :
    (ofBranches ps).renumber k = ofBranches (ps.map (renumber k)) := by
  induction ps with
  | nil => rfl
  | cons p ps ih =>
    cases ps with
    | nil => rfl
    | cons q ps => exact congrArg (alt (p.renumber k)) ih

theorem joinPart_renumber (p : Pattern) (rest : List Pattern) :
    joinPart (p.renumber k) (rest.map (renumber k)) = (joinPart p rest).map (renumber k) := by
  cases p with
  | literal text =>
    cases rest with
    | nil => rfl
    | cons q rest => cases q <;> rfl
  | _ => rfl

theorem concat_renumber (ps : List Pattern) :
    (concat ps).renumber k = concat (ps.map (renumber k)) := by
  have hjoin : ∀ qs : List Pattern, (qs.map (renumber k)).foldr joinPart [] =
      (qs.foldr joinPart []).map (renumber k) := by
    intro qs
    induction qs with
    | nil => rfl
    | cons q qs ih => rw [List.map_cons, List.foldr_cons, ih, joinPart_renumber, List.foldr_cons]
  unfold concat
  rw [ofParts_renumber, ← hjoin, List.map_flatMap, List.flatMap_map]
  simp only [parts_renumber]

theorem sets?_renumber (bs : List Pattern) : sets? (bs.map (renumber k)) = sets? bs := by
  have hchar : ∀ p : Pattern, char? (p.renumber k) = char? p := fun p => by cases p <;> rfl
  have hset : ∀ p : Pattern, set? (p.renumber k) = set? p := fun p => by cases p <;> rfl
  unfold sets?
  rw [List.mapM_map, List.mapM_map]
  simp only [Function.comp_def, hchar, hset]

theorem unite_renumber (bs : List Pattern) : (unite bs).renumber k = unite (bs.map (renumber k)) := by
  cases bs with
  | nil => rfl
  | cons b bs =>
    cases bs with
    | nil => rfl
    | cons c bs =>
      have hsets := sets?_renumber k (b :: c :: bs)
      simp only [unite, List.map_cons] at hsets ⊢
      rw [hsets]
      cases sets? (b :: c :: bs) with
      | none => exact ofBranches_renumber k (b :: c :: bs)
      | some sets => exact ofSet_renumber k _

theorem commonPrefix_renumber (ps qs : List Pattern) :
    commonPrefix (ps.map (renumber k)) (qs.map (renumber k)) =
      (commonPrefix ps qs).map (renumber k) := by
  induction ps generalizing qs with
  | nil => rfl
  | cons p ps ih =>
    cases qs with
    | nil => rfl
    | cons q qs =>
      simp only [List.map_cons, commonPrefix, (renumber_injective k).eq_iff]
      split
      · rw [ih]; rfl
      · rfl

theorem sharedParts_renumber (bs : List Pattern) :
    sharedParts (bs.map (renumber k)) = (sharedParts bs).map (renumber k) := by
  cases bs with
  | nil => rfl
  | cons b bs =>
    have hall : (renumber k b :: bs.map (renumber k)).all (1 < ·.parts.length) =
        (b :: bs).all (1 < ·.parts.length) := by
      rw [← List.map_cons, List.all_map]
      refine congrArg (List.all _) (funext fun p => ?_)
      simp only [Function.comp_apply, parts_renumber, List.length_map]
    have hfold : ∀ shared : List Pattern,
        (bs.map (renumber k)).foldl (fun shared b => commonPrefix shared b.parts)
            (shared.map (renumber k)) =
          (bs.foldl (fun shared b => commonPrefix shared b.parts) shared).map (renumber k) := by
      induction bs with
      | nil => exact fun _ => rfl
      | cons c bs ih =>
        intro shared
        rw [List.map_cons, List.foldl_cons, parts_renumber, commonPrefix_renumber, List.foldl_cons]
        refine ih ?_ _
        rw [← List.map_cons, List.all_map]
        refine congrArg (List.all _) (funext fun p => ?_)
        simp only [Function.comp_apply, parts_renumber, List.length_map]
    simp only [List.map_cons, sharedParts, hall]
    split
    · rw [parts_renumber, hfold]
    · rfl

theorem alternation_renumber (ps : List Pattern) :
    (alternation ps).renumber k = alternation (ps.map (renumber k)) := by
  have hbranches : ∀ qs : List Pattern, (qs.map (renumber k)).flatMap branches =
      (qs.flatMap branches).map (renumber k) := by
    intro qs
    rw [List.map_flatMap, List.flatMap_map]
    simp only [branches_renumber]
  unfold alternation
  simp only [hbranches, sharedParts_renumber, List.length_map, List.map_eq_nil_iff]
  split
  · exact unite_renumber k _
  · rw [concat_renumber, List.map_append, List.map_singleton, unite_renumber, List.map_map]
    simp only [Function.comp_def, parts_renumber, ← List.map_drop, ← concat_renumber]
    rw [← hbranches, List.map_map]
    rfl

theorem repeated_renumber (p : Pattern) (least : Nat) (most : Option Nat) (greedy : Bool) :
    (p.repeated least most greedy).renumber k = (p.renumber k).repeated least most greedy := by
  simp only [repeated, isEmptyOnly_renumber, apply_ite (renumber k)]
  rfl

/-- **The automaton does not depend on the numbers of the groups.** -/
theorem build_renumber (p : Pattern) : (p.renumber k).build = p.build := by
  induction p with
  | seq p q ihp ihq | alt p q ihp ihq => simp only [renumber, build, ihp, ihq]
  | rep p least most greedy ih =>
    simp only [renumber, build, ih, movesOn, minLength?_renumber]
  | group number name p ih => cases name <;> simp only [renumber, build, ih]
  | _ => rfl

theorem automaton_renumber (p : Pattern) : (p.renumber k).automaton = p.automaton := by
  unfold automaton
  rw [build_renumber]

end Renumber

/-! ## Names -/

/-- The names of the groups. -/
def groupNames : Pattern → List String
  | empty | literal _ | one _ | textStart | textEnd => []
  | seq p q | alt p q => p.groupNames ++ q.groupNames
  | rep p _ _ _ => p.groupNames
  | group _ name p => name.toList ++ p.groupNames

section Names

variable {names : List String} {p q : Pattern} {ps qs : List Pattern}

/-- All names of the patterns are among the given ones. -/
def NamesIn (names : List String) (ps : List Pattern) : Prop := ∀ p ∈ ps, p.groupNames ⊆ names

theorem NamesIn.append (hp : NamesIn names ps) (hq : NamesIn names qs) :
    NamesIn names (ps ++ qs) :=
  fun p h => (List.mem_append.mp h).elim (hp p) (hq p)

theorem NamesIn.cons (hp : p.groupNames ⊆ names) (hps : NamesIn names ps) :
    NamesIn names (p :: ps) := by
  intro q hq
  rcases List.mem_cons.mp hq with rfl | hq
  · exact hp
  · exact hps q hq

theorem NamesIn.of_cons (h : NamesIn names (p :: ps)) : p.groupNames ⊆ names ∧ NamesIn names ps :=
  ⟨h p List.mem_cons_self, fun q hq => h q (List.mem_cons_of_mem p hq)⟩

theorem namesIn_nil (names : List String) : NamesIn names [] :=
  fun _ h => absurd h List.not_mem_nil

theorem NamesIn.mono {names' : List String} (h : NamesIn names ps) (hsub : names ⊆ names') :
    NamesIn names' ps := fun p hp => List.Subset.trans (h p hp) hsub

theorem NamesIn.flatMap {f : Pattern → List Pattern} (h : NamesIn names ps)
    (hf : ∀ p, p.groupNames ⊆ names → NamesIn names (f p)) : NamesIn names (ps.flatMap f) := by
  intro q hq
  obtain ⟨p, hp, hq⟩ := List.mem_flatMap.mp hq
  exact hf p (h p hp) q hq

theorem namesIn_parts (h : p.groupNames ⊆ names) : NamesIn names p.parts := by
  induction p with
  | empty => exact namesIn_nil names
  | seq p q ihp ihq =>
    exact (ihp fun _ hn => h (List.mem_append_left _ hn)).append
      (ihq fun _ hn => h (List.mem_append_right _ hn))
  | _ => exact .cons h (namesIn_nil names)

theorem namesIn_branches (h : p.groupNames ⊆ names) : NamesIn names p.branches := by
  induction p with
  | alt p q ihp ihq =>
    exact (ihp fun _ hn => h (List.mem_append_left _ hn)).append
      (ihq fun _ hn => h (List.mem_append_right _ hn))
  | _ => exact .cons h (namesIn_nil names)

theorem groupNames_ofParts (h : NamesIn names ps) : (ofParts ps).groupNames ⊆ names := by
  induction ps with
  | nil => exact List.nil_subset names
  | cons p ps ih =>
    obtain ⟨hp, hps⟩ := h.of_cons
    cases ps with
    | nil => exact hp
    | cons q ps => exact List.append_subset.mpr ⟨hp, ih hps⟩

theorem groupNames_ofBranches (h : NamesIn names ps) : (ofBranches ps).groupNames ⊆ names := by
  induction ps with
  | nil => exact List.nil_subset names
  | cons p ps ih =>
    obtain ⟨hp, hps⟩ := h.of_cons
    cases ps with
    | nil => exact hp
    | cons q ps => exact List.append_subset.mpr ⟨hp, ih hps⟩

theorem namesIn_joinPart (hp : p.groupNames ⊆ names) (hps : NamesIn names ps) :
    NamesIn names (joinPart p ps) := by
  fun_cases joinPart p ps with
  | case1 a b rest => exact .cons (List.nil_subset names) hps.of_cons.2
  | case2 => exact .cons hp hps

theorem groupNames_concat (h : NamesIn names ps) : (concat ps).groupNames ⊆ names := by
  have hparts := h.flatMap fun p hp => namesIn_parts hp
  refine groupNames_ofParts ?_
  generalize ps.flatMap parts = qs at hparts
  induction qs with
  | nil => exact namesIn_nil names
  | cons q qs ih => exact namesIn_joinPart hparts.of_cons.1 (ih hparts.of_cons.2)

theorem groupNames_ofSet (set : CharSet) : (ofSet set).groupNames = [] := by
  unfold ofSet
  split <;> rfl

theorem groupNames_unite (h : NamesIn names ps) : (unite ps).groupNames ⊆ names := by
  unfold unite
  split
  · exact h.of_cons.1
  · split
    · rw [groupNames_ofSet]; exact List.nil_subset names
    · exact groupNames_ofBranches h

theorem mem_of_mem_commonPrefix (h : p ∈ commonPrefix ps qs) : p ∈ ps := by
  induction ps generalizing qs with
  | nil => exact absurd h List.not_mem_nil
  | cons q ps ih =>
    cases qs with
    | nil => exact absurd h List.not_mem_nil
    | cons r qs =>
      rw [commonPrefix] at h
      split at h
      · rcases List.mem_cons.mp h with rfl | h
        · exact List.mem_cons_self
        · exact List.mem_cons_of_mem q (ih h)
      · exact absurd h List.not_mem_nil

theorem namesIn_sharedParts (h : NamesIn names ps) : NamesIn names (sharedParts ps) := by
  cases ps with
  | nil => exact namesIn_nil names
  | cons p ps =>
    have hfold : ∀ shared : List Pattern, NamesIn names shared →
        NamesIn names (ps.foldl (fun shared b => commonPrefix shared b.parts) shared) := by
      clear h
      induction ps with
      | nil => exact fun _ h => h
      | cons q ps ih => exact fun _ h => ih _ fun r hr => h r (mem_of_mem_commonPrefix hr)
    rw [sharedParts]
    split
    · exact hfold _ (namesIn_parts h.of_cons.1)
    · exact namesIn_nil names

theorem groupNames_alternation (h : NamesIn names ps) : (alternation ps).groupNames ⊆ names := by
  have hb : NamesIn names (ps.flatMap branches) := h.flatMap fun p hp => namesIn_branches hp
  simp only [alternation]
  split
  · exact groupNames_unite hb
  · refine groupNames_concat ((namesIn_sharedParts hb).append (.cons ?_ (namesIn_nil names)))
    refine groupNames_unite (NamesIn.flatMap ?_ fun p hp => namesIn_branches hp)
    intro p hp
    obtain ⟨b, hbm, rfl⟩ := List.mem_map.mp hp
    exact groupNames_concat fun q hq => namesIn_parts (hb b hbm) q (List.mem_of_mem_drop hq)

theorem groupNames_repeated (h : p.groupNames ⊆ names) (least : Nat) (most : Option Nat)
    (greedy : Bool) : (p.repeated least most greedy).groupNames ⊆ names := by
  simp only [repeated]
  generalize (if p.isEmptyOnly = true then min least 1 else least) = least'
  generalize (if p.isEmptyOnly = true then some (min (most.getD 1) 1) else most) = most'
  split
  · exact List.nil_subset names
  · split <;> exact h

end Names

end Pattern

/-! ## Names in automata -/

/-- Among the states, groups are noted only by the given names. -/
def NotesIn (names : List String) (states : Array State) : Prop :=
  ∀ name next, State.note name next ∈ states → name ∈ names

namespace Build

variable {names : List String} {body first second : Build}

/-- The build notes groups only by the given names. -/
def Notes (names : List String) (b : Build) : Prop :=
  ∀ next states, NotesIn names states → NotesIn names (b next states).2

theorem notesIn_push {state : State} {states : Array State}
    (hs : ∀ name next, state = .note name next → name ∈ names) (h : NotesIn names states) :
    NotesIn names (push state states).2 := by
  intro name next hn
  rcases Array.mem_push.mp hn with hn | hn
  · exact h name next hn
  · exact hs name next hn.symm

theorem prefer_ne_note (greedy : Bool) (one other : StateId) (name : String) (next : StateId) :
    prefer greedy one other ≠ .note name next := State.noConfusion

theorem Notes.andThen (hf : first.Notes names) (hs : second.Notes names) :
    (first.andThen second).Notes names :=
  fun next states h => hf _ _ (hs next states h)

theorem notes_literal (text : List Char) : (literal text).Notes names := by
  intro next states h
  induction text with
  | nil => exact h
  | cons c text ih => exact notesIn_push (fun _ _ => State.noConfusion) ih

theorem Notes.copies (hb : body.Notes names) (n : Nat) : (copies body n).Notes names := by
  induction n with
  | zero => exact fun _ _ h => h
  | succ n ih => exact fun next states h => ih _ _ (hb next states h)

theorem Notes.upTo (hb : body.Notes names) (greedy : Bool) (leave : StateId) (n : Nat) :
    Notes names fun next => upTo body greedy leave n next := by
  induction n with
  | zero => exact fun _ _ h => h
  | succ n ih =>
    exact fun next states h => ih _ _ (notesIn_push
      (fun _ _ he => absurd he (prefer_ne_note _ _ _ _ _)) (hb next states h))

theorem Notes.loop (hb : body.Notes names) (greedy : Bool) (next : StateId) {states : Array State}
    (h : NotesIn names states) : NotesIn names (loop body greedy next states).2.2 := by
  intro name n hn
  rcases Array.mem_or_eq_of_mem_setIfInBounds hn with hn | hn
  · exact hb _ _ (notesIn_push (fun _ _ => State.noConfusion) h) name n hn
  · exact absurd hn.symm (prefer_ne_note _ _ _ _ _)

theorem Notes.rounds (hb : body.Notes names) (movesOn : Bool) (least : Nat) (most : Option Nat)
    (greedy : Bool) : (rounds body movesOn least most greedy).Notes names := by
  unfold Build.rounds
  split
  · exact (hb.copies _).andThen fun next states h => hb.upTo greedy next _ next states h
  · intro next states h
    have hloop := hb.loop greedy next h
    cases movesOn with
    | true => exact hloop
    | false => exact notesIn_push (fun _ _ he => absurd he (prefer_ne_note _ _ _ _ _)) hloop
  · exact (hb.copies _).andThen fun next states h => hb.loop greedy next h

end Build

/-- **The states of a pattern note its own groups only.** -/
theorem Pattern.notes_build {names : List String} {p : Pattern} (h : p.groupNames ⊆ names) :
    p.build.Notes names := by
  induction p with
  | empty => exact fun _ _ h => h
  | literal text => exact Build.notes_literal text
  | one | textStart | textEnd =>
    exact fun next states h => Build.notesIn_push (fun _ _ => State.noConfusion) h
  | seq p q ihp ihq =>
    exact (ihp fun _ hn => h (List.mem_append_left _ hn)).andThen
      (ihq fun _ hn => h (List.mem_append_right _ hn))
  | alt p q ihp ihq =>
    intro next states hs
    have hq := ihq (fun _ hn => h (List.mem_append_right _ hn)) next states hs
    have hp := ihp (fun _ hn => h (List.mem_append_left _ hn)) next _ hq
    exact Build.notesIn_push (fun _ _ => State.noConfusion) hp
  | rep p least most greedy ih => exact (ih h).rounds _ _ _ _
  | group number name p ih =>
    cases name with
    | none => exact ih h
    | some name =>
      intro next states hs
      refine Build.notesIn_push (fun n _ he => ?_)
        (ih (fun _ hn => h (List.mem_cons_of_mem name hn)) next states hs)
      obtain ⟨rfl, -⟩ := State.note.inj he
      exact h List.mem_cons_self

theorem Pattern.mem_groupNames_of_note {p : Pattern} {name : String} {next : StateId}
    (h : State.note name next ∈ p.automaton.states) : name ∈ p.groupNames := by
  refine p.notes_build (List.Subset.refl _) 0 #[.accept] (fun n s hn => ?_) name next h
  cases Array.mem_singleton.mp hn

end Selectors
