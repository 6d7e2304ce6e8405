import Selectors.Proofs.Pattern.Explore

/-!
# Races of threads

Threads that set out together from one position race for a match. Whether a thread finds one does not
depend on the others, and the first thread that finds one decides which match it is. So the search for
the first match is a search at one position after the other.

* `race`: the match that some threads come to, when no threads join them;
* **`race_eq_none_iff`**: there is one exactly if some way leads from a thread to the end of a match;
* **`race_append`**: it is the match of the first threads, or else of the others;
* `matchAt`, **`find?_cons`**: the match that starts at a position, and the first match.
-/

namespace Selectors.Automaton

variable {a : Automaton} {position : Nat} {rest : List Char} {P Q : List Thread}

/-- The match of an accepted thread. -/
def foundAt (position : Nat) (t : Thread) : Found := ⟨t.start, position, t.names⟩

/-- The threads followed from scratch. -/
def explore (a : Automaton) (atStart atEnd : Bool) (pending : List Thread) :
    List Thread × Option Thread :=
  a.follow atStart atEnd (.clear a.states.size) [] pending

/-- **The match that the threads come to.** -/
def race (a : Automaton) (position : Nat) (pending : List Thread) : List Char → Option Found
  | [] => (a.explore (position == 0) true pending).2.map (foundAt position)
  | c :: rest =>
    let (threads, accepted) := a.explore (position == 0) false pending
    (a.race (position + 1) (threads.filterMap (a.read? c)) rest).or
      (accepted.map (foundAt position))

theorem race_cons (position : Nat) (P : List Thread) (c : Char) (rest : List Char) :
    a.race position P (c :: rest) =
      (a.race (position + 1) ((a.explore (position == 0) false P).1.filterMap (a.read? c)) rest).or
        ((a.explore (position == 0) false P).2.map (foundAt position)) := rfl

theorem explore_eq {atStart atEnd : Bool} {reached : List Thread} {accepted : Option Thread}
    {visited : Set StateId} (h : Explores a atStart atEnd ∅ P reached accepted visited) :
    a.explore atStart atEnd P = (reached, accepted) := by
  obtain ⟨visited', hex⟩ := exists_explores a atStart atEnd P
  obtain ⟨hr, ha, -⟩ := hex.unique h
  exact Prod.ext hr ha

/-! ## Reading -/

theorem Explores.reading {atStart atEnd : Bool} {reached : List Thread} {accepted : Option Thread}
    {visited visited' : Set StateId}
    (h : Explores a atStart atEnd visited P reached accepted visited') :
    ∀ t ∈ reached, ∃ set next, a.states[t.state]? = some (.one set next) := by
  induction h with
  | done | accept => exact fun t ht => absurd ht List.not_mem_nil
  | skip _ _ ih | step _ _ _ _ ih => exact ih
  | read _ hs _ ih =>
    intro t ht
    rcases List.mem_cons.mp ht with rfl | ht
    · exact ⟨_, _, hs⟩
    · exact ih t ht

theorem not_accepts_nil_of_one {s next : StateId} {set : CharSet}
    (h : a.states[s]? = some (.one set next)) : ¬ a.Accepts position [] s := by
  intro hacc
  cases hacc with
  | accept h' => rw [h] at h'; cases h'
  | step h' hn _ => rw [h] at h'; cases h'; cases hn

theorem read?_of_one {c : Char} {t : Thread} {set : CharSet} {next : StateId}
    (h : a.states[t.state]? = some (.one set next)) :
    a.read? c t = if set.contains c then some { t with state := next } else none := by
  unfold read?
  rw [h]

theorem accepts_cons_iff {c : Char} {t : Thread} {set : CharSet} {next : StateId}
    (h : a.states[t.state]? = some (.one set next)) : a.Accepts position (c :: rest) t.state ↔
      ∃ u, a.read? c t = some u ∧ a.Accepts (position + 1) rest u.state := by
  rw [read?_of_one h]
  constructor
  · intro hacc
    cases hacc with
    | accept h' => rw [h] at h'; cases h'
    | step h' hn _ => rw [h] at h'; cases h'; cases hn
    | read h' hc hacc =>
      rw [h] at h'
      cases h'
      exact ⟨_, if_pos hc, hacc⟩
  · rintro ⟨u, hu, hacc⟩
    by_cases hc : set.contains c = true
    · obtain rfl := Option.some.inj ((if_pos hc).symm.trans hu)
      exact .read h hc hacc
    · rw [if_neg hc] at hu; cases hu

/-! ## Which threads find a match -/

/-- **The race has no winner exactly if no thread leads to a match.** -/
theorem race_eq_none_iff :
    a.race position P rest = none ↔ ∀ t ∈ P, ¬ a.Accepts position rest t.state := by
  induction rest generalizing position P with
  | nil =>
    obtain ⟨visited, hex⟩ := exists_explores a (position == 0) true P
    change (a.explore (position == 0) true P).2.map _ = none ↔ _
    rw [explore_eq hex, Option.map_eq_none_iff]
    constructor
    · intro hnone
      rw [hnone] at hex
      refine (hex.dead [] fun t ht => ?_).2
      obtain ⟨set, next, hs⟩ := hex.reading t ht
      exact not_accepts_nil_of_one hs
    · intro hdead
      by_contra hne
      obtain ⟨t, ht, hacc⟩ := (hex.exists_pending []).2 hne
      exact hdead t ht hacc
  | cons c rest ih =>
    obtain ⟨visited, hex⟩ := exists_explores a (position == 0) false P
    rw [race_cons, explore_eq hex, Option.or_eq_none_iff, Option.map_eq_none_iff, ih]
    constructor
    · rintro ⟨hread, hnone⟩
      rw [hnone] at hex
      refine (hex.dead (c :: rest) fun t ht hacc => ?_).2
      obtain ⟨set, next, hs⟩ := hex.reading t ht
      obtain ⟨u, hu, hacc⟩ := (accepts_cons_iff hs).mp hacc
      exact hread u (List.mem_filterMap.mpr ⟨t, ht, hu⟩) hacc
    · intro hdead
      constructor
      · intro u hu hacc
        obtain ⟨t, ht, hu⟩ := List.mem_filterMap.mp hu
        obtain ⟨set, next, hs⟩ := hex.reading t ht
        obtain ⟨p, hp, hacc⟩ := (hex.exists_pending (c :: rest)).1 t ht
          ((accepts_cons_iff hs).mpr ⟨u, hu, hacc⟩)
        exact hdead p hp hacc
      · by_contra hne
        obtain ⟨t, ht, hacc⟩ := (hex.exists_pending (c :: rest)).2 hne
        exact hdead t ht hacc

@[simp] theorem race_nil : a.race position [] rest = none :=
  race_eq_none_iff.mpr fun _ ht => absurd ht List.not_mem_nil

/-! ## One behind the other -/

theorem Explores.fresh (rest : List Char) {first reached reached' : List Thread} {accepted accepted' : Option Thread}
    {middle visited visited' : Set StateId}
    (hP : Explores a (position == 0) rest.isEmpty ∅ P first none middle)
    (hdead : ∀ t ∈ first, ¬ a.Accepts position rest t.state)
    (h : Explores a (position == 0) rest.isEmpty middle Q reached accepted visited)
    (h' : Explores a (position == 0) rest.isEmpty ∅ Q reached' accepted' visited') :
    accepted = accepted' ∧ a.alive position rest reached = a.alive position rest reached' := by
  have hmiddle : middle ∪ a.deadStates position rest = ∅ ∪ a.deadStates position rest := by
    rw [Set.empty_union]
    exact Set.union_eq_self_of_subset_left (hP.dead rest hdead).1
  have hq := h.prune rest
  rw [hmiddle] at hq
  obtain ⟨hr, ha, -⟩ := hq.unique (h'.prune rest)
  exact ⟨ha, hr⟩

/-- **The first threads win**, or else the others do as they would alone. -/
theorem race_append : a.race position (P ++ Q) rest =
    (a.race position P rest).or (a.race position Q rest) := by
  induction rest generalizing position P Q with
  | nil =>
    obtain ⟨visited, hex⟩ := exists_explores a (position == 0) true (P ++ Q)
    obtain ⟨visited', hexQ⟩ := exists_explores a (position == 0) true Q
    change (a.explore (position == 0) true (P ++ Q)).2.map _ =
      ((a.explore (position == 0) true P).2.map _).or ((a.explore (position == 0) true Q).2.map _)
    rw [explore_eq hex]
    rcases hex.append with ⟨t, ht, hexP⟩ | ⟨first, second, middle, -, hexP, hexQ'⟩
    · rw [explore_eq hexP, ht]; rfl
    · have hdead : ∀ t ∈ first, ¬ a.Accepts position [] t.state := fun t ht => by
        obtain ⟨set, next, hs⟩ := hexP.reading t ht
        exact not_accepts_nil_of_one hs
      rw [explore_eq hexP, explore_eq hexQ, (hexP.fresh [] hdead hexQ' hexQ).1]
      rfl
  | cons c rest ih =>
    obtain ⟨visited, hex⟩ := exists_explores a (position == 0) false (P ++ Q)
    obtain ⟨visited', hexQ⟩ := exists_explores a (position == 0) false Q
    rw [race_cons, race_cons, race_cons, explore_eq hex, explore_eq hexQ]
    -- threads that lead to no match make no difference behind the character
    have halive : ∀ l : List Thread,
        (∀ t ∈ l, ∃ set next, a.states[t.state]? = some (.one set next)) →
        a.race (position + 1) (l.filterMap (a.read? c)) rest =
          a.race (position + 1) ((a.alive position (c :: rest) l).filterMap (a.read? c)) rest := by
      intro l hl
      induction l with
      | nil => rfl
      | cons t l ihl =>
        have hcons : ∀ m : List Thread, a.race (position + 1) ((t :: m).filterMap (a.read? c)) rest =
            (a.race (position + 1) (a.read? c t).toList rest).or
              (a.race (position + 1) (m.filterMap (a.read? c)) rest) := by
          intro m
          rw [← ih, List.filterMap_cons]
          cases a.read? c t <;> rfl
        have hl' := ihl fun u hu => hl u (List.mem_cons_of_mem t hu)
        by_cases ht : a.Accepts position (c :: rest) t.state
        · rw [alive_cons_of_accepts ht, hcons, hcons, hl']
        · rw [alive_cons_of_dead ht, hcons, ← hl']
          have hnone : a.race (position + 1) (a.read? c t).toList rest = none := by
            obtain ⟨set, next, hs⟩ := hl t List.mem_cons_self
            refine race_eq_none_iff.mpr fun u hu hacc => ht ?_
            exact (accepts_cons_iff hs).mpr ⟨u, Option.mem_toList.mp hu, hacc⟩
          rw [hnone, Option.none_or]
    rcases hex.append with ⟨t, ht, hexP⟩ | ⟨first, second, middle, hr, hexP, hexQ'⟩
    · rw [explore_eq hexP, ht, Option.map_some, Option.or_assoc, Option.some_or]
    · rw [explore_eq hexP, hr, List.filterMap_append, ih]
      cases hfirst : a.race (position + 1) (first.filterMap (a.read? c)) rest with
      | some found => rfl
      | none =>
        have hdead : ∀ t ∈ first, ¬ a.Accepts position (c :: rest) t.state := by
          intro t ht hacc
          obtain ⟨set, next, hs⟩ := hexP.reading t ht
          obtain ⟨u, hu, hacc⟩ := (accepts_cons_iff hs).mp hacc
          exact race_eq_none_iff.mp hfirst u (List.mem_filterMap.mpr ⟨t, ht, hu⟩) hacc
        obtain ⟨hacc, hreached⟩ := hexP.fresh (c :: rest) hdead hexQ' hexQ
        rw [halive _ hexQ'.reading, halive _ hexQ.reading, hreached, hacc]
        rfl

theorem race_cons_thread (t : Thread) : a.race position (t :: P) rest =
    (a.race position [t] rest).or (a.race position P rest) := race_append (P := [t])

theorem race_map {α : Type} (f : α → Thread) (l : List α) : a.race position (l.map f) rest =
    l.findSome? fun x => a.race position [f x] rest := by
  induction l with
  | nil => exact race_nil
  | cons x l ih =>
    rw [List.map_cons, race_cons_thread, ih, List.findSome?_cons]
    cases a.race position [f x] rest <;> rfl

/-! ## The search for a match -/

/-- The match that starts at a position. -/
def matchAt (a : Automaton) (position : Nat) (rest : List Char) : Option Found :=
  a.race position [⟨a.start, position, []⟩] rest

theorem arrive_eq (atEnd : Bool) (best : Option Found) : a.arrive position atEnd P best =
    ((a.explore (position == 0) atEnd
        (if best.isNone then P ++ [⟨a.start, position, []⟩] else P)).1,
      ((a.explore (position == 0) atEnd
        (if best.isNone then P ++ [⟨a.start, position, []⟩] else P)).2.map (foundAt position)).or
        best) := rfl

theorem search_some (found : Found) : a.search position P (some found) rest =
    (a.race position P rest).or (some found) := by
  induction rest generalizing position P found with
  | nil => rw [search, arrive_eq]; rfl
  | cons c rest ih =>
    rw [search, arrive_eq, race_cons]
    simp only [Option.isNone_some, Bool.false_eq_true, if_false]
    generalize a.explore (position == 0) false P = e
    obtain ⟨threads, accepted⟩ := e
    have hbest : ∃ b, (accepted.map (foundAt position)).or (some found) = some b := by
      cases accepted <;> exact ⟨_, rfl⟩
    obtain ⟨b, hb⟩ := hbest
    rw [Option.or_assoc, hb]
    cases threads with
    | nil => simp
    | cons t threads =>
      rw [← ih]
      rfl

theorem search_none : a.search position P none rest =
    (a.race position (P ++ [⟨a.start, position, []⟩]) rest).or
      (match rest with
      | [] => none
      | _ :: rest => a.find? (position + 1) rest) := by
  induction rest generalizing position P with
  | nil => rw [search, arrive_eq]; rfl
  | cons c rest ih =>
    rw [search, arrive_eq, race_cons]
    simp only [Option.isNone_none, if_true, Option.or_none]
    generalize a.explore (position == 0) false (P ++ [⟨a.start, position, []⟩]) = e
    obtain ⟨threads, accepted⟩ := e
    cases accepted with
    | some t =>
      have hsearch : a.search (position + 1) (threads.filterMap (a.read? c))
          (some (foundAt position t)) rest = _ := search_some _
      rw [Option.map_some, ← hsearch]
      cases threads with
      | nil => simp [search_some]
      | cons u threads => simp [search_some]
    | none =>
      rw [Option.map_none, Option.or_none, Option.isSome_none, Bool.and_false]
      unfold find?
      rw [if_neg Bool.false_ne_true, ih, ih, race_append, List.nil_append, Option.or_assoc]

/-- **The first match starts at the position, or else it is the first one behind it.** -/
theorem find?_cons (position : Nat) (c : Char) (rest : List Char) :
    a.find? position (c :: rest) =
      (a.matchAt position (c :: rest)).or (a.find? (position + 1) rest) := search_none

theorem find?_nil (position : Nat) : a.find? position [] = a.matchAt position [] := by
  unfold find? matchAt
  rw [search_none, Option.or_none, List.nil_append]

end Selectors.Automaton
