import Selectors.Proofs.Pattern.Race

/-!
# Where a match lies

A match starts where its thread set out and ends inside of the text, and only groups of the automaton
take part in it.

* `Notes`: a group that may take part; **`race_origin`**, **`find?_bounds`**: starts, ends and names;
* `find?_of_matchAt_eq_some`: the first match is the one at the position, if there is one;
* **`matchAt_of_find?_eq_some`**: the first match is the one at the position where it starts.
-/

namespace Selectors.Automaton

variable {a : Automaton} {position : Nat} {rest : List Char} {P : List Thread} {found : Found}

/-- The automaton notes that the group takes part. -/
def Notes (a : Automaton) (name : String) : Prop := ∃ next, State.note name next ∈ a.states

/-- The thread goes back to one of `P`: it set out at the same position, and more groups take part. -/
def ComesFrom (a : Automaton) (P : List Thread) (u : Thread) : Prop :=
  ∃ t ∈ P, u.start = t.start ∧ ∀ name ∈ u.names, name ∈ t.names ∨ a.Notes name

theorem ComesFrom.refl {t : Thread} (h : t ∈ P) : a.ComesFrom P t := ⟨t, h, rfl, fun _ hn => Or.inl hn⟩

theorem ComesFrom.trans {Q : List Thread} {u : Thread} (h : a.ComesFrom Q u)
    (hQ : ∀ t ∈ Q, a.ComesFrom P t) : a.ComesFrom P u := by
  obtain ⟨q, hq, hstart, hnames⟩ := h
  obtain ⟨t, ht, hstart', hnames'⟩ := hQ q hq
  exact ⟨t, ht, hstart.trans hstart', fun n hn => (hnames n hn).elim (hnames' n) Or.inr⟩

theorem comesFrom_goOn {atStart atEnd : Bool} {t u : Thread} {state : State}
    (hs : a.states[t.state]? = some state) (hu : u ∈ goOn atStart atEnd t state) :
    a.ComesFrom [t] u := by
  refine ⟨t, List.mem_cons_self, ?_⟩
  cases state with
  | one | accept => cases hu
  | branch nexts =>
    obtain ⟨n, -, rfl⟩ := List.mem_map.mp hu
    exact ⟨rfl, fun _ hn => Or.inl hn⟩
  | textStart next =>
    cases atStart with
    | true => rw [List.mem_singleton.mp hu]; exact ⟨rfl, fun _ hn => Or.inl hn⟩
    | false => cases hu
  | textEnd next =>
    cases atEnd with
    | true => rw [List.mem_singleton.mp hu]; exact ⟨rfl, fun _ hn => Or.inl hn⟩
    | false => cases hu
  | note name next =>
    rw [List.mem_singleton.mp hu]
    refine ⟨rfl, fun n hn => ?_⟩
    rcases List.mem_cons.mp hn with rfl | hn
    · exact Or.inr ⟨next, Array.mem_of_getElem? hs⟩
    · exact Or.inl hn

theorem Explores.comesFrom {atStart atEnd : Bool} {visited visited' : Set StateId}
    {reached : List Thread} {accepted : Option Thread}
    (h : Explores a atStart atEnd visited P reached accepted visited') :
    (∀ u ∈ reached, a.ComesFrom P u) ∧ ∀ u ∈ accepted, a.ComesFrom P u := by
  have hcons : ∀ {t : Thread} {l : List Thread} {u}, a.ComesFrom l u → a.ComesFrom (t :: l) u :=
    fun h => h.trans fun _ ht => .refl (List.mem_cons_of_mem _ ht)
  induction h with
  | done => exact ⟨fun u hu => absurd hu List.not_mem_nil, fun u hu => by cases hu⟩
  | skip _ _ ih => exact ⟨fun u hu => hcons (ih.1 u hu), fun u hu => hcons (ih.2 u hu)⟩
  | accept _ _ =>
    refine ⟨fun u hu => absurd hu List.not_mem_nil, fun u hu => ?_⟩
    obtain rfl := Option.some.inj hu
    exact .refl List.mem_cons_self
  | read _ _ _ ih =>
    refine ⟨fun u hu => ?_, fun u hu => hcons (ih.2 u hu)⟩
    rcases List.mem_cons.mp hu with rfl | hu
    · exact .refl List.mem_cons_self
    · exact hcons (ih.1 u hu)
  | @step visited visited' t pending reached accepted state _ hs _ _ ih =>
    have hback : ∀ u, a.ComesFrom (goOn atStart atEnd t state ++ pending) u →
        a.ComesFrom (t :: pending) u := by
      refine fun u hu => hu.trans fun q hq => ?_
      rcases List.mem_append.mp hq with hq | hq
      · refine (comesFrom_goOn hs hq).trans fun t' ht' => ?_
        rw [List.mem_singleton.mp ht']
        exact .refl List.mem_cons_self
      · exact .refl (List.mem_cons_of_mem t hq)
    exact ⟨fun u hu => hback u (ih.1 u hu), fun u hu => hback u (ih.2 u hu)⟩

theorem comesFrom_read {c : Char} {t u : Thread} (h : a.read? c t = some u) : a.ComesFrom [t] u := by
  unfold read? at h
  split at h
  · split at h
    · obtain rfl := Option.some.inj h
      exact ⟨t, List.mem_cons_self, rfl, fun _ hn => Or.inl hn⟩
    · cases h
  · cases h

theorem Explores.origin {atStart atEnd : Bool} {visited visited' : Set StateId}
    {reached : List Thread} {accepted : Option Thread}
    (h : Explores a atStart atEnd visited P reached accepted visited')
    (hf : accepted.map (foundAt position) = some found) :
    (∃ t ∈ P, found.start = t.start ∧ ∀ name ∈ found.names, name ∈ t.names ∨ a.Notes name) ∧
      found.stop = position := by
  obtain ⟨u, hu, rfl⟩ := Option.map_eq_some_iff.mp hf
  exact ⟨h.comesFrom.2 u hu, rfl⟩

/-- **A match starts where one of the threads set out**, and ends inside of the text. -/
theorem race_origin (h : a.race position P rest = some found) :
    (∃ t ∈ P, found.start = t.start ∧ ∀ name ∈ found.names, name ∈ t.names ∨ a.Notes name) ∧
      position ≤ found.stop ∧ found.stop ≤ position + rest.length := by
  induction rest generalizing position P with
  | nil =>
    obtain ⟨visited, hex⟩ := exists_explores a (position == 0) true P
    change (a.explore (position == 0) true P).2.map _ = _ at h
    rw [explore_eq hex] at h
    obtain ⟨hfrom, hstop⟩ := hex.origin h
    exact ⟨hfrom, Nat.le_of_eq hstop.symm, Nat.le_of_eq hstop⟩
  | cons c rest ih =>
    obtain ⟨visited, hex⟩ := exists_explores a (position == 0) false P
    rw [race_cons, explore_eq hex, Option.or_eq_some_iff] at h
    rcases h with h | ⟨-, h⟩
    · obtain ⟨⟨u, hu, hstart, hnames⟩, hle, hle'⟩ := ih h
      obtain ⟨t, ht, hu⟩ := List.mem_filterMap.mp hu
      have hfrom : a.ComesFrom P u := (comesFrom_read hu).trans fun t' ht' => by
        rw [List.mem_singleton.mp ht']; exact hex.comesFrom.1 t ht
      obtain ⟨p, hp, hstart', hnames'⟩ := hfrom
      refine ⟨⟨p, hp, hstart.trans hstart', fun n hn => (hnames n hn).elim (hnames' n) Or.inr⟩,
        Nat.le_of_succ_le hle, ?_⟩
      rw [List.length_cons]
      omega
    · obtain ⟨hfrom, hstop⟩ := hex.origin h
      rw [hstop]
      exact ⟨hfrom, Nat.le_refl _, Nat.le_add_right _ _⟩

theorem matchAt_bounds (h : a.matchAt position rest = some found) :
    found.start = position ∧ position ≤ found.stop ∧ found.stop ≤ position + rest.length ∧
      ∀ name ∈ found.names, a.Notes name := by
  obtain ⟨⟨t, ht, hstart, hnames⟩, hle, hle'⟩ := race_origin h
  rw [List.mem_singleton.mp ht] at hstart hnames
  exact ⟨hstart, hle, hle', fun n hn => (hnames n hn).resolve_left List.not_mem_nil⟩

/-- **A match found lies in the text that is left.** -/
theorem find?_bounds (h : a.find? position rest = some found) :
    position ≤ found.start ∧ found.start ≤ found.stop ∧ found.stop ≤ position + rest.length ∧
      ∀ name ∈ found.names, a.Notes name := by
  induction rest generalizing position with
  | nil =>
    rw [find?_nil] at h
    obtain ⟨hstart, hle, hle', hnames⟩ := matchAt_bounds h
    exact ⟨Nat.le_of_eq hstart.symm, hstart ▸ hle, hle', hnames⟩
  | cons c rest ih =>
    rw [find?_cons, Option.or_eq_some_iff] at h
    rcases h with h | ⟨-, h⟩
    · obtain ⟨hstart, hle, hle', hnames⟩ := matchAt_bounds h
      exact ⟨Nat.le_of_eq hstart.symm, hstart ▸ hle, hle', hnames⟩
    · obtain ⟨hle, hle', hle'', hnames⟩ := ih h
      refine ⟨Nat.le_of_succ_le hle, hle', ?_, hnames⟩
      rw [List.length_cons]
      omega

theorem find?_of_matchAt_eq_some (h : a.matchAt position rest = some found) :
    a.find? position rest = some found := by
  cases rest with
  | nil => rw [find?_nil, h]
  | cons c rest => rw [find?_cons, h, Option.some_or]

/-- **The first match is the one at the position where it starts.** -/
theorem matchAt_of_find?_eq_some (h : a.find? position rest = some found) :
    a.matchAt found.start (rest.drop (found.start - position)) = some found := by
  have hhere : ∀ {position rest}, a.matchAt position rest = some found →
      a.matchAt found.start (rest.drop (found.start - position)) = some found := by
    intro position rest h
    rwa [(matchAt_bounds h).1, Nat.sub_self]
  induction rest generalizing position with
  | nil =>
    rw [find?_nil] at h
    exact hhere h
  | cons c rest ih =>
    rw [find?_cons, Option.or_eq_some_iff] at h
    rcases h with h | ⟨-, h⟩
    · exact hhere h
    · obtain ⟨hle, -⟩ := find?_bounds h
      obtain ⟨k, hk⟩ := Nat.exists_eq_add_of_le hle
      have hnext := ih h
      rw [hk, show position + 1 + k - (position + 1) = k by omega] at hnext
      rwa [hk, show position + 1 + k - position = k + 1 by omega, List.drop_succ_cons]

end Selectors.Automaton
