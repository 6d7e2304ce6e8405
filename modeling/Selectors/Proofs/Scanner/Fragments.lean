import Selectors.Proofs.Scanner.Items

/-!
# Patterns of fragments

The patterns that the rules of selectors are, and their ways. The preferred way of an identifier reads
the longest one. Any other way ends inside of it, where no mark can follow, so no rule is met by way of a
shorter identifier.

* `identParts`, `fragmentPattern`: the patterns;
* `head?_identWays`, `inside_of_mem_ways`: the ways of an identifier;
* **`head?_ways_fragment`**: what the preferred way of a fragment reads.
-/

namespace Selectors.Lexer

open Pattern

/-! ## Patterns -/

/-- The parts of an identifier. -/
def identParts : List Pattern :=
  [.rep (.one signSet) 0 (some 1) true, itemPattern startSet, .rep (itemPattern nameSet) 0 none true]

/-- The pattern of each kind of fragments. -/
def fragmentPattern : RuleKind → Pattern
  | .nameAndId => ofParts (identParts ++ .literal ['#'] :: identParts)
  | .id => ofParts (.literal ['#'] :: identParts)
  | .nameAndClass => ofParts (identParts ++ .literal ['.'] :: identParts)
  | .className => ofParts (.literal ['.'] :: identParts)
  | .element => ofParts identParts
  | .pseudoClass => ofParts (.literal [':'] :: identParts)

section

variable {position k : Nat} {cs : List Char} {c : Char}

/-! ## Identifiers -/

/-- The ways of an identifier. -/
def identWays : Ways := (ofParts identParts).ways

/-- The ways behind the sign. -/
def unsignedWays : Ways := (itemPattern startSet).ways.andThen ((itemPattern nameSet).ways.star true)

theorem identWays_eq : identWays = (Ways.prefer true (.one signSet) .stay).andThen unsignedWays := by
  show (rep (.one signSet) 0 (some 1) true).ways.andThen
    ((itemPattern startSet).ways.andThen (rep (itemPattern nameSet) 0 none true).ways) = _
  rw [ways_optional, ways_items]
  rfl

theorem head?_unsignedWays (h : Plain cs) : (unsignedWays position cs).head? =
    (item? isStart cs).map fun n => n + items (cs.drop n) := by
  rw [← head?_ways_itemPattern reads_startSet h]
  exact Ways.head?_andThen fun k _ => (star_items (h.drop k) _).1

theorem item?_of_isSign (hc : isSign c = true) : item? isStart (c :: cs) = none := by
  have hstart : ¬ isStart c = true := by
    rw [isSign_iff] at hc
    rw [isStart_iff]
    omega
  have hne : c ≠ '\\' := by
    rintro rfl
    exact absurd hc (by decide)
  rw [item?, if_neg hstart, escape?_of_ne hne]

/-- **The preferred way of an identifier reads the longest one.** -/
theorem head?_identWays (h : Plain cs) : (identWays position cs).head? = ident? cs := by
  have hsigns : Ways.prefer true (.one signSet) .stay position cs =
      if cs.head?.any isSign then [1, 0] else [0] := by
    cases cs with
    | nil => rfl
    | cons c cs =>
      show Ways.one signSet position (c :: cs) ++ [0] = _
      rw [Ways.one_cons, contains_signSet]
      show _ = if isSign c = true then _ else _
      split <;> rfl
  have hread : ∀ n, (unsignedWays (position + n) (cs.drop n)).head?.map (n + ·) =
      (item? isStart (cs.drop n)).map fun m => n + m + items (cs.drop (n + m)) := by
    intro n
    rw [head?_unsignedWays (h.drop n), Option.map_map]
    congr 1
    funext m
    simp only [Function.comp_apply, List.drop_drop, Nat.add_assoc]
  rw [identWays_eq]
  unfold ident? sign
  by_cases hs : cs.head?.any isSign = true
  · rw [if_pos hs] at hsigns ⊢
    rw [Ways.head?_andThen_of_first (n := 1) (by rw [hsigns]; rfl), hread]
    intro k hk hne
    have hk : k = 0 := by
      rw [hsigns] at hk
      rcases List.mem_cons.mp hk with hk | hk
      · exact absurd hk hne
      · exact List.mem_singleton.mp hk
    rw [hk, ← List.head?_eq_none_iff, head?_unsignedWays (h.drop 0)]
    cases cs with
    | nil => cases hs
    | cons c cs => rw [List.drop_zero, item?_of_isSign hs, Option.map_none]
  · rw [if_neg hs] at hsigns ⊢
    rw [Ways.head?_andThen_of_first (n := 0) (by rw [hsigns]; rfl), hread]
    intro k hk hne
    rw [hsigns] at hk
    exact absurd (List.mem_singleton.mp hk) hne

theorem isIdent_of_mem_ways (h : Plain cs) (hk : k ∈ identWays position cs) :
    k ≤ cs.length ∧ IsIdent (cs.take k) := by
  have hbounded : identWays.Bounded _ := ((ofParts identParts).runs_build rfl).bounded
  refine ⟨(hbounded position cs k hk).1, ?_⟩
  have hunsigned : ∀ {position i cs}, Plain cs → i ∈ unsignedWays position cs →
      ∃ w t, cs.take i = w ++ t ∧ IsItem isStart w ∧ AreItems t := by
    intro position i cs h hi
    obtain ⟨m, hm, hi⟩ := List.mem_flatMap.mp hi
    obtain ⟨j, hj, rfl⟩ := List.mem_map.mp hi
    exact ⟨_, _, List.take_add, isItem_of_mem_ways reads_startSet h hm,
      (star_items (h.drop m) _).2 j hj⟩
  rw [identWays_eq] at hk
  obtain ⟨s, hs, hk⟩ := List.mem_flatMap.mp hk
  obtain ⟨i, hi, rfl⟩ := List.mem_map.mp hk
  obtain ⟨w, t, heq, hw, ht⟩ := hunsigned (h.drop s) hi
  rw [List.take_add, heq]
  rcases List.mem_append.mp hs with hs | hs
  · cases cs with
    | nil => cases hs
    | cons c cs =>
      rw [Ways.one_cons, contains_signSet] at hs
      split at hs
      · rename_i hc
        rw [List.mem_singleton.mp hs, List.take_succ_cons, List.take_zero, List.singleton_append]
        exact .signed hc hw ht
      · cases hs
  · rw [List.mem_singleton.mp hs, List.take_zero, List.nil_append]
    exact .unsigned hw ht

theorem inside_of_mem_ways (h : Plain cs) (hk : k ∈ identWays position cs) :
    ∃ n, ident? cs = some n ∧ (k = n ∨ k < n ∧ Inside (cs.drop k)) := by
  obtain ⟨hle, hident⟩ := isIdent_of_mem_ways h hk
  obtain ⟨n, hn, hends⟩ := hident.ends (cs.drop k)
  rw [List.take_append_drop] at hn
  rw [List.length_take, Nat.min_eq_left hle] at hends
  exact ⟨n, hn, hends⟩

/-! ## Fragments -/

/-- A mark cannot be read inside of an identifier. -/
def IsMark (mark : Char) : Prop := isName mark = false ∧ mark ≠ '\\' ∧ mark ≠ ' '

instance (mark : Char) : Decidable (IsMark mark) := inferInstanceAs (Decidable (_ ∧ _ ∧ _))

variable {mark : Char}

theorem not_inside_mark (hmark : IsMark mark) (t : List Char) : ¬ Inside (mark :: t) := by
  rintro ⟨c, hc, hinside⟩
  obtain rfl := Option.some.inj hc
  obtain ⟨hname, hslash, hspace⟩ := hmark
  rcases hinside with h | h | h
  · exact Bool.false_ne_true (hname.symm.trans h)
  · exact hslash h
  · exact hspace h

def markedWays (mark : Char) : Ways := (Ways.literal [mark]).andThen identWays

theorem head?_markedWays (h : Plain cs) :
    (markedWays mark position cs).head? = marked? mark cs := by
  unfold markedWays
  cases cs with
  | nil => rfl
  | cons c cs =>
    rw [Ways.literal_andThen_cons, marked?]
    split
    · rw [List.head?_map, head?_identWays h.tail]
    · rfl

theorem markedWays_of_inside (hmark : IsMark mark) (h : Inside cs) :
    markedWays mark position cs = [] := by
  cases cs with
  | nil => rfl
  | cons d cs =>
    unfold markedWays
    rw [Ways.literal_andThen_cons, if_neg]
    rintro rfl
    exact not_inside_mark hmark cs h

/-- **Behind a shorter identifier there is no mark.** -/
theorem head?_pairWays (hmark : IsMark mark) (h : Plain cs) :
    (identWays.andThen (markedWays mark) position cs).head? = pair? mark cs := by
  unfold pair?
  have hhead : (identWays position cs).head? = ident? cs := head?_identWays h
  cases hi : ident? cs with
  | none =>
    rw [hi, List.head?_eq_none_iff] at hhead
    unfold Ways.andThen
    rw [hhead]
    rfl
  | some n =>
    rw [hi] at hhead
    rw [Ways.head?_andThen_of_first hhead, head?_markedWays (h.drop n)]
    · rfl
    · intro k hk hne
      obtain ⟨m, hm, hends⟩ := inside_of_mem_ways h hk
      obtain rfl := Option.some.inj (hi.symm.trans hm)
      exact markedWays_of_inside hmark (hends.resolve_left hne).2

theorem ways_pair (mark : Char) : (ofParts (identParts ++ .literal [mark] :: identParts)).ways =
    identWays.andThen (markedWays mark) := by
  unfold markedWays identWays
  show Ways.andThen _ (Ways.andThen _ (Ways.andThen _ _)) = Ways.andThen (Ways.andThen _ (Ways.andThen _ _)) _
  rw [Ways.andThen_assoc, Ways.andThen_assoc]
  rfl

/-- **The preferred way of a fragment reads as much as the lexer does.** -/
theorem head?_ways_fragment (kind : RuleKind) (h : Plain cs) :
    ((fragmentPattern kind).ways position cs).head? = length? kind cs := by
  cases kind with
  | nameAndId =>
    show ((ofParts (identParts ++ .literal ['#'] :: identParts)).ways position cs).head? = pair? '#' cs
    rw [ways_pair]
    exact head?_pairWays (by decide) h
  | nameAndClass =>
    show ((ofParts (identParts ++ .literal ['.'] :: identParts)).ways position cs).head? = pair? '.' cs
    rw [ways_pair]
    exact head?_pairWays (by decide) h
  | id | className | pseudoClass => exact head?_markedWays h
  | element => exact head?_identWays h

theorem matchAt_fragment (kind : RuleKind) (h : Plain cs) :
    (fragmentPattern kind).automaton.matchAt position cs =
      (length? kind cs).map fun n => ⟨position, position + n, []⟩ := by
  have hsteady : (fragmentPattern kind).isSteady = true := by cases kind <;> rfl
  rw [matchAt_eq hsteady, head?_ways_fragment kind h]

end

end Selectors.Lexer
