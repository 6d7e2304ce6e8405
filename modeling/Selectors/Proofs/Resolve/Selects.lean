import Selectors.Proofs.Document.Loaded
import Selectors.Proofs.Resolve.Climb
import Selectors.Proofs.Tree.Order

/-!
# What a selector names

A selector without pseudo classes names the nodes below a root that satisfy its key and lie below nodes
that satisfy its other tokens, in document order; a key with an id names at most the first node with
that id.

* `exists_keep`: testing candidates one after another;
* `Token.exists_find`: the candidates of a key are the nodes below the root that satisfy it;
* `Selects`: a node is named; **`exists_resolve`**: resolving gives the nodes that are named.
-/

namespace Selectors

variable {t : Tree} {root n : NodeId}

/-! ## Candidates -/

theorem find?_toList_sublist {α : Type} (p : α → Bool) (l : List α) :
    (l.find? p).toList.Sublist l := by
  cases h : l.find? p with
  | none => exact List.nil_sublist l
  | some a => exact List.singleton_sublist.mpr (List.mem_of_find?_eq_some h)

theorem mem_find?_iff {α : Type} {R : α → α → Prop} {p : α → Bool} {l : List α} {a : α}
    (hl : l.Pairwise R) (hasymm : ∀ a b, R a b → ¬ R b a) :
    a ∈ l.find? p ↔ a ∈ l ∧ p a ∧ ∀ b ∈ l, p b → b = a ∨ R a b := by
  induction l with
  | nil => simp
  | cons x l ih =>
    obtain ⟨hx, hl⟩ := List.pairwise_cons.mp hl
    by_cases hp : p x
    · rw [List.find?_cons_of_pos hp]
      constructor
      · rintro h
        obtain rfl := Option.some.inj h
        refine ⟨List.mem_cons_self, hp, fun b hb _ => ?_⟩
        exact (List.mem_cons.mp hb).imp id (hx b)
      · rintro ⟨ha, -, hfirst⟩
        rcases List.mem_cons.mp ha with rfl | ha
        · rfl
        · rcases hfirst x List.mem_cons_self hp with rfl | h
          · rfl
          · exact absurd (hx a ha) (hasymm _ _ h)
    · rw [List.find?_cons_of_neg hp, ih hl]
      constructor
      · rintro ⟨ha, hpa, hfirst⟩
        refine ⟨List.mem_cons_of_mem x ha, hpa, fun b hb hpb => ?_⟩
        rcases List.mem_cons.mp hb with rfl | hb
        · exact absurd hpb hp
        · exact hfirst b hb hpb
      · rintro ⟨ha, hpa, hfirst⟩
        rcases List.mem_cons.mp ha with rfl | ha
        · exact absurd hpa hp
        · exact ⟨ha, hpa, fun b hb => hfirst b (List.mem_cons_of_mem x hb)⟩

/-- `n` is the first node below `root` with its id. -/
def FirstWithId (t : Tree) (root n : NodeId) (id : String) : Prop :=
  ∀ m, t.Above root m → t.id? m = some id → m = n ∨ t.Precedes n m

theorem elementById?_eq_some_iff (ht : t.WellFormed) {id : String} :
    t.elementById? root id = some n ↔
      t.Above root n ∧ t.id? n = some id ∧ FirstWithId t root n id := by
  unfold Tree.elementById?
  rw [← Option.mem_def, mem_find?_iff (ht.pairwise_descendants root) fun _ _ h => h.asymm ht,
    ht.mem_descendants]
  simp only [ht.mem_descendants, beq_iff_eq, FirstWithId]

namespace Token

/-- The token holds an id. -/
def HasId (k : Token) : Prop := k.kind = .id ∨ k.kind = .nameAndId

/-- **The candidates of a key** are nodes below the root, in document order: all that satisfy it, or for
a key with an id the first node with that id if it satisfies the key. -/
theorem exists_find (ht : t.WellFormed) {k : Token} (hk : k.kind ≠ .pseudoClass) (root : NodeId) :
    ∃ l, k.find t root = .ok l ∧ l.Sublist (t.descendants root) ∧
      ∀ n, n ∈ l ↔ t.Above root n ∧ k.Holds t n ∧
        (k.HasId → FirstWithId t root n (afterFirst '#' k.identity)) := by
  obtain ⟨identity, kind⟩ := k
  have hsub (id : String) : (t.elementById? root id).toList.Sublist (t.descendants root) :=
    find?_toList_sublist _ _
  cases kind with
  | pseudoClass => exact absurd rfl hk
  | id =>
    refine ⟨_, rfl, hsub _, fun n => ?_⟩
    rw [Option.mem_toList, elementById?_eq_some_iff ht]
    simp [HasId, Holds, accepts, RuleKind.matcher?]
  | nameAndId =>
    refine ⟨_, rfl, List.filter_sublist.trans (hsub _), fun n => ?_⟩
    rw [List.mem_filter, Option.mem_toList, elementById?_eq_some_iff ht]
    simp [HasId, Holds, accepts, RuleKind.matcher?]
    tauto
  | element =>
    refine ⟨t.elementsByTag root identity, rfl, List.filter_sublist, fun n => ?_⟩
    rw [Tree.elementsByTag, List.mem_filter, ht.mem_descendants]
    simp [HasId, Holds, accepts, RuleKind.matcher?]
  | className =>
    refine ⟨t.elementsByClass root (afterFirst '.' identity), rfl, List.filter_sublist,
      fun n => ?_⟩
    rw [Tree.elementsByClass, List.mem_filter, ht.mem_descendants]
    simp [HasId, Holds, accepts, RuleKind.matcher?]
  | nameAndClass =>
    refine ⟨(t.elementsByClass root (afterFirst '.' identity)).filter
      (t.hasTag · (beforeFirst '.' identity)), rfl,
      List.filter_sublist.trans List.filter_sublist, fun n => ?_⟩
    rw [Tree.elementsByClass, List.mem_filter, List.mem_filter, ht.mem_descendants]
    simp [HasId, Holds, accepts, RuleKind.matcher?, and_assoc]

end Token

namespace Query

theorem exists_of_bind {ε α β : Type} {x : Except ε α} {f : α → Except ε β} {b : β}
    (h : x.bind f = .ok b) : ∃ a, x = .ok a ∧ f a = .ok b := by
  cases x with
  | error e => cases h
  | ok a => exact ⟨a, rfl, h⟩

theorem exists_of_keep_cons {test : NodeId → Except ResolveError Bool} {m : NodeId}
    {l kept : List NodeId} (h : keep test (m :: l) = .ok kept) :
    ∃ b rest, test m = .ok b ∧ keep test l = .ok rest ∧
      kept = if b then m :: rest else rest := by
  rw [keep] at h
  obtain ⟨b, hb, h⟩ := exists_of_bind h
  obtain ⟨rest, hrest, h⟩ := exists_of_bind h
  exact ⟨b, rest, hb, hrest, (Except.ok.inj h).symm⟩

theorem mem_keep_iff {test : NodeId → Except ResolveError Bool} {l kept : List NodeId}
    (hkeep : keep test l = .ok kept) :
    (∀ n ∈ l, ∃ b, test n = .ok b) ∧ ∀ n, n ∈ kept ↔ n ∈ l ∧ test n = .ok true := by
  induction l generalizing kept with
  | nil =>
    obtain rfl := Except.ok.inj hkeep
    exact ⟨fun _ hn => absurd hn List.not_mem_nil, by simp⟩
  | cons m l ih =>
    obtain ⟨b, rest, hb, hrest, rfl⟩ := exists_of_keep_cons hkeep
    obtain ⟨hok, hmem⟩ := ih hrest
    refine ⟨fun n hn => ?_, fun n => ?_⟩
    · rcases List.mem_cons.mp hn with rfl | hn
      · exact ⟨b, hb⟩
      · exact hok n hn
    cases b with
    | true =>
      rw [if_pos rfl, List.mem_cons, List.mem_cons, hmem]
      constructor
      · rintro (rfl | ⟨hn, htrue⟩)
        · exact ⟨Or.inl rfl, hb⟩
        · exact ⟨Or.inr hn, htrue⟩
      · rintro ⟨rfl | hn, htrue⟩
        · exact Or.inl rfl
        · exact Or.inr ⟨hn, htrue⟩
    | false =>
      rw [if_neg Bool.false_ne_true, List.mem_cons, hmem]
      constructor
      · rintro ⟨hn, htrue⟩
        exact ⟨Or.inr hn, htrue⟩
      · rintro ⟨rfl | hn, htrue⟩
        · rw [hb] at htrue; cases htrue
        · exact ⟨hn, htrue⟩

theorem exists_keep {test : NodeId → Except ResolveError Bool} (htest : ∀ n, ∃ b, test n = .ok b)
    (l : List NodeId) :
    ∃ kept, keep test l = .ok kept ∧ kept.Sublist l ∧
      ∀ n, n ∈ kept ↔ n ∈ l ∧ test n = .ok true := by
  have hkept : ∃ kept, keep test l = .ok kept ∧ kept.Sublist l := by
    induction l with
    | nil => exact ⟨[], rfl, .refl []⟩
    | cons m l ih =>
      obtain ⟨kept, hkept, hsub⟩ := ih
      obtain ⟨b, hb⟩ := htest m
      refine ⟨if b then m :: kept else kept, by rw [keep, hb, hkept]; rfl, ?_⟩
      cases b with
      | true => exact hsub.cons_cons m
      | false => exact hsub.cons m
  obtain ⟨kept, hkept, hsub⟩ := hkept
  exact ⟨kept, hkept, hsub, (mem_keep_iff hkept).2⟩

/-! ## The named nodes -/

/-- **A node is named** by a key behind outer tokens: it lies below the root, satisfies the key, its
strict ancestors satisfy the outer tokens, and it is the first node with the id that the key holds. -/
structure Selects (t : Tree) (root : NodeId) (outer : List Token) (key : Token) (n : NodeId) :
    Prop where
  below : t.Above root n
  holds : key.Holds t n
  met : MetAbove t outer n
  first : key.HasId → FirstWithId t root n (afterFirst '#' key.identity)

theorem ofTokens_concat (outer : List Token) (key : Token) :
    ofTokens (outer ++ [key]) = ⟨outer, some key⟩ := by
  unfold ofTokens
  rw [List.dropLast_concat, List.getLast?_concat]

/-- **Resolving a selector without pseudo classes gives the nodes that it names**, in document order
and each once. -/
theorem exists_resolve (ht : t.WellFormed) (outer : List Token) (key : Token)
    (hk : ∀ k ∈ outer ++ [key], k.kind ≠ .pseudoClass) (root : NodeId) :
    ∃ l, (ofTokens (outer ++ [key])).resolve t root = .ok l ∧ l.Pairwise t.Precedes ∧ l.Nodup ∧
      (∀ n, n ∈ l ↔ Selects t root outer key n) ∧
      ∀ n ∈ l, (t.element? n).isSome ∧ t.Above root n := by
  have hkey : key.kind ≠ .pseudoClass := hk key (List.mem_append_right _ List.mem_cons_self)
  have houter : ∀ k ∈ outer, k.kind ≠ .pseudoClass := fun k h => hk k (List.mem_append_left _ h)
  obtain ⟨cs, hcs, hsub, hmem⟩ := key.exists_find ht hkey root
  let q : Query := ⟨outer, some key⟩
  let test := fun n => if q.outer = [] then key.accepts t n else q.outerMatchAbove t n
  have htest : ∀ n, ∃ b, test n = .ok b := by
    intro n
    by_cases ho : q.outer = []
    · simp only [test, if_pos ho]; exact Token.exists_accepts hkey t n
    · simp only [test, if_neg ho]; exact exists_outerMatchAbove (q := q) houter t n
  -- behind outer tokens the key is not tested again: looking it up has done that
  have hpass : ∀ n, key.Holds t n → (test n = .ok true ↔ MetAbove t outer n) := by
    intro n hn
    by_cases ho : q.outer = []
    · simp only [test, if_pos ho]
      obtain rfl : outer = [] := ho
      exact ⟨fun _ => ⟨[], .nil, .singleton n⟩, fun _ => hn⟩
    · simp only [test, if_neg ho]
      exact outerMatchAbove_eq_true_iff (q := q) houter (ht.acc n)
  obtain ⟨l, hl, hlsub, hlmem⟩ := exists_keep htest cs
  have hselects : ∀ n, n ∈ l ↔ Selects t root outer key n := by
    intro n
    rw [hlmem, hmem]
    constructor
    · rintro ⟨⟨hbelow, hholds, hfirst⟩, h⟩
      exact ⟨hbelow, hholds, (hpass n hholds).mp h, hfirst⟩
    · rintro ⟨hbelow, hholds, hmet, hfirst⟩
      exact ⟨⟨hbelow, hholds, hfirst⟩, (hpass n hholds).mpr hmet⟩
  have horder := (ht.pairwise_descendants root).sublist (hlsub.trans hsub)
  have hnodup := (ht.nodup_descendants root).sublist (hlsub.trans hsub)
  refine ⟨l, ?_, horder, hnodup, hselects, fun n hn => ?_⟩
  · rw [ofTokens_concat]
    show (key.find t root).bind (fun cs => keep test cs) = .ok l
    rw [hcs]
    exact hl
  · have hs := (hselects n).mp hn
    exact ⟨hs.holds.element, hs.below⟩

/-- The last item of a loaded list is named as an item below a list. -/
theorem selects_last_item : ∃ t, (load "[[\"ul\", \x7b\x7d, [[\"li\"], [\"li\"]]]]" .none).1 = .ok t ∧
    Selects t 0 [⟨"ul", .element⟩] ⟨"li", .element⟩ 3 := by
  let li : Content := .element ⟨"li", .empty⟩
  let t : Tree := ⟨#[⟨.document, none, [1], none, none⟩,
    ⟨.element ⟨"ul", .empty⟩, some 0, [2, 3], none, none⟩,
    ⟨li, some 1, [], none, some 3⟩, ⟨li, some 1, [], some 2, none⟩]⟩
  have hload : (load "[[\"ul\", \x7b\x7d, [[\"li\"], [\"li\"]]]]" .none).1 = .ok t := by
    decide +kernel
  obtain ⟨l, hl, -, -, hmem, -⟩ := exists_resolve (linked_load hload).toWellFormed
    [⟨"ul", .element⟩] ⟨"li", .element⟩ (by decide) 0
  have hrun : (ofTokens [⟨"ul", .element⟩, ⟨"li", .element⟩]).resolve t 0 = .ok [2, 3] := by
    decide +kernel
  obtain rfl : l = [2, 3] := Except.ok.inj (hl.symm.trans hrun)
  exact ⟨t, hload, (hmem 3).mp (by decide)⟩

end Query

end Selectors
