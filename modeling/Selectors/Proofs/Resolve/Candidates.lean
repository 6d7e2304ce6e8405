import Selectors.Proofs.Resolve.Agreement
import Selectors.Proofs.Tree.Walks

/-!
# Looking up and testing

A finder goes through the nodes below a root, and a matcher looks at one node. The two tables divide the text of a
token alike, whatever the text is, so a finder gives the nodes that pass the test of the matcher: all of them, or for a
token with an id the first node with that id if it passes. A candidate that was looked up need not be tested again.

Nothing is asked of the tree but that the walk down from the root ends.

* `Token.find_of_id`, `Token.find_of_nameAndId`, `Token.find_eq_filter_of_not_hasId`: finders by matchers;
* **`Token.holds_of_mem_find`**, **`Query.resolve_eq_keep_accepts`**: candidates pass the test;
* **`Token.find_of_yields`**: the candidates, by the walk from the root.
-/

namespace Selectors

open Selectors.Tree

variable {t : Tree} {root n : NodeId} {l ns : List NodeId}

namespace Token

variable {k : Token}

/-! ## Finders by matchers -/

theorem find_of_id (hk : k.kind = .id) :
    k.find t root = .ok ((t.descendants root).find? fun n => k.accepts t n = .ok true).toList := by
  obtain ⟨identity, kind⟩ := k
  obtain rfl : kind = .id := hk
  simp [find, RuleKind.finder?, accepts, RuleKind.matcher?, elementById?, beq_eq_decide]

theorem find_of_nameAndId (hk : k.kind = .nameAndId) :
    k.find t root = .ok (((t.descendants root).find?
      fun n => t.id? n == some (afterFirst '#' k.identity)).toList.filter
        fun n => k.accepts t n = .ok true) := by
  obtain ⟨identity, kind⟩ := k
  obtain rfl : kind = .nameAndId := hk
  refine congrArg Except.ok (List.filter_congr fun n hn => ?_)
  have hfound : (t.descendants root).find? (fun m => t.id? m == some (afterFirst '#' identity)) = some n :=
    Option.mem_toList.mp hn
  have hid := List.find?_some hfound
  simp only [beq_iff_eq] at hid
  simp [accepts, RuleKind.matcher?, hid]

/-- **A token without an id** names the nodes that pass its test. -/
theorem find_eq_filter_of_not_hasId (hk : k.kind ≠ .pseudoClass) (hid : ¬ k.HasId) :
    k.find t root = .ok ((t.descendants root).filter fun n => k.accepts t n = .ok true) := by
  obtain ⟨identity, kind⟩ := k
  cases kind with
  | pseudoClass => exact absurd rfl hk
  | id => exact absurd (Or.inl rfl) hid
  | nameAndId => exact absurd (Or.inr rfl) hid
  | element => simp [find, RuleKind.finder?, accepts, RuleKind.matcher?, elementsByTag]
  | className => simp [find, RuleKind.finder?, accepts, RuleKind.matcher?, elementsByClass]
  | nameAndClass =>
    simp [find, RuleKind.finder?, accepts, RuleKind.matcher?, elementsByClass, List.filter_filter,
      Bool.and_comm]

/-- **Every candidate passes the test.** -/
theorem holds_of_mem_find (h : k.find t root = .ok ns) (hn : n ∈ ns) : k.Holds t n := by
  show k.accepts t n = .ok true
  by_cases hid : k.HasId
  · rcases hid with hk | hk
    · rw [find_of_id hk] at h
      obtain rfl := Except.ok.inj h
      have hpass := List.find?_some (Option.mem_toList.mp hn)
      exact of_decide_eq_true hpass
    · rw [find_of_nameAndId hk] at h
      obtain rfl := Except.ok.inj h
      exact of_decide_eq_true (List.mem_filter.mp hn).2
  · rw [find_eq_filter_of_not_hasId (kind_ne_of_find h) hid] at h
    obtain rfl := Except.ok.inj h
    exact of_decide_eq_true (List.mem_filter.mp hn).2

end Token

/-! ## Resolving -/

namespace Query

variable {q : Query} {key : Token}

theorem keep_congr {test test' : NodeId → Except ResolveError Bool} (h : ∀ n ∈ l, test n = test' n) :
    keep test l = keep test' l := by
  induction l with
  | nil => rfl
  | cons n l ih =>
    rw [keep, keep, h n List.mem_cons_self, ih fun m hm => h m (List.mem_cons_of_mem n hm)]

/-- **Resolving keeps the candidates that the whole query accepts**, although it does not test the key again. -/
theorem resolve_eq_keep_accepts (hkey : q.key = some key) (t : Tree) (root : NodeId) :
    q.resolve t root = (key.find t root).bind (keep (q.accepts t)) := by
  unfold resolve
  rw [hkey]
  show (key.find t root).bind _ = _
  cases hfind : key.find t root with
  | error e => rfl
  | ok cs =>
    refine keep_congr fun n hn => ?_
    have hholds : key.accepts t n = .ok true := Token.holds_of_mem_find hfind hn
    rw [test_eq hholds, accepts_of_key hkey hholds, if_pos rfl]

end Query

/-! ## The walk from the root -/

/-- **Finders and matchers agree**, for every text of a token and wherever the walk down from the root ends. A token
with a tag or a class and without an id names the nodes of the walk that pass its test; an id, the first node that
passes it; a tag with an id, the first node with that id if it passes. So all candidates pass the test, and resolving
keeps those that the whole query accepts. There is a finder for a kind exactly if there is a matcher. -/
theorem Token.find_of_yields (hl : Yields t.nextDescendant? (t.children root).reverse l) (k : Token) :
    (k.kind = .element ∨ k.kind = .className ∨ k.kind = .nameAndClass →
      k.find t root = .ok (l.filter fun n => k.accepts t n = .ok true)) ∧
    (k.kind = .id → k.find t root = .ok (l.find? fun n => k.accepts t n = .ok true).toList) ∧
    (k.kind = .nameAndId → k.find t root = .ok ((l.find?
      fun n => t.id? n == some (afterFirst '#' k.identity)).toList.filter fun n => k.accepts t n = .ok true)) ∧
    (∀ ns, k.find t root = .ok ns → ∀ n ∈ ns, k.accepts t n = .ok true) ∧
    (∀ q : Query, q.key = some k → q.resolve t root = (k.find t root).bind (Query.keep (q.accepts t))) ∧
    ∀ kind : RuleKind, kind.finder?.isSome = kind.matcher?.isSome := by
  obtain rfl := hl.eq_descendants
  refine ⟨fun hk => ?_, fun hk => find_of_id hk, fun hk => find_of_nameAndId hk,
    fun ns hns n hn => holds_of_mem_find hns hn, fun q hkey => q.resolve_eq_keep_accepts hkey t root, fun kind => ?_⟩
  · apply find_eq_filter_of_not_hasId
    · rcases hk with hk | hk | hk <;> rw [hk] <;> decide
    · unfold HasId
      rcases hk with hk | hk | hk <;> rw [hk] <;> decide
  · cases kind <;> rfl

/-- A paragraph that was appended to a division and to the document is visited twice; its class holds a point. -/
theorem Token.find_shared_child : ∃ t : Tree,
    Yields t.nextDescendant? (t.children 0).reverse [1, 2, 2] ∧
    Token.find ⟨"P.a.b", .nameAndClass⟩ t 0 = .ok [2, 2] ∧
    (Query.ofTokens [⟨"div", .element⟩, ⟨"P.a.b", .nameAndClass⟩]).resolve t 0 =
      (Token.find ⟨"P.a.b", .nameAndClass⟩ t 0).bind
        (Query.keep ((Query.ofTokens [⟨"div", .element⟩, ⟨"P.a.b", .nameAndClass⟩]).accepts t)) := by
  let t : Tree := ⟨#[⟨.document, none, [1, 2], none, none⟩,
    ⟨.element (.ofTag "div"), some 0, [2], none, some 2⟩,
    ⟨.element ((Element.ofTag "p").setAttr "class" "a.b"), some 0, [], some 1, none⟩]⟩
  have hwalk : Yields t.nextDescendant? (t.children 0).reverse [1, 2, 2] :=
    .next rfl (.next rfl (.next rfl (.done rfl)))
  obtain ⟨hall, -, -, -, hresolve, -⟩ := find_of_yields hwalk ⟨"P.a.b", .nameAndClass⟩
  have hpass : ([1, 2, 2].filter fun n => Token.accepts ⟨"P.a.b", .nameAndClass⟩ t n = .ok true) = [2, 2] := by
    decide +kernel
  refine ⟨t, hwalk, ?_, hresolve _ rfl⟩
  rw [hall (Or.inr (Or.inr rfl)), hpass]

end Selectors
