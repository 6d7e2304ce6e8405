import Selectors.Proofs.Resolve.Selects
import Selectors.Proofs.Scanner.Lexed

/-!
# Selecting and testing

A selector is resolved downwards from a root and tested upwards from a node. If resolving succeeds, and no
two nodes below the root have one id, then testing succeeds too, at the root and below it, and holds for
the nodes that resolving gives. So the nearest node that passes the test is the nearest of these, as long
as there is one up to the root.

* `Token.mem_find_iff`: looking up and testing a key;
* **`Query.accepts_of_resolve`**: testing a node that lies at or below the root;
* **`Query.firstAccepted_of_resolve`**: the nearest node that passes the test;
* **`Tree.isSelected_of_select`**: the same for the text of a selector.
-/

namespace Selectors

variable {t : Tree} {root n : NodeId}

/-- No two nodes below the root have the same id. -/
def Tree.DistinctIds (t : Tree) (root : NodeId) : Prop :=
  ∀ m n id, t.Above root m → t.Above root n → t.id? m = some id → t.id? n = some id → m = n

theorem Tree.WellFormed.distinctIds_iff (ht : t.WellFormed) :
    t.DistinctIds root ↔ ((t.descendants root).filterMap t.id?).Nodup := by
  rw [List.Nodup, List.pairwise_filterMap]
  constructor
  · intro h
    refine (ht.nodup_descendants root).imp_of_mem fun hm hn hne id hid id' hid' heq => hne ?_
    exact h _ _ id (ht.mem_descendants.mp hm) (ht.mem_descendants.mp hn) hid (heq ▸ hid')
  · intro h m n id hm hn hidm hidn
    by_contra hne
    have hsymm : Std.Symm fun a b => ∀ id, t.id? a = some id → ∀ id', t.id? b = some id' → id ≠ id' :=
      ⟨fun a b hab id hid id' hid' => (hab id' hid' id hid).symm⟩
    exact h.forall (ht.mem_descendants.mpr hm) (ht.mem_descendants.mpr hn) hne id hidm id hidn rfl

/-! ## Keys -/

namespace Token

theorem kind_ne_of_find {k : Token} {l : List NodeId} (h : k.find t root = .ok l) :
    k.kind ≠ .pseudoClass := by
  intro hk
  unfold find at h
  rw [hk] at h
  cases h

theorem Holds.id? {k : Token} (h : k.Holds t n) (hid : k.HasId) :
    t.id? n = some (afterFirst '#' k.identity) := by
  obtain ⟨identity, kind⟩ := k
  rcases hid with rfl | rfl <;> simp [Holds, accepts, RuleKind.matcher?] at h
  · exact h
  · exact h.1

/-- **Looking up and testing agree** where ids are distinct. -/
theorem mem_find_iff (ht : t.WellFormed) (hids : t.DistinctIds root) {k : Token} {l : List NodeId}
    (h : k.find t root = .ok l) : n ∈ l ↔ t.Above root n ∧ k.Holds t n := by
  obtain ⟨l', hl', -, hmem⟩ := k.exists_find ht (kind_ne_of_find h) root
  obtain rfl := Except.ok.inj (h.symm.trans hl')
  rw [hmem]
  constructor
  · rintro ⟨hn, hholds, -⟩
    exact ⟨hn, hholds⟩
  · rintro ⟨hn, hholds⟩
    exact ⟨hn, hholds, fun hid m hm hidm => Or.inl (hids m n _ hm hn hidm (hholds.id? hid))⟩

end Token

/-! ## Queries -/

namespace Query

open Selectors.Tree

variable {q : Query} {ns : List NodeId}

theorem eq_nil_of_resolve (hkey : q.key = none) (h : q.resolve t root = .ok ns) : ns = [] := by
  unfold resolve at h
  rw [hkey] at h
  exact (Except.ok.inj h).symm

theorem exists_find_of_resolve {key : Token} (hkey : q.key = some key) (h : q.resolve t root = .ok ns) :
    ∃ cs, key.find t root = .ok cs ∧
      keep (fun n => if q.outer = [] then key.accepts t n else q.outerMatchAbove t n) cs = .ok ns := by
  unfold resolve at h
  rw [hkey] at h
  exact exists_of_bind h

theorem accepts_of_key {key : Token} (hkey : q.key = some key) {b : Bool}
    (hb : key.accepts t n = .ok b) :
    q.accepts t n = if b then q.outerMatchAbove t n else .ok false := by
  unfold accepts
  rw [hkey]
  show (key.accepts t n).bind _ = _
  rw [hb]
  rfl

theorem test_eq {key : Token} (hb : key.accepts t n = .ok true) :
    (if q.outer = [] then key.accepts t n else q.outerMatchAbove t n) = q.outerMatchAbove t n := by
  by_cases houter : q.outer = []
  · rw [if_pos houter, hb]
    unfold outerMatchAbove
    rw [houter, List.reverse_nil, climb]
  · rw [if_neg houter]

theorem firstAccepted_cons {b : Bool} {above : List NodeId} (hb : q.accepts t n = .ok b) :
    q.firstAccepted t (n :: above) = if b then .ok (some n) else q.firstAccepted t above := by
  rw [firstAccepted, hb]
  cases b <;> rfl

section

variable (ht : t.WellFormed) (hroot : t.element? root = none) (hids : t.DistinctIds root)
  (h : q.resolve t root = .ok ns)
include ht hroot hids h

/-- **At or below the root a node passes the test exactly if resolving gives it**, and the test does not
fail. -/
theorem accepts_of_resolve (hn : t.AtOrAbove root n) : q.accepts t n = .ok (decide (n ∈ ns)) := by
  cases hkey : q.key with
  | none =>
    obtain rfl := eq_nil_of_resolve hkey h
    unfold accepts
    rw [hkey]
    rfl
  | some key =>
    obtain ⟨cs, hcs, hkeep⟩ := exists_find_of_resolve hkey h
    obtain ⟨hok, hmem⟩ := mem_keep_iff hkeep
    have hcand : n ∈ cs ↔ t.Above root n ∧ key.Holds t n := Token.mem_find_iff ht hids hcs
    obtain ⟨b, hb⟩ := key.exists_accepts (Token.kind_ne_of_find hcs) t n
    rw [accepts_of_key hkey hb]
    cases b with
    | false =>
      have hnot : n ∉ ns := by
        intro hns
        have hholds : key.accepts t n = .ok true := (hcand.mp ((hmem n).mp hns).1).2
        rw [hb] at hholds
        cases hholds
      rw [decide_eq_false hnot]
      rfl
    | true =>
      -- the root is no element, so it satisfies no key
      have hbelow : t.Above root n := by
        refine hn.eq_or_above.resolve_left ?_
        rintro rfl
        have helement := Token.Holds.element hb
        rw [hroot] at helement
        cases helement
      have hn : n ∈ cs := hcand.mpr ⟨hbelow, hb⟩
      obtain ⟨b', hb'⟩ := hok n hn
      have hns : n ∈ ns ↔ b' = true := by
        rw [hmem, hb', Except.ok.injEq]
        exact and_iff_right hn
      rw [test_eq hb] at hb'
      rw [if_pos rfl, hb']
      exact congrArg Except.ok (Bool.eq_iff_iff.mpr (hns.symm.trans decide_eq_true_iff.symm))

omit hroot in
theorem above_of_mem_resolve (hn : n ∈ ns) : t.Above root n := by
  cases hkey : q.key with
  | none =>
    obtain rfl := eq_nil_of_resolve hkey h
    exact absurd hn List.not_mem_nil
  | some key =>
    obtain ⟨cs, hcs, hkeep⟩ := exists_find_of_resolve hkey h
    have hcand : n ∈ cs := (((mem_keep_iff hkeep).2 n).mp hn).1
    exact ((Token.mem_find_iff ht hids hcs).mp hcand).1

/-- **The nearest node that passes the test** is the nearest of those that resolving gives; if there is
none of them up to the root, the search goes on above the root. -/
theorem firstAccepted_of_resolve (hn : t.AtOrAbove root n) :
    q.firstAccepted t (n :: t.ancestors n) =
      match (n :: t.ancestors n).find? (· ∈ ns) with
      | some m => .ok (some m)
      | none => q.firstAccepted t (t.ancestors root) := by
  have habove : ∀ {m}, m ∈ ns → t.Above root m := above_of_mem_resolve ht hids h
  induction hn with
  | refl =>
    have hnone : (root :: t.ancestors root).find? (· ∈ ns) = none := by
      refine List.find?_eq_none.mpr fun m hm => ?_
      rw [decide_eq_true_eq]
      intro hns
      refine not_above_self (ht.acc root) ?_
      rcases List.mem_cons.mp hm with rfl | hm
      · exact habove hns
      · exact (habove hns).trans ((mem_ancestors (ht.acc root)).mp hm)
    have hnot : root ∉ ns := fun hns => not_above_self (ht.acc root) (habove hns)
    rw [hnone, firstAccepted_cons (accepts_of_resolve ht hroot hids h .refl), decide_eq_false hnot]
    rfl
  | @tail p n hp hpn ih =>
    have hn : t.AtOrAbove root n := hp.tail hpn
    rw [firstAccepted_cons (accepts_of_resolve ht hroot hids h hn), List.find?_cons]
    cases decide (n ∈ ns) with
    | true => rfl
    | false =>
      rw [ancestors_of_parent (ht.acc n) hpn]
      exact ih

end

end Query

/-! ## Selectors -/

namespace Tree

/-- **Testing agrees with selecting.** If a root is no element and no two nodes below it have one id, then
testing the root or a node below it succeeds, and holds for the nodes that were selected. The nearest node
that passes is the nearest that was selected; where there is none, it is what the parent of the root
gives. -/
theorem isSelected_of_select (ht : t.WellFormed) (hroot : t.element? root = none)
    (hids : t.DistinctIds root) {selector : String} {ns : List NodeId}
    (h : t.select root selector = .ok ns) (hn : n = root ∨ n ∈ t.descendants root) :
    t.isSelected n selector = .ok (decide (n ∈ ns)) ∧
      t.closest n selector =
        match (n :: t.ancestors n).find? (· ∈ ns), t.parent? root with
        | some m, _ => .ok (some m)
        | none, none => .ok none
        | none, some p => t.closest p selector := by
  have hn : t.AtOrAbove root n := by
    rcases hn with rfl | hn
    · exact .refl
    · exact (ht.mem_descendants.mp hn).to_reflTransGen
  refine ⟨Query.accepts_of_resolve ht hroot hids h hn, ?_⟩
  rw [closest, Query.firstAccepted_of_resolve ht hroot hids h hn]
  cases (n :: t.ancestors n).find? (· ∈ ns) with
  | some m => rfl
  | none =>
    cases hp : t.parent? root with
    | none => rw [ancestors_of_top hp]; rfl
    | some p => rw [ancestors_of_parent (ht.acc root) hp]; rfl

/-- What stands in an item is not selected by the name of the item, and the item is nearest to it. -/
theorem closest_item : ∃ t,
    (load "[[\"ul\", \x7b\x7d, [[\"li\", \x7b\"id\": \"a\"\x7d, [[\"em\", \x7b\"id\": \"b\"\x7d]]]]]]"
      .none).1 = .ok t ∧
    t.isSelected 3 "ul li#a" = .ok false ∧ t.closest 3 "ul li#a" = .ok (some 2) := by
  let t : Tree := ⟨#[⟨.document, none, [1], none, none⟩,
    ⟨.element (.ofTag "ul"), some 0, [2], none, none⟩,
    ⟨.element ((Element.ofTag "li").setAttr "id" "a"), some 1, [3], none, none⟩,
    ⟨.element ((Element.ofTag "em").setAttr "id" "b"), some 2, [], none, none⟩]⟩
  have hload : (load "[[\"ul\", \x7b\x7d, [[\"li\", \x7b\"id\": \"a\"\x7d, [[\"em\", \x7b\"id\": \"b\"\x7d]]]]]]"
      .none).1 = .ok t := by
    decide +kernel
  have ht : t.WellFormed := (linked_load hload).toWellFormed
  have hselect : t.select Tree.root "ul li#a" = .ok [2] := by
    rw [select, Scanner.tokenize_eq]
    decide +kernel
  obtain ⟨hselected, hclosest⟩ := isSelected_of_select ht rfl
    (ht.distinctIds_iff.mpr (by decide +kernel)) hselect (n := 3) (Or.inr (by decide +kernel))
  exact ⟨t, hload, hselected, hclosest⟩

/-- A document that was put below an element: the nearest node need not have been selected. -/
theorem closest_above_document :
    ∃ t, Tree.new.edit? [.alloc (.element (.ofTag "div")), .append 1 Tree.root] = some t ∧
      t.WellFormed ∧ t.element? Tree.root = none ∧ t.DistinctIds Tree.root ∧
      t.select Tree.root "div" = .ok [] ∧ t.closest Tree.root "div" = .ok (some 1) := by
  let t : Tree := ⟨#[⟨.document, some 1, [], none, none⟩,
    ⟨.element (.ofTag "div"), none, [0], none, none⟩]⟩
  have hedit : Tree.new.edit? [.alloc (.element (.ofTag "div")), .append 1 Tree.root] = some t := by
    decide +kernel
  have ht : t.WellFormed := (linked_new.edits (by decide +kernel) hedit).toWellFormed
  refine ⟨t, hedit, ht, rfl, ht.distinctIds_iff.mpr (by decide +kernel), ?_, ?_⟩
  · rw [select, Scanner.tokenize_eq]
    decide +kernel
  · rw [closest, Scanner.tokenize_eq]
    decide +kernel

end Tree

end Selectors
