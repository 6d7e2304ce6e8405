import Selectors.Proofs.Resolve.Candidates

/-!
# Selecting inside of a part of a tree

What lies below a node is one stretch of what lies below any root above it. So a selector resolved below the
node gives what it gives below the root, as far as it lies below the node, in the same order: the outer tokens
are met by ancestors without regard to the root, and no candidate is tested that was not tested before. A key
with an id looks up one node only, so there the ids have to be distinct.

* `Token.find_eq_filter`: looking up a key is testing the nodes below the root;
* **`Token.find_below`**, **`Query.keep_filter`**: candidates and tests below the node;
* **`Query.resolve_below`**, **`Tree.select_below`**: resolving below the node.
-/

namespace Selectors

open Selectors.Tree

variable {t : Tree} {root n : NodeId}

theorem Tree.DistinctIds.below (h : t.DistinctIds root) (hn : t.AtOrAbove root n) : t.DistinctIds n := by
  intro a b id ha hb hida hidb
  exact h a b id (.trans_right hn ha) (.trans_right hn hb) hida hidb

/-! ## Keys -/

theorem find?_toList_eq_filter {α : Type} {p : α → Bool} {l : List α} (hl : l.Nodup)
    (h : ∀ a ∈ l, ∀ b ∈ l, p a → p b → a = b) : (l.find? p).toList = l.filter p := by
  induction l with
  | nil => rfl
  | cons x l ih =>
    obtain ⟨hx, hl⟩ := List.nodup_cons.mp hl
    by_cases hp : p x
    · have hnone : l.filter p = [] := by
        refine List.filter_eq_nil_iff.mpr fun b hb hpb => hx ?_
        rwa [h x List.mem_cons_self b (List.mem_cons_of_mem x hb) hp hpb]
      rw [List.find?_cons_of_pos hp, List.filter_cons_of_pos hp, hnone, Option.toList_some]
    · rw [List.find?_cons_of_neg hp, List.filter_cons_of_neg hp]
      exact ih hl fun a ha b hb => h a (List.mem_cons_of_mem x ha) b (List.mem_cons_of_mem x hb)

namespace Token

variable {k : Token} {cs : List NodeId}

theorem toList_elementById? (ht : t.WellFormed) (hids : t.DistinctIds root) (id : String) :
    (t.elementById? root id).toList = (t.descendants root).filter (t.id? · == some id) := by
  refine find?_toList_eq_filter (ht.nodup_descendants root) fun a ha b hb hida hidb => ?_
  exact hids a b id (ht.mem_descendants.mp ha) (ht.mem_descendants.mp hb) (beq_iff_eq.mp hida)
    (beq_iff_eq.mp hidb)

/-- **Looking up a key is testing the nodes below the root**, one after another, if a key with an id meets
distinct ids. -/
theorem find_eq_filter (ht : t.WellFormed) (hk : k.kind ≠ .pseudoClass)
    (hids : k.HasId → t.DistinctIds root) :
    k.find t root = .ok ((t.descendants root).filter fun n => k.accepts t n = .ok true) := by
  by_cases hid : k.HasId
  · obtain ⟨identity, kind⟩ := k
    have hlookup := toList_elementById? ht (hids hid) (afterFirst '#' identity)
    rcases hid with rfl | rfl
    · refine congrArg Except.ok (hlookup.trans ?_)
      simp [accepts, RuleKind.matcher?, beq_eq_decide]
    · refine congrArg Except.ok ((congrArg _ hlookup).trans ?_)
      simp [accepts, RuleKind.matcher?, beq_eq_decide, List.filter_filter, Bool.and_comm]
  · exact find_eq_filter_of_not_hasId hk hid

/-- **The candidates below a node** are those below the root that lie below the node. -/
theorem find_below (ht : t.WellFormed) (hids : k.HasId → t.DistinctIds root)
    (hn : t.AtOrAbove root n) (h : k.find t root = .ok cs) :
    k.find t n = .ok (cs.filter (· ∈ t.descendants n)) := by
  have hk := kind_ne_of_find h
  rw [find_eq_filter ht hk hids] at h
  rw [find_eq_filter ht hk fun hid => (hids hid).below hn, ← Except.ok.inj h, List.filter_comm,
    ht.filter_descendants hn]

end Token

/-! ## Queries -/

namespace Query

variable {q : Query} {ns : List NodeId}

/-- **Tests that succeed on all candidates succeed on some of them**, and keep the same of these. -/
theorem keep_filter {test : NodeId → Except ResolveError Bool} {p : NodeId → Bool} {l kept : List NodeId}
    (h : keep test l = .ok kept) : keep test (l.filter p) = .ok (kept.filter p) := by
  induction l generalizing kept with
  | nil =>
    obtain rfl := Except.ok.inj h
    rfl
  | cons m l ih =>
    obtain ⟨b, rest, hb, hrest, rfl⟩ := exists_of_keep_cons h
    by_cases hm : p m
    · rw [List.filter_cons_of_pos hm, keep, hb, ih hrest]
      cases b with
      | true => rw [if_pos rfl, List.filter_cons_of_pos hm]; rfl
      | false => rfl
    · rw [List.filter_cons_of_neg hm, ih hrest]
      cases b with
      | true => rw [if_pos rfl, List.filter_cons_of_neg hm]
      | false => rfl

/-- **Resolving below a node gives what resolving below the root gives there.** -/
theorem resolve_below (ht : t.WellFormed) (hids : ∀ k ∈ q.key, k.HasId → t.DistinctIds root)
    (hn : t.AtOrAbove root n) (h : q.resolve t root = .ok ns) :
    q.resolve t n = .ok (ns.filter (· ∈ t.descendants n)) := by
  cases hkey : q.key with
  | none =>
    obtain rfl := eq_nil_of_resolve hkey h
    unfold resolve
    rw [hkey]
    rfl
  | some key =>
    obtain ⟨cs, hcs, hkeep⟩ := exists_find_of_resolve hkey h
    have hfind := Token.find_below ht (hids key hkey) hn hcs
    unfold resolve
    rw [hkey]
    show (key.find t n).bind _ = _
    rw [hfind]
    exact keep_filter hkeep

end Query

/-! ## Selectors -/

namespace Tree

/-- **Selecting below a node is selecting below the root and keeping what lies below the node**, in the same
order, if the last token of the selector holds no id or the ids below the root are distinct. -/
theorem select_below (ht : t.WellFormed) (hn : n = root ∨ n ∈ t.descendants root) {selector : String}
    (hkey : (∀ k ∈ (tokenize selector).getLast?, k.kind ≠ .id ∧ k.kind ≠ .nameAndId) ∨
      t.DistinctIds root)
    {ns : List NodeId} (h : t.select root selector = .ok ns) :
    t.select n selector = .ok (ns.filter (· ∈ t.descendants n)) := by
  have hids : ∀ k ∈ (tokenize selector).getLast?, k.HasId → t.DistinctIds root := by
    intro k hk hid
    refine hkey.resolve_left fun hplain => ?_
    exact hid.elim (hplain k hk).1 (hplain k hk).2
  have hn : t.AtOrAbove root n := by
    rcases hn with rfl | hn
    · exact .refl
    · exact (ht.mem_descendants.mp hn).to_reflTransGen
  exact Query.resolve_below ht hids hn h

/-- Of the two items below a division one stands in its second list; the division stands above that list. -/
theorem select_second_list : ∃ t,
    (load "[[\"div\", \x7b\x7d, [[\"ul\", \x7b\x7d, [[\"li\"]]], [\"ol\", \x7b\x7d, [[\"li\"]]]]]]" .none).1 =
      .ok t ∧
    t.select Tree.root "div li" = .ok [3, 5] ∧ t.select 4 "div li" = .ok [5] := by
  let li : Content := .element (.ofTag "li")
  let t : Tree := ⟨#[⟨.document, none, [1], none, none⟩,
    ⟨.element (.ofTag "div"), some 0, [2, 4], none, none⟩,
    ⟨.element (.ofTag "ul"), some 1, [3], none, some 4⟩, ⟨li, some 2, [], none, none⟩,
    ⟨.element (.ofTag "ol"), some 1, [5], some 2, none⟩, ⟨li, some 4, [], none, none⟩]⟩
  have hload : (load
      "[[\"div\", \x7b\x7d, [[\"ul\", \x7b\x7d, [[\"li\"]]], [\"ol\", \x7b\x7d, [[\"li\"]]]]]]" .none).1 =
      .ok t := by
    decide +kernel
  have hselect : t.select Tree.root "div li" = .ok [3, 5] := by
    rw [select, Scanner.tokenize_eq]
    decide +kernel
  have hkey : ∀ k ∈ (tokenize "div li").getLast?, k.kind ≠ .id ∧ k.kind ≠ .nameAndId := by
    rw [Scanner.tokenize_eq]
    decide +kernel
  refine ⟨t, hload, hselect, ?_⟩
  exact select_below (linked_load hload).toWellFormed (n := 4) (Or.inr (by decide +kernel)) (Or.inl hkey)
    hselect

end Tree

end Selectors
