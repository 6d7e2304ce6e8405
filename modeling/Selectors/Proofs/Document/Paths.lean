import Selectors.Proofs.Document.Duplicates

/-!
# Paths of described nodes

A path leads from the top of a document down to a node: the number of a node on top, and then of a child for
each level. Document order is the lexicographic order of paths, in which a node stands before all that lies
below it, and that before its next sibling. So a document without a content somewhere is refused with the
least path to such a node, whatever the nodes above it are.

* `Description.at?`, `Description.nodeAt?`: the node at a path;
* `mem_placedAll`, **`pairwise_placedAll`**: the listing of described nodes with their paths holds the nodes
  at all paths, in the order of these;
* `Description.IsBare`, `FirstBare`: a node without text, comment and tag, and the path to the first one;
* **`build_eq_error_iff`**, **`load_stops_at_first`**: where loading stops.
-/

namespace Selectors

namespace Description

variable {d e : Description} {ds nodes : List Description} {path p q : List Nat} {index : Nat}

/-! ## Nodes at paths -/

/-- The node that lies below a described node, or is this one: a path tells which child to go to. -/
def at? (d : Description) : List Nat → Option Description
  | [] => some d
  | i :: path => d.children[i]?.bind (·.at? path)

/-- The described node at a path, which begins with the number of a node on top. -/
def nodeAt? (nodes : List Description) : List Nat → Option Description
  | [] => none
  | i :: path => nodes[i]?.bind (·.at? path)

theorem nodeAt?_cons_eq_some_iff {i : Nat} :
    nodeAt? ds (i :: path) = some e ↔ ∃ d, ds[i]? = some d ∧ d.at? path = some e := by
  simp [nodeAt?, Option.bind_eq_some_iff]

mutual

/-- **The listing of a described node holds the nodes at all paths below it.** -/
theorem mem_placed (path : List Nat) (d : Description) :
    (p, e) ∈ d.placed path ↔ ∃ q, p = path ++ q ∧ d.at? q = some e := by
  obtain ⟨tag, attributes, children, text, comment⟩ := d
  rw [placed, List.mem_cons, mem_placedAll path 0 children, Prod.mk.injEq]
  constructor
  · rintro (⟨rfl, rfl⟩ | ⟨i, q, rfl, he⟩)
    · exact ⟨[], (List.append_nil p).symm, rfl⟩
    · exact ⟨i :: q, by rw [Nat.zero_add], he⟩
  · rintro ⟨q, rfl, he⟩
    cases q with
    | nil => exact Or.inl ⟨List.append_nil path, (Option.some.inj he).symm⟩
    | cons i q => exact Or.inr ⟨i, q, by rw [Nat.zero_add], he⟩

theorem mem_placedAll (path : List Nat) (index : Nat) (ds : List Description) :
    (p, e) ∈ placedAll path index ds ↔
      ∃ i q, p = path ++ (index + i) :: q ∧ nodeAt? ds (i :: q) = some e := by
  cases ds with
  | nil => simp [placedAll, nodeAt?]
  | cons d ds =>
    rw [placedAll, List.mem_append, mem_placed (path ++ [index]) d, mem_placedAll path (index + 1) ds]
    constructor
    · rintro (⟨q, rfl, he⟩ | ⟨i, q, rfl, he⟩)
      · exact ⟨0, q, by simp, nodeAt?_cons_eq_some_iff.mpr ⟨d, rfl, he⟩⟩
      · exact ⟨i + 1, q, by rw [Nat.add_right_comm, Nat.add_assoc], he⟩
    · rintro ⟨i, q, rfl, he⟩
      cases i with
      | zero =>
        obtain ⟨d', hd', he⟩ := nodeAt?_cons_eq_some_iff.mp he
        obtain rfl := Option.some.inj hd'
        exact Or.inl ⟨q, by simp, he⟩
      | succ i => exact Or.inr ⟨i, q, by rw [Nat.add_right_comm, Nat.add_assoc], he⟩

end

/-! ## Document order -/

theorem lt_append_cons (path : List Nat) (i : Nat) (q : List Nat) : path < path ++ i :: q := by
  have h : path ++ [] < path ++ i :: q := List.append_left_lt (List.nil_lt_cons i q)
  rwa [List.append_nil] at h

theorem append_cons_lt_append_cons {i j : Nat} (h : i < j) (path p q : List Nat) :
    path ++ i :: p < path ++ j :: q :=
  List.append_left_lt (List.cons_lt_cons_iff.mpr (Or.inl h))

mutual

/-- **The listing is in the order of the paths.** -/
theorem pairwise_placed (path : List Nat) (d : Description) :
    (d.placed path).Pairwise (·.1 < ·.1) := by
  obtain ⟨tag, attributes, children, text, comment⟩ := d
  rw [placed, List.pairwise_cons]
  refine ⟨fun ⟨p, e⟩ he => ?_, pairwise_placedAll path 0 children⟩
  obtain ⟨i, q, rfl, -⟩ := (mem_placedAll path 0 children).mp he
  exact lt_append_cons path (0 + i) q

theorem pairwise_placedAll (path : List Nat) (index : Nat) (ds : List Description) :
    (placedAll path index ds).Pairwise (·.1 < ·.1) := by
  cases ds with
  | nil =>
    rw [placedAll]
    exact .nil
  | cons d ds =>
    rw [placedAll, List.pairwise_append]
    refine ⟨pairwise_placed (path ++ [index]) d, pairwise_placedAll path (index + 1) ds, ?_⟩
    rintro ⟨p, e⟩ he ⟨p', e'⟩ he'
    obtain ⟨q, rfl, -⟩ := (mem_placed (path ++ [index]) d).mp he
    obtain ⟨i, q', rfl, -⟩ := (mem_placedAll path (index + 1) ds).mp he'
    rw [List.append_assoc]
    exact append_cons_lt_append_cons (by omega) path q q'

end

theorem mem_placedAll_iff : (path, d) ∈ placedAll [] 0 nodes ↔ nodeAt? nodes path = some d := by
  rw [mem_placedAll]
  constructor
  · rintro ⟨i, q, rfl, hd⟩
    rwa [List.nil_append, Nat.zero_add]
  · intro hd
    cases path with
    | nil => cases hd
    | cons i q => exact ⟨i, q, by rw [List.nil_append, Nat.zero_add], hd⟩

/-! ## Bare nodes -/

/-- The described node has neither a text nor a comment nor a tag. -/
def IsBare (d : Description) : Prop := d.text = none ∧ d.comment = none ∧ d.tag = none

theorem content?_eq_none_iff : d.content? = none ↔ d.IsBare := by
  unfold content? IsBare
  cases d.text <;> cases d.comment <;> cases d.tag <;> simp

/-- **The path leads to the first bare node**: to a bare one, before which no other stands. -/
structure FirstBare (nodes : List Description) (path : List Nat) : Prop where
  exists_bare : ∃ d, nodeAt? nodes path = some d ∧ d.IsBare
  not_before : ∀ p d, nodeAt? nodes p = some d → d.IsBare → ¬ p < path

theorem FirstBare.unique (hp : FirstBare nodes p) (hq : FirstBare nodes q) : p = q := by
  obtain ⟨d, hd, hbare⟩ := hp.exists_bare
  obtain ⟨e, he, hbare'⟩ := hq.exists_bare
  exact List.le_antisymm (hp.not_before q e he hbare') (hq.not_before p d hd hbare)

end Description

open Description

variable {nodes : List Description} {path : List Nat}

/-! ## Where loading stops -/

theorem build_outcome (nodes : List Description) :
    ((∃ b, build nodes = .ok b) ∧ ∀ p d, nodeAt? nodes p = some d → ¬ d.IsBare) ∨
      ∃ path b, build nodes = .error ⟨path, b⟩ ∧ FirstBare nodes path := by
  have hreads := Builder.reads_attachAll .start Tree.root [] 0 nodes
  have horder := pairwise_placedAll [] 0 nodes
  unfold build
  generalize Builder.start.attachAll Tree.root [] 0 nodes = result at hreads ⊢
  cases hreads with
  | @complete b h hb =>
    refine Or.inl ⟨⟨b, rfl⟩, fun p d hd hbare => ?_⟩
    exact h _ (mem_placedAll_iff.mpr hd) (content?_eq_none_iff.mpr hbare)
  | @stopped before behind path d b heq h hd hb =>
    refine Or.inr ⟨path, b, rfl, ⟨d, ?_, content?_eq_none_iff.mp hd⟩, fun p e he hbare hlt => ?_⟩
    · rw [← mem_placedAll_iff, heq]
      exact List.mem_append_right before List.mem_cons_self
    · rw [← mem_placedAll_iff, heq] at he
      rw [heq, List.pairwise_append, List.pairwise_cons] at horder
      obtain ⟨-, ⟨hbehind, -⟩, -⟩ := horder
      rcases List.mem_append.mp he with he | he
      · exact h _ he (content?_eq_none_iff.mpr hbare)
      · rcases List.mem_cons.mp he with heq' | he
        · obtain ⟨rfl, -⟩ := Prod.mk.inj heq'
          exact List.lt_irrefl p hlt
        · exact List.lt_asymm hlt (hbehind _ he)

/-- **Building stops at the first bare node**, and only there. -/
theorem build_eq_error_iff : (∃ b, build nodes = .error ⟨path, b⟩) ↔ FirstBare nodes path := by
  rcases build_outcome nodes with ⟨⟨b, hb⟩, hnone⟩ | ⟨path', b, hb, hfirst⟩
  · rw [hb]
    constructor
    · rintro ⟨b', hb'⟩
      cases hb'
    · intro h
      obtain ⟨d, hd, hbare⟩ := h.exists_bare
      exact absurd hbare (hnone path d hd)
  · rw [hb]
    constructor
    · rintro ⟨b', hb'⟩
      obtain rfl : path' = path := congrArg Builder.Failure.path (Except.error.inj hb')
      exact hfirst
    · intro h
      exact ⟨b, by rw [h.unique hfirst]⟩

theorem exists_firstBare_iff :
    (∃ path, FirstBare nodes path) ↔ ∃ path d, nodeAt? nodes path = some d ∧ d.IsBare := by
  constructor
  · rintro ⟨path, h⟩
    exact ⟨path, h.exists_bare⟩
  · rintro ⟨path, d, hd, hbare⟩
    rcases build_outcome nodes with ⟨-, hnone⟩ | ⟨path', -, -, hfirst⟩
    · exact absurd hbare (hnone path d hd)
    · exact ⟨path', hfirst⟩

theorem load_eq_missingTag_iff {text : String} {ws : Warnings} : (load text ws).1 = .error (.missingTag path) ↔
    ∃ nodes, readDocument text = .ok nodes ∧ FirstBare nodes path := by
  constructor
  · intro h
    obtain ⟨nodes, b, hread, hb, -⟩ := exists_of_load_missingTag h
    exact ⟨nodes, hread, build_eq_error_iff.mp ⟨b, hb⟩⟩
  · rintro ⟨nodes, hread, hfirst⟩
    obtain ⟨b, hb⟩ := build_eq_error_iff.mpr hfirst
    unfold load
    rw [hread]
    dsimp only
    rw [hb]

/-- **Loading stops at the first bare node.** A document fails to be built exactly if some node at some path
has neither a text nor a comment nor a tag, whatever its parents are, and then the path in the error is the
first one to such a node. A text is refused for it exactly if it is read as such a document. In messages each
number of a path stands behind a slash. -/
theorem load_stops_at_first :
    (∀ nodes path, (∃ b, build nodes = .error ⟨path, b⟩) ↔ FirstBare nodes path) ∧
    (∀ nodes, (∃ failure, build nodes = .error failure) ↔
      ∃ path d, nodeAt? nodes path = some d ∧ d.IsBare) ∧
    (∀ text ws path, (load text ws).1 = .error (.missingTag path) ↔
      ∃ nodes, readDocument text = .ok nodes ∧ FirstBare nodes path) ∧
    LoadError.pathText [] = "" ∧
    ∀ i path, LoadError.pathText (i :: path) = "/" ++ toString i ++ LoadError.pathText path := by
  refine ⟨fun nodes path => build_eq_error_iff, fun nodes => ?_, fun text ws path => load_eq_missingTag_iff,
    rfl, fun i path => ?_⟩
  · rw [← exists_firstBare_iff]
    constructor
    · rintro ⟨⟨path, b⟩, hb⟩
      exact ⟨path, build_eq_error_iff.mp ⟨b, hb⟩⟩
    · rintro ⟨path, hfirst⟩
      obtain ⟨b, hb⟩ := build_eq_error_iff.mpr hfirst
      exact ⟨⟨path, b⟩, hb⟩
  · simp [LoadError.pathText]

/-- A single node has the path `/0`; a text may have a node below it, and this is looked at before the
sibling of the text. -/
example : ((load "\x7b\x7d" .none).1 = .error (.missingTag [0])) ∧
    (load "[[\"p\"], [null, \x7b\x7d, [[\"b\"], []], \"a\"], []]" .none).1 = .error (.missingTag [1, 1]) ∧
    (LoadError.missingTag [1, 1]).message = "node at /1/1 has no \"tag\", \"text\" or \"comment\"" := by
  decide +kernel

end Selectors
