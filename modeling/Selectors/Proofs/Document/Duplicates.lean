import Selectors.Proofs.Document.Forest
import Selectors.Proofs.Warning.History

/-!
# Duplicate ids

Loading notes the ids of elements as it comes to them, in document order, and stops at the first node without a
content. So the ids that it reports are those that two elements have among the nodes that it has come to: of all
described nodes, if loading succeeds, and else of those before the node where it stops.

* `Description.placed`: described nodes in document order, with their paths; `Description.HasId`: which are elements
  with an id;
* `Builder.Noted`, `Noted.note`: what a builder knows of the ids that it was told;
* `Builder.Reads`, **`Builder.reads_attach`**: where attaching stops, and what the builder knows then;
* `mem_printed_warnings_iff`: what is printed for a builder; `Tree.Grows.map_id?`: the ids of a loaded tree;
* **`load_reports`**: the ids reported for a text.
-/

namespace Selectors

/-! ## Ids -/

/-- The id of an element; other nodes have none. -/
def Content.id? : Content → Option String
  | .element data => data.id?
  | _ => none

theorem Tree.id?_eq (t : Tree) (n : NodeId) : t.id? n = (t.content? n).bind Content.id? := by
  unfold Tree.id? element?
  cases t.content? n with
  | none => rfl
  | some content => cases content <;> rfl

namespace Description

variable {d : Description} {path : List Nat} {id : String}

/-- What is described is an element with an id: it has neither a text nor a comment, but a tag. -/
def HasId (d : Description) (id : String) : Prop :=
  d.text = none ∧ d.comment = none ∧ d.tag.isSome ∧ d.attributes.find? "id" = some id

instance (d : Description) (id : String) : Decidable (d.HasId id) :=
  inferInstanceAs (Decidable (d.text = none ∧ d.comment = none ∧ d.tag.isSome ∧ d.attributes.find? "id" = some id))

/-- The id of the element that is described. -/
def elementId? (d : Description) : Option String := d.content?.bind Content.id?

theorem elementId?_eq_some_iff : d.elementId? = some id ↔ d.HasId id := by
  unfold elementId? content? HasId
  cases d.text <;> cases d.comment <;> cases d.tag <;>
    simp [Content.id?, Element.id?, Element.attr?]

/-! ## Paths -/

mutual

/-- A described node, which stands at `path`, and all below it in document order, with their paths. -/
def placed (path : List Nat) : Description → List (List Nat × Description)
  | ⟨tag, attributes, children, text, comment⟩ =>
    (path, ⟨tag, attributes, children, text, comment⟩) :: placedAll path 0 children

/-- Described nodes below the one at `path`, the first with the number `index`, and all below them. -/
def placedAll (path : List Nat) (index : Nat) : List Description → List (List Nat × Description)
  | [] => []
  | d :: ds => d.placed (path ++ [index]) ++ placedAll path (index + 1) ds

end

mutual

theorem map_snd_placed (path : List Nat) (d : Description) : (d.placed path).map (·.2) = d.listing := by
  obtain ⟨tag, attributes, children, text, comment⟩ := d
  rw [placed, listing, List.map_cons, map_snd_placedAll path 0 children]

theorem map_snd_placedAll (path : List Nat) (index : Nat) (ds : List Description) :
    (placedAll path index ds).map (·.2) = listingAll ds := by
  cases ds with
  | nil => rw [placedAll, listingAll_nil, List.map_nil]
  | cons d ds =>
    rw [placedAll, listingAll_cons, List.map_append, map_snd_placed (path ++ [index]) d,
      map_snd_placedAll path (index + 1) ds]

end

end Description

open Description

namespace Builder

variable {b : Builder} {l : List (Option String)} {path : List Nat} {d : Description}
  {p q : List (List Nat × Description)}

/-! ## What a builder knows -/

/-- A builder that was told the ids of some nodes, or that they have none, knows these ids, and those among them that
it was told at least twice. -/
structure Noted (b : Builder) (l : List (Option String)) : Prop where
  ids : ∀ id, id ∈ b.ids ↔ some id ∈ l
  duplicates : ∀ id, id ∈ b.duplicates ↔ 2 ≤ l.count (some id)

namespace Noted

theorem start : Builder.start.Noted [] where
  ids id := by simp [Builder.start]
  duplicates id := by simp [Builder.start]

theorem noteId (h : b.Noted l) (id : String) : (b.noteId id).Noted (l ++ [some id]) := by
  have hcount : ∀ x, (l ++ [some id]).count (some x) = l.count (some x) + if id = x then 1 else 0 := by
    intro x
    rw [List.count_append, List.count_singleton]
    simp
  unfold Builder.noteId
  split
  · rename_i hid
    have hone := List.one_le_count_iff.mpr ((h.ids id).mp hid)
    refine ⟨fun x => ?_, fun x => ?_⟩
    · rw [h.ids, List.mem_append, List.mem_singleton]
      exact ⟨Or.inl, fun hx => hx.elim (·) fun hx => hx ▸ (h.ids id).mp hid⟩
    · rw [List.mem_cons, h.duplicates, hcount]
      by_cases hx : id = x
      · subst hx
        simp only [true_or, if_true, true_iff]
        exact Nat.succ_le_succ hone
      · simp [hx, Ne.symm hx]
  · rename_i hid
    have hzero := List.count_eq_zero.mpr (mt (h.ids id).mpr hid)
    refine ⟨fun x => ?_, fun x => ?_⟩
    · rw [List.mem_cons, h.ids, List.mem_append, List.mem_singleton, Option.some.injEq]
      exact or_comm
    · rw [h.duplicates, hcount]
      by_cases hx : id = x
      · subst hx
        simp [hzero]
      · simp [hx]

theorem note (h : b.Noted l) (content : Content) : (b.note content).Noted (l ++ [content.id?]) := by
  have hnone : b.Noted (l ++ [none]) := ⟨fun x => by simp [h.ids], fun x => by simp [h.duplicates]⟩
  cases content with
  | element data =>
    rw [Builder.note, Content.id?]
    cases data.id? with
    | none => exact hnone
    | some id => exact h.noteId id
  | _ => exact hnone

theorem add (h : b.Noted l) (parent : NodeId) (content : Content) : (b.add parent content).1.Noted l :=
  ⟨h.ids, h.duplicates⟩

end Noted

/-! ## Reading -/

/-- **What reading described nodes comes to**: each has a content, and the builder is told their ids; or it stops at
the first one without a content, and is told the ids before it. -/
inductive Reads (l : List (Option String)) (p : List (List Nat × Description)) :
    Except Failure Builder → Prop
  | complete {b : Builder} (h : ∀ e ∈ p, e.2.content? ≠ none)
      (hb : b.Noted (l ++ p.map (·.2.elementId?))) : Reads l p (.ok b)
  | stopped {before behind : List (List Nat × Description)} {path : List Nat} {d : Description} {b : Builder}
      (heq : p = before ++ (path, d) :: behind) (h : ∀ e ∈ before, e.2.content? ≠ none)
      (hd : d.content? = none) (hb : b.Noted (l ++ before.map (·.2.elementId?))) :
      Reads l p (.error ⟨path, b⟩)

theorem Reads.append {x : Except Failure Builder} {f : Builder → Except Failure Builder} (h : Reads l p x)
    (hf : ∀ b, b.Noted (l ++ p.map (·.2.elementId?)) → Reads (l ++ p.map (·.2.elementId?)) q (f b)) :
    Reads l (p ++ q) (x >>= f) := by
  cases h with
  | stopped heq h hd hb => exact .stopped (by rw [heq, List.append_assoc, List.cons_append]) h hd hb
  | @complete b h hb =>
    show Reads l (p ++ q) (f b)
    have hb := hf b hb
    generalize f b = y at hb ⊢
    cases hb with
    | complete h' hb' =>
      refine .complete (fun e he => (List.mem_append.mp he).elim (h e) (h' e)) ?_
      rwa [List.map_append, ← List.append_assoc]
    | stopped heq h' hd hb' =>
      refine .stopped (by rw [heq, ← List.append_assoc])
        (fun e he => (List.mem_append.mp he).elim (h e) (h' e)) hd ?_
      rwa [List.map_append, ← List.append_assoc]

mutual

/-- **Attaching a description stops at its first node without a content.** -/
theorem reads_attach {b : Builder} {l : List (Option String)} (hb : b.Noted l) (parent : NodeId)
    (path : List Nat) (d : Description) : Reads l (d.placed path) (b.attach parent path d) := by
  obtain ⟨tag, attributes, children, text, comment⟩ := d
  rw [attach, placed]
  split
  · rename_i hcontent
    refine .stopped (List.nil_append _).symm (fun e he => absurd he List.not_mem_nil) hcontent ?_
    rwa [List.map_nil, List.append_nil]
  · rename_i content hcontent
    have hnode : Reads l [(path, ⟨tag, attributes, children, text, comment⟩)] (.ok (b.note content)) := by
      refine .complete (fun e he => ?_) ?_
      · rw [List.mem_singleton.mp he, hcontent]
        exact Option.some_ne_none content
      · rw [List.map_singleton, elementId?, hcontent]
        exact hb.note content
    exact hnode.append fun b hb => reads_attachAll (hb.add parent content) (b.add parent content).2 path 0 children

theorem reads_attachAll {b : Builder} {l : List (Option String)} (hb : b.Noted l) (parent : NodeId)
    (path : List Nat) (index : Nat) (ds : List Description) :
    Reads l (placedAll path index ds) (b.attachAll parent path index ds) := by
  cases ds with
  | nil =>
    rw [attachAll, placedAll]
    exact .complete (fun e he => absurd he List.not_mem_nil) (by rwa [List.map_nil, List.append_nil])
  | cons d ds =>
    rw [attachAll, placedAll]
    exact (reads_attach hb parent (path ++ [index]) d).append
      fun b hb => reads_attachAll hb parent path (index + 1) ds

end

/-! ## Warnings -/

theorem mem_printed_warnings_iff {id : String} :
    .duplicateId id ∈ (Warnings.none.reportAll b.warnings).printed ↔ id ∈ b.duplicates := by
  have hwarnings : ∀ v, v ∈ b.warnings ↔ ∃ x ∈ b.duplicates, Warning.duplicateId x = v := by
    simp [warnings]
  have hprinted : ∀ v ∈ (Warnings.none.reportAll b.warnings).printed, ∃ x ∈ b.duplicates, .duplicateId x = v := by
    intro v hv
    rcases Warnings.mem_printed_reportAll hv with hv | hv
    · cases hv
    · exact (hwarnings v).mp hv
  constructor
  · intro h
    obtain ⟨x, hx, heq⟩ := hprinted _ h
    exact Warning.duplicateId_inj.mp heq ▸ hx
  · intro h
    -- some warning with this line is printed, and the line tells the id
    obtain ⟨v, hv, hline⟩ := Warnings.hasLine_reportAll.mpr
      (Or.inr ⟨.duplicateId id, (hwarnings _).mpr ⟨id, h, rfl⟩, rfl⟩)
    obtain ⟨x, hx, rfl⟩ := hprinted v hv
    rwa [Warning.line_duplicateId_inj.mp hline] at hv

theorem Noted.reported (h : b.Noted l) (id : String) :
    .duplicateId id ∈ (Warnings.none.reportAll b.warnings).printed ↔ 2 ≤ l.count (some id) :=
  mem_printed_warnings_iff.trans (h.duplicates id)

end Builder

/-! ## Loaded trees -/

namespace Tree

variable {t : Tree} {nodes : List Description} {m : NodeId} {id : String}

theorem lt_size_of_id? (h : t.id? m = some id) : m < t.size := by
  by_contra hm
  rw [id?_eq, content?, node?_eq_none (Nat.le_of_not_lt hm)] at h
  cases h

theorem Grows.map_id? (h : Tree.new.Grows root nodes t) :
    (List.range t.size).map t.id? = none :: (listingAll nodes).map elementId? := by
  have hroot : t.id? 0 = none := by
    rw [id?_eq, h.content 0 Nat.zero_lt_one]
    rfl
  have hbelow : (List.range (listingAll nodes).length).map (fun i => t.id? (i + 1)) =
      (listingAll nodes).map elementId? := by
    refine List.ext_getElem (by simp) fun i hi hi' => ?_
    rw [List.length_map] at hi'
    have hcontent := (h.lays i _ (List.getElem?_eq_getElem hi')).1
    rw [List.getElem_map, List.getElem_map, List.getElem_range, id?_eq, elementId?, ← hcontent, Nat.add_comm]
    rfl
  have hsize : t.size = (listingAll nodes).length + 1 := h.size.trans (Nat.add_comm _ _)
  rw [hsize, List.range_succ_eq_map, List.map_cons, List.map_map, hroot, ← hbelow]
  rfl

theorem Grows.exists_elementById? (ht : t.WellFormed) (h : Tree.new.Grows root nodes t) (hm : t.id? m = some id) :
    ∃ n, t.elementById? root id = some n ∧ t.id? n = some id ∧ ∀ k, t.id? k = some id → n ≤ k := by
  have hbounds : ∀ k, t.id? k = some id → 1 ≤ k ∧ k < 1 + (listingAll nodes).length := by
    intro k hk
    refine ⟨Nat.one_le_iff_ne_zero.mpr ?_, h.size ▸ lt_size_of_id? hk⟩
    rintro rfl
    rw [id?_eq, h.content 0 Nat.zero_lt_one] at hk
    cases hk
  have hfind : t.elementById? root id = (List.range' 1 (listingAll nodes).length).find? (t.id? · == some id) := by
    rw [elementById?, h.order ht]
  obtain ⟨n, hn⟩ : ∃ n, t.elementById? root id = some n := by
    rw [hfind, ← Option.isSome_iff_exists, List.find?_isSome]
    exact ⟨m, List.mem_range'_1.mpr (hbounds m hm), beq_iff_eq.mpr hm⟩
  obtain ⟨hid, -, hleast⟩ := List.find?_range'_eq_some.mp (hfind ▸ hn)
  refine ⟨n, hn, beq_iff_eq.mp hid, fun k hk => Nat.le_of_not_lt fun hlt => ?_⟩
  have hne := hleast k (hbounds k hk).1 hlt
  rw [hk] at hne
  simp at hne

end Tree

/-! ## Documents -/

section Load

variable {text : String} {ws : Warnings} {t : Tree} {path : List Nat}

theorem exists_of_load_ok (h : (load text ws).1 = .ok t) : ∃ nodes b, readDocument text = .ok nodes ∧
    build nodes = .ok b ∧ b.tree = t ∧ (load text ws).2 = ws.reportAll b.warnings := by
  unfold load at h ⊢
  cases hread : readDocument text with
  | error e =>
    rw [hread] at h
    cases h
  | ok nodes =>
    rw [hread] at h
    cases hb : build nodes with
    | error failure =>
      simp only [hb] at h
      cases h
    | ok b =>
      simp only [hb] at h
      exact ⟨nodes, b, rfl, hb, Except.ok.inj h, by simp only [hb]⟩

theorem exists_of_load_missingTag (h : (load text ws).1 = .error (.missingTag path)) : ∃ nodes b,
    readDocument text = .ok nodes ∧ build nodes = .error ⟨path, b⟩ ∧ (load text ws).2 = ws.reportAll b.warnings := by
  unfold load at h ⊢
  cases hread : readDocument text with
  | error e =>
    rw [hread] at h
    obtain rfl := Except.error.inj h
    unfold readDocument at hread
    split at hread
    · cases hread
    · split at hread
      · cases hread
      · split at hread <;> cases hread
  | ok nodes =>
    rw [hread] at h
    cases hb : build nodes with
    | error failure =>
      simp only [hb] at h
      obtain rfl : failure.path = path := LoadError.missingTag.inj (Except.error.inj h)
      exact ⟨nodes, failure.builder, rfl, hb, by simp only [hb]⟩
    | ok b =>
      simp only [hb] at h
      cases h

theorem noted_of_build {nodes : List Description} {b : Builder} (hb : build nodes = .ok b) :
    b.Noted ((listingAll nodes).map elementId?) ∧ Tree.new.Grows Tree.root nodes b.tree := by
  have hreads := Builder.reads_attachAll .start Tree.root [] 0 nodes
  rw [show Builder.start.attachAll Tree.root [] 0 nodes = .ok b from hb] at hreads
  cases hreads with
  | complete h hnoted =>
    rw [List.nil_append] at hnoted
    rw [← map_snd_placedAll [] 0 nodes, List.map_map]
    refine ⟨hnoted, ?_⟩
    have hcontents : ∀ e ∈ listingAll nodes, e.content? ≠ none := by
      rw [← map_snd_placedAll [] 0 nodes]
      exact List.forall_mem_map.mpr h
    obtain ⟨b', hb', hgrows⟩ :=
      @Builder.grows_attachAll .start Tree.root [] 0 nodes Tree.linked_new Nat.zero_lt_one hcontents
    obtain rfl : b = b' := Except.ok.inj (hb.symm.trans hb')
    exact hgrows

theorem count_map_eq_some {α : Type} {f : α → Option String} {id : String} {P : α → Prop} [DecidablePred P]
    (hf : ∀ a, f a = some id ↔ P a) (l : List α) : (l.map f).count (some id) = l.countP fun a => P a := by
  rw [List.count, List.countP_map]
  refine List.countP_congr fun a _ => ?_
  simp [hf]

/-- **The duplicate ids reported for a text.** If the text is a document, an id is reported exactly if at least two
elements of its tree have it, and then looking it up gives the one of them with the smallest number. If the text has a
node without a content, an id is reported exactly if at least two elements with it are described before the first such
node, whose path is the one in the error. -/
theorem load_reports (text : String) :
    (∀ t, (load text .none).1 = .ok t → ∀ id,
      (.duplicateId id ∈ (load text .none).2.printed ↔ 2 ≤ (List.range t.size).countP fun n => t.id? n = some id) ∧
      (.duplicateId id ∈ (load text .none).2.printed → ∃ n, t.elementById? Tree.root id = some n ∧
        t.id? n = some id ∧ ∀ m, t.id? m = some id → n ≤ m)) ∧
    ∀ path, (load text .none).1 = .error (.missingTag path) → ∃ nodes before d behind,
      readDocument text = .ok nodes ∧ placedAll [] 0 nodes = before ++ (path, d) :: behind ∧
        d.content? = none ∧ (∀ e ∈ before, e.2.content? ≠ none) ∧
        ∀ id, .duplicateId id ∈ (load text .none).2.printed ↔ 2 ≤ before.countP fun e => e.2.HasId id := by
  refine ⟨fun t hload id => ?_, fun path hload => ?_⟩
  · have hwell : t.WellFormed := (linked_load hload).toWellFormed
    obtain ⟨nodes, b, -, hb, rfl, hprinted⟩ := exists_of_load_ok hload
    obtain ⟨hnoted, hgrows⟩ := noted_of_build hb
    have hcount : ((List.range b.tree.size).map b.tree.id?).count (some id) =
        ((listingAll nodes).map elementId?).count (some id) := by
      rw [hgrows.map_id?, List.count_cons_of_ne (by simp)]
    have htwo : .duplicateId id ∈ (load text .none).2.printed ↔
        2 ≤ (List.range b.tree.size).countP fun n => b.tree.id? n = some id := by
      rw [hprinted, hnoted.reported id, ← hcount, count_map_eq_some fun n => Iff.rfl]
    refine ⟨htwo, fun h => ?_⟩
    obtain ⟨m, -, hm⟩ := List.countP_pos_iff.mp (Nat.lt_of_lt_of_le Nat.zero_lt_two (htwo.mp h))
    exact hgrows.exists_elementById? hwell (of_decide_eq_true hm)
  · obtain ⟨nodes, b, hread, hb, hprinted⟩ := exists_of_load_missingTag hload
    have hreads := Builder.reads_attachAll .start Tree.root [] 0 nodes
    rw [show Builder.start.attachAll Tree.root [] 0 nodes = .error ⟨path, b⟩ from hb] at hreads
    cases hreads with
    | @stopped before behind _ d _ heq h hd hnoted =>
      refine ⟨nodes, before, d, behind, hread, heq, hd, h, fun id => ?_⟩
      rw [hprinted, hnoted.reported id, List.nil_append, count_map_eq_some fun e => elementId?_eq_some_iff]

/-- Two elements have the id `x`; `y` is the id of one element, and an attribute of a text. In the second text the
second element with the id `y` stands behind a node without a content. -/
theorem load_reports_twins :
    let twins := "[[\"p\", \x7b\"id\": \"x\"\x7d, [[\"b\", \x7b\"id\": \"x\"\x7d]]], " ++
      "[null, \x7b\"id\": \"y\"\x7d, [], \"a\"], [\"i\", \x7b\"id\": \"y\"\x7d]]"
    let gap := "[[\"p\", \x7b\"id\": \"x\"\x7d, [[\"b\", \x7b\"id\": \"x\"\x7d], [\"i\", \x7b\"id\": \"y\"\x7d]]], " ++
      "[], [\"i\", \x7b\"id\": \"y\"\x7d]]"
    (∃ t n, (load twins .none).1 = .ok t ∧ (load twins .none).2.printed = [.duplicateId "x"] ∧
      2 ≤ ((List.range t.size).countP fun n => t.id? n = some "x") ∧ t.elementById? Tree.root "x" = some n) ∧
    (load gap .none).1 = .error (.missingTag [1]) ∧ (load gap .none).2.printed = [.duplicateId "x"] ∧
      ∃ nodes before d behind, readDocument gap = .ok nodes ∧ placedAll [] 0 nodes = before ++ ([1], d) :: behind ∧
        2 ≤ (before.countP fun e => e.2.HasId "x") ∧ ¬ 2 ≤ before.countP fun e => e.2.HasId "y" := by
  intro twins gap
  have htwins : (load twins .none).2.printed = [.duplicateId "x"] := by decide +kernel
  have hgap : (load gap .none).2.printed = [.duplicateId "x"] := by decide +kernel
  have hsucceeds : (load twins .none).1.toOption.isSome := by decide +kernel
  have hfails : (load gap .none).1 = .error (.missingTag [1]) := by decide +kernel
  refine ⟨?_, hfails, hgap, ?_⟩
  · cases hload : (load twins .none).1 with
    | error e =>
      rw [hload] at hsucceeds
      cases hsucceeds
    | ok t =>
      obtain ⟨hiff, hfirst⟩ := (load_reports twins).1 t hload "x"
      have hx : .duplicateId "x" ∈ (load twins .none).2.printed := htwins ▸ List.mem_singleton_self _
      obtain ⟨n, hn, -⟩ := hfirst hx
      exact ⟨t, n, rfl, htwins, hiff.mp hx, hn⟩
  · obtain ⟨nodes, before, d, behind, hread, heq, -, -, hiff⟩ := (load_reports gap).2 [1] hfails
    have hx : .duplicateId "x" ∈ (load gap .none).2.printed := hgap ▸ List.mem_singleton_self _
    have hy : .duplicateId "y" ∉ (load gap .none).2.printed := by
      rw [hgap, List.mem_singleton, Warning.duplicateId_inj]
      decide
    exact ⟨nodes, before, d, behind, hread, heq, (hiff "x").mp hx, mt (hiff "y").mpr hy⟩

end Load

end Selectors
