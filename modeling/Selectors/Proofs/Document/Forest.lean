import Selectors.Proofs.Document.Loaded
import Selectors.Proofs.Tree.Order

/-!
# Loaded forests

Loading numbers the described nodes in document order: behind a node stands everything below it, and only then
its next sibling. So every part of a description takes a stretch of numbers, and nothing that is built later
touches that stretch again.

* `Description.listing`, `Description.heads`: the described nodes in document order, and the numbers of those on
  top;
* `Tree.Lays`: a tree has described nodes at consecutive numbers; **`Lays.block`**: then what lies below a node
  has the numbers behind it;
* `Tree.Grows`, **`Builder.grows_attach`**: what attaching a description adds to a tree, and what it leaves;
* `Tree.Shows`, **`load_shows`**: the tree of a text shows what is described.
-/

namespace Selectors

namespace Description

/-! ## Document order -/

mutual

/-- A described node and all below it, each right before what lies below it. -/
def listing : Description → List Description
  | ⟨tag, attributes, children, text, comment⟩ =>
    ⟨tag, attributes, children, text, comment⟩ :: listingAll children

/-- Described nodes and all below them. -/
def listingAll : List Description → List Description
  | [] => []
  | d :: ds => d.listing ++ listingAll ds

end

/-- The numbers of described nodes, the first of which has the number `first`: each stands behind what lies
below the one before it. -/
def heads (first : NodeId) : List Description → List NodeId
  | [] => []
  | d :: ds => first :: heads (first + d.listing.length) ds

/-- The described node with a number in the tree of a document; `0` is the document. -/
def atNumber? (nodes : List Description) : NodeId → Option Description
  | 0 => none
  | n + 1 => (listingAll nodes)[n]?

variable {d : Description} {ds nodes : List Description}

theorem listing_eq (d : Description) : d.listing = d :: listingAll d.children := by
  cases d
  rw [listing]

@[simp] theorem listingAll_nil : listingAll [] = [] := by rw [listingAll]

@[simp] theorem listingAll_cons (d : Description) (ds : List Description) :
    listingAll (d :: ds) = d.listing ++ listingAll ds := by rw [listingAll]

theorem listingAll_singleton (d : Description) : listingAll [d] = d.listing := by
  rw [listingAll_cons, listingAll_nil, List.append_nil]

mutual

theorem prefix_drop_listing {i : Nat} (d e : Description) (h : e.listing[i]? = some d) :
    d.listing <+: e.listing.drop i := by
  obtain ⟨tag, attributes, children, text, comment⟩ := e
  rw [listing] at h ⊢
  cases i with
  | zero =>
    obtain rfl := Option.some.inj h
    exact ⟨[], by rw [List.append_nil, List.drop_zero, listing]⟩
  | succ i => exact prefix_drop_listingAll d children h

theorem prefix_drop_listingAll {i : Nat} (d : Description) (ds : List Description)
    (h : (listingAll ds)[i]? = some d) : d.listing <+: (listingAll ds).drop i := by
  cases ds with
  | nil =>
    rw [listingAll_nil] at h
    cases h
  | cons e ds =>
    rw [listingAll_cons] at h ⊢
    rcases Nat.lt_or_ge i e.listing.length with hi | hi
    · rw [List.getElem?_append_left hi] at h
      rw [List.drop_append_of_le_length (Nat.le_of_lt hi)]
      exact (prefix_drop_listing d e h).trans (List.prefix_append _ _)
    · rw [List.getElem?_append_right hi] at h
      rw [List.drop_append, List.drop_eq_nil_of_le hi, List.nil_append]
      exact prefix_drop_listingAll d ds h

end

theorem prefix_drop_add {α : Type} {l l' all : List α} {n : Nat} (h : l ++ l' <+: all.drop n) :
    l' <+: all.drop (n + l.length) := by
  obtain ⟨behind, hbehind⟩ := h
  exact ⟨behind, by rw [← List.drop_drop, ← hbehind, List.append_assoc, List.drop_left]⟩

theorem map_atNumber?_heads {n : Nat} (h : listingAll ds <+: (listingAll nodes).drop n) :
    (heads (n + 1) ds).map (atNumber? nodes) = ds.map some := by
  induction ds generalizing n with
  | nil => rfl
  | cons d ds ih =>
    rw [listingAll_cons] at h
    have hfirst : atNumber? nodes (n + 1) = some d := by
      obtain ⟨behind, hbehind⟩ := h
      show (listingAll nodes)[n]? = some d
      rw [← List.head?_drop, ← hbehind, listing_eq]
      rfl
    have hothers := ih (prefix_drop_add h)
    rw [Nat.add_right_comm] at hothers
    rw [heads, List.map_cons, hfirst, hothers, List.map_cons]

/-! ## Contents -/

/-- **What a described node is**: a text if it has one, else a comment if it has one, else an element with its
tag and its attributes. -/
inductive HasContent (d : Description) : Content → Prop
  | text {data : String} (h : d.text = some data) : HasContent d (.text data)
  | comment {data : String} (htext : d.text = none) (h : d.comment = some data) :
      HasContent d (.comment data)
  | element {tag : String} (htext : d.text = none) (hcomment : d.comment = none) (h : d.tag = some tag) :
      HasContent d (.element ⟨tag, d.attributes⟩)

theorem exists_hasContent (h : d.text.isSome ∨ d.comment.isSome ∨ d.tag.isSome) :
    ∃ c, d.content? = some c ∧ d.HasContent c := by
  unfold content?
  cases htext : d.text with
  | some data => exact ⟨_, rfl, .text htext⟩
  | none =>
    cases hcomment : d.comment with
    | some data => exact ⟨_, rfl, .comment htext hcomment⟩
    | none =>
      cases htag : d.tag with
      | some tag => exact ⟨_, rfl, .element htext hcomment htag⟩
      | none => simp [htext, hcomment, htag] at h

end Description

open Description

namespace Tree

variable {t u : Tree} {first parent : NodeId} {d : Description} {ds : List Description}
  {l l' : List Description}

/-! ## Described nodes in a tree -/

/-- From `first` on, the nodes of the tree are those listed, and their children are as described. -/
def Lays (t : Tree) (first : NodeId) (l : List Description) : Prop :=
  ∀ i d, l[i]? = some d →
    t.content? (first + i) = d.content? ∧ t.children (first + i) = heads (first + i + 1) d.children

namespace Lays

theorem nil (t : Tree) (first : NodeId) : t.Lays first [] := fun i _ h => by cases i <;> cases h

theorem cons (hcontent : t.content? first = d.content?)
    (hchildren : t.children first = heads (first + 1) d.children) (h : t.Lays (first + 1) l) :
    t.Lays first (d :: l) := by
  intro i e he
  cases i with
  | zero =>
    obtain rfl := Option.some.inj he
    exact ⟨hcontent, hchildren⟩
  | succ i =>
    rw [← Nat.succ_add_eq_add_succ]
    exact h i e he

theorem append (h : t.Lays first l) (h' : t.Lays (first + l.length) l') : t.Lays first (l ++ l') := by
  intro i d hd
  rcases Nat.lt_or_ge i l.length with hi | hi
  · rw [List.getElem?_append_left hi] at hd
    exact h i d hd
  · rw [List.getElem?_append_right hi] at hd
    have hdrop := h' _ d hd
    rwa [Nat.add_assoc, Nat.add_sub_cancel' hi] at hdrop

theorem stretch (h : t.Lays first l) {n : Nat} (hl : l' <+: l.drop n) : t.Lays (first + n) l' := by
  intro i d hd
  obtain ⟨behind, hbehind⟩ := hl
  have hn : l[n + i]? = some d := by
    rw [← List.getElem?_drop, ← hbehind]
    exact List.getElem?_append_left (List.getElem?_eq_some_iff.mp hd).1 ▸ hd
  rw [Nat.add_assoc]
  exact h (n + i) d hn

theorem congr (h : t.Lays first l) (hu : ∀ m, first ≤ m → m < first + l.length →
    u.content? m = t.content? m ∧ u.children m = t.children m) : u.Lays first l := by
  intro i d hd
  have hi := (List.getElem?_eq_some_iff.mp hd).1
  obtain ⟨hcontent, hchildren⟩ := hu (first + i) (Nat.le_add_right _ _) (Nat.add_lt_add_left hi _)
  rw [hcontent, hchildren]
  exact h i d hd

mutual

/-- **What lies below a node has the numbers behind it.** -/
theorem block (ht : t.WellFormed) (n : NodeId) (d : Description) (h : t.Lays n d.listing) :
    n :: t.descendants n = List.range' n d.listing.length := by
  obtain ⟨tag, attributes, children, text, comment⟩ := d
  rw [listing] at h ⊢
  -- the children are the heads of the stretch behind the node, and their blocks fill it
  have hchildren := (h 0 _ rfl).2
  have hbelow := blocks ht (n + 1) children (h.stretch (n := 1) (List.prefix_refl _))
  rw [ht.descendants_eq, List.length_cons, List.range'_succ, ← hbelow]
  exact congrArg (n :: List.flatMap _ ·) hchildren

theorem blocks (ht : t.WellFormed) (first : NodeId) (ds : List Description)
    (h : t.Lays first (listingAll ds)) :
    ((heads first ds).flatMap fun c => c :: t.descendants c) =
      List.range' first (listingAll ds).length := by
  cases ds with
  | nil =>
    rw [listingAll_nil]
    rfl
  | cons d ds =>
    rw [listingAll_cons] at h ⊢
    have hd := block ht first d (h.stretch (n := 0) (List.prefix_append _ _))
    have hrest := blocks ht (first + d.listing.length) ds
      (h.stretch ⟨[], by rw [List.append_nil, List.drop_left]⟩)
    rw [heads, List.flatMap_cons, hd, hrest, List.length_append, List.range'_append_1]

end

end Lays

/-! ## Growing -/

/-- **What attaching descriptions adds to a tree**: the nodes they list, behind those that there were, and their
heads as the last children of `parent`. All else stays. -/
structure Grows (t : Tree) (parent : NodeId) (ds : List Description) (u : Tree) : Prop where
  size : u.size = t.size + (listingAll ds).length
  content : ∀ m < t.size, u.content? m = t.content? m
  children : ∀ m < t.size,
    u.children m = if m = parent then t.children parent ++ heads t.size ds else t.children m
  lays : u.Lays t.size (listingAll ds)

namespace Grows

theorem refl (t : Tree) (parent : NodeId) : t.Grows parent [] t where
  size := by rw [listingAll_nil]; rfl
  content _ _ := rfl
  children m _ := by
    split
    · rename_i hm
      rw [hm, heads, List.append_nil]
    · rfl
  lays := by rw [listingAll_nil]; exact .nil t _

theorem trans {mid : Tree} (hp : parent < t.size) (h : t.Grows parent [d] mid)
    (h' : mid.Grows parent ds u) : t.Grows parent (d :: ds) u := by
  have hsize := h.size
  have hlays := h.lays
  rw [listingAll_singleton] at hsize hlays
  have hlt : ∀ {m}, m < t.size → m < mid.size := fun hm =>
    Nat.lt_of_lt_of_le hm (hsize ▸ Nat.le_add_right _ _)
  refine ⟨?_, fun m hm => (h'.content m (hlt hm)).trans (h.content m hm), fun m hm => ?_, ?_⟩
  · rw [h'.size, hsize, listingAll_cons, List.length_append, Nat.add_assoc]
  · rw [h'.children m (hlt hm), h.children parent hp, h.children m hm]
    split
    · rw [if_pos rfl, hsize, List.append_assoc]
      rfl
    · rfl
  · rw [listingAll_cons]
    -- what is attached later changes no links of the stretch, since `parent` stands before it
    refine .append (hlays.congr fun m hge hm => ?_) (hsize ▸ h'.lays)
    rw [← hsize] at hm
    have hne : m ≠ parent := fun heq => absurd (heq ▸ hge) (Nat.not_le_of_lt hp)
    exact ⟨h'.content m hm, (h'.children m hm).trans (if_neg hne)⟩

theorem node {content : Content} (hp : parent < t.size) (hcontent : d.content? = some content)
    (h : ((t.alloc content).1.attach parent t.size).Grows t.size d.children u) : t.Grows parent [d] u := by
  obtain ⟨hsize, hcontents, hchildren, hlays⟩ := h
  rw [size_attach, size_alloc] at *
  have hp' : parent < (t.alloc content).1.size := by
    rw [size_alloc]
    exact Nat.lt_succ_of_lt hp
  have hnone : t.children t.size = [] := children_eq_nil (Nat.le_refl _)
  refine ⟨?_, fun m hm => ?_, fun m hm => ?_, ?_⟩
  · rw [hsize, listingAll_singleton, listing_eq, List.length_cons, Nat.add_right_comm, Nat.add_assoc]
  · rw [hcontents m (Nat.lt_succ_of_lt hm), content?_attach, content?_alloc, if_neg (Nat.ne_of_lt hm)]
  · rw [hchildren m (Nat.lt_succ_of_lt hm), if_neg (Nat.ne_of_lt hm), children_attach hp', children_alloc,
      children_alloc]
    rfl
  · rw [listingAll_singleton, listing_eq]
    refine .cons ?_ ?_ hlays
    · rw [hcontents _ (Nat.lt_succ_self _), content?_attach, content?_alloc, if_pos rfl, hcontent]
    · rw [hchildren _ (Nat.lt_succ_self _), if_pos rfl, children_attach hp', if_neg (Nat.ne_of_gt hp),
        children_alloc, hnone, List.nil_append]

end Grows

end Tree

/-! ## Building -/

namespace Builder

open Selectors.Tree

mutual

/-- **Attaching a complete description succeeds**, and the tree grows by what is described. -/
theorem grows_attach {b : Builder} {parent : NodeId} (path : List Nat) (d : Description)
    (hb : b.tree.Linked) (hp : parent < b.tree.size) (hd : ∀ e ∈ d.listing, e.content? ≠ none) :
    ∃ b', b.attach parent path d = .ok b' ∧ b.tree.Grows parent [d] b'.tree := by
  obtain ⟨tag, attributes, children, text, comment⟩ := d
  rw [listing] at hd
  obtain ⟨content, hcontent⟩ := Option.ne_none_iff_exists'.mp (hd _ List.mem_cons_self)
  -- noting an id leaves the tree as it is
  have hb₁ : (b.note content).tree.Linked := (tree_note b content).symm ▸ hb
  have hp₁ : parent < (b.note content).tree.size := (tree_note b content).symm ▸ hp
  obtain ⟨hadd, hsize⟩ := linked_add content hb₁ hp₁
  have hn : (b.note content).tree.size < ((b.note content).add parent content).1.tree.size := by
    rw [hsize]
    exact Nat.lt_succ_self _
  obtain ⟨b', hb', hgrows⟩ := grows_attachAll path 0 children hadd hn
    fun e he => hd e (List.mem_cons_of_mem _ he)
  rw [tree_add hb₁ hp₁, tree_note] at hgrows
  refine ⟨b', ?_, .node hp hcontent hgrows⟩
  rw [attach, hcontent, ← hb']
  rfl

theorem grows_attachAll {b : Builder} {parent : NodeId} (path : List Nat) (index : Nat)
    (ds : List Description) (hb : b.tree.Linked) (hp : parent < b.tree.size)
    (hds : ∀ e ∈ listingAll ds, e.content? ≠ none) :
    ∃ b', b.attachAll parent path index ds = .ok b' ∧ b.tree.Grows parent ds b'.tree := by
  cases ds with
  | nil => exact ⟨b, by rw [attachAll], .refl b.tree parent⟩
  | cons d ds =>
    rw [listingAll_cons] at hds
    obtain ⟨mid, hmid, hgrows⟩ := grows_attach (path ++ [index]) d hb hp
      fun e he => hds e (List.mem_append_left _ he)
    obtain ⟨hlinked, hle⟩ := linked_attach hb hp hmid
    obtain ⟨b', hb', hgrows'⟩ := grows_attachAll path (index + 1) ds hlinked (Nat.lt_of_lt_of_le hp hle)
      fun e he => hds e (List.mem_append_right _ he)
    refine ⟨b', ?_, hgrows.trans hp hgrows'⟩
    rw [attachAll, hmid]
    exact hb'

end

end Builder

/-! ## Documents -/

/-- **A tree shows a document**: but for the document its nodes are the described ones, numbered in document
order, and each of them is what is described, has the children described, and has all that lies below it at
the numbers behind its own. -/
structure Tree.Shows (t : Tree) (nodes : List Description) : Prop where
  document : t.content? root = some .document
  size : t.size = (listingAll nodes).length + 1
  top : (t.children root).map (atNumber? nodes) = nodes.map some
  order : t.descendants root = List.range' 1 (listingAll nodes).length
  content : ∀ n d, atNumber? nodes n = some d → ∃ c, d.HasContent c ∧ t.content? n = some c
  children : ∀ n d, atNumber? nodes n = some d →
    (t.children n).map (atNumber? nodes) = d.children.map some
  block : ∀ n d, atNumber? nodes n = some d → n :: t.descendants n = List.range' n d.listing.length

theorem Tree.Grows.order {t : Tree} {nodes : List Description} (ht : t.WellFormed)
    (h : Tree.new.Grows root nodes t) : t.descendants root = List.range' 1 (listingAll nodes).length := by
  have hroot : t.children root = heads 1 nodes := (h.children root Nat.zero_lt_one).trans (if_pos rfl)
  rw [ht.descendants_eq, hroot]
  exact h.lays.blocks ht 1 nodes

theorem Tree.Grows.shows {t : Tree} {nodes : List Description} (ht : t.WellFormed)
    (h : Tree.new.Grows root nodes t)
    (hcomplete : ∀ d ∈ listingAll nodes, ∃ c, d.content? = some c ∧ d.HasContent c) : t.Shows nodes := by
  have hroot : t.children root = heads 1 nodes := (h.children root Nat.zero_lt_one).trans (if_pos rfl)
  have hlays : t.Lays 1 (listingAll nodes) := h.lays
  have hall : ∀ n d, atNumber? nodes n = some d → (∃ c, d.HasContent c ∧ t.content? n = some c) ∧
      (t.children n).map (atNumber? nodes) = d.children.map some ∧
      n :: t.descendants n = List.range' n d.listing.length := by
    intro n d hd
    obtain ⟨i, rfl⟩ : ∃ i, n = 1 + i := by
      cases n with
      | zero => cases hd
      | succ i => exact ⟨i, Nat.add_comm i 1⟩
    have hi : (listingAll nodes)[i]? = some d := by rwa [Nat.add_comm] at hd
    have hprefix := prefix_drop_listingAll d nodes hi
    obtain ⟨c, hc, hcontent⟩ := hcomplete d (List.mem_of_getElem? hi)
    refine ⟨⟨c, hcontent, (hlays i d hi).1.trans hc⟩, ?_, (hlays.stretch hprefix).block ht (1 + i) d⟩
    rw [listing_eq] at hprefix
    rw [(hlays i d hi).2, Nat.add_comm 1 i]
    exact map_atNumber?_heads (prefix_drop_add (l := [d]) hprefix)
  refine ⟨h.content root Nat.zero_lt_one, h.size.trans (Nat.add_comm _ _), ?_, h.order ht,
    fun n d hd => (hall n d hd).1, fun n d hd => (hall n d hd).2.1, fun n d hd => (hall n d hd).2.2⟩
  rw [hroot]
  exact map_atNumber?_heads (List.prefix_refl _)

/-- **The tree of a text shows what the text describes**, if each described node has a text, a comment or a tag:
then there is such a tree, and its links are consistent. -/
theorem load_shows {text : String} {nodes : List Description} (hread : readDocument text = .ok nodes)
    (hcomplete : ∀ d ∈ listingAll nodes, d.text.isSome ∨ d.comment.isSome ∨ d.tag.isSome)
    (ws : Warnings) : ∃ t, (load text ws).1 = .ok t ∧ t.Consistent ∧ t.Shows nodes := by
  have hcontents := fun d hd => exists_hasContent (hcomplete d hd)
  have hne : ∀ d ∈ listingAll nodes, d.content? ≠ none := by
    intro d hd
    obtain ⟨c, hc, -⟩ := hcontents d hd
    exact Option.ne_none_iff_exists'.mpr ⟨c, hc⟩
  obtain ⟨b, hb, hgrows⟩ :=
    @Builder.grows_attachAll .start Tree.root [] 0 nodes Tree.linked_new Nat.zero_lt_one hne
  have hload : (load text ws).1 = .ok b.tree := by
    have hbuild : build nodes = .ok b := hb
    rw [load, hread]
    dsimp only
    rw [hbuild]
  have hlinked := linked_load hload
  exact ⟨b.tree, hload, hlinked.consistent, hgrows.shows hlinked.toWellFormed hcontents⟩

/-- A list with an item and with a text, which has a tag as well; a comment stands behind the list. -/
theorem load_shows_list :
    let text := "[[\"ul\", \x7b\x7d, [[\"b\", \x7b\x7d, [], \"a\"], [\"li\"]]], \x7b\"comment\": \"c\"\x7d]"
    ∃ nodes t, readDocument text = .ok nodes ∧
      (listingAll nodes).map (fun d => (d.text, d.comment, d.tag)) = [(none, none, some "ul"),
        (some "a", none, some "b"), (none, none, some "li"), (none, some "c", none)] ∧
      (load text .none).1 = .ok t ∧ t.Consistent ∧ t.Shows nodes := by
  intro text
  obtain ⟨nodes, hread, hmembers⟩ : ∃ nodes, readDocument text = .ok nodes ∧
      (listingAll nodes).map (fun d => (d.text, d.comment, d.tag)) = [(none, none, some "ul"),
        (some "a", none, some "b"), (none, none, some "li"), (none, some "c", none)] := by
    have hcomputed : (readDocument text).toOption.map (fun nodes =>
        (listingAll nodes).map fun d => (d.text, d.comment, d.tag)) = some [(none, none, some "ul"),
          (some "a", none, some "b"), (none, none, some "li"), (none, some "c", none)] := by
      decide +kernel
    cases hread : readDocument text with
    | error e => rw [hread] at hcomputed; cases hcomputed
    | ok nodes =>
      rw [hread] at hcomputed
      exact ⟨nodes, rfl, Option.some.inj hcomputed⟩
  have hcomplete : ∀ d ∈ listingAll nodes, d.text.isSome ∨ d.comment.isSome ∨ d.tag.isSome := by
    have hall : ∀ x ∈ (listingAll nodes).map (fun d => (d.text, d.comment, d.tag)),
        x.1.isSome ∨ x.2.1.isSome ∨ x.2.2.isSome := by
      rw [hmembers]
      decide
    exact fun d hd => hall _ (List.mem_map_of_mem hd)
  obtain ⟨t, hload, hconsistent, hshows⟩ := load_shows hread hcomplete .none
  exact ⟨nodes, t, hread, hmembers, hload, hconsistent, hshows⟩

end Selectors
