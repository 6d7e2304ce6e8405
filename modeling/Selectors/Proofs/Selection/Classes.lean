import Selectors.Proofs.Element.Classes
import Selectors.Proofs.Tree.Contents
import Selectors.Selection

/-!
# Classes of selected elements

A class is added to all selected elements or removed from them. How often an element is selected makes no
difference, and what is no element is passed over. So the nodes that are found by another class are the
same as before, except that an added class may overwrite the classes of an element whose class text holds
blanks only.

* `Tree.hasClass_updateElements`, `Tree.elementsByClass_eq_filter`;
* **`hasClass_removeClass`**, **`removeClass_exactly`**: removing a class removes nothing else;
* `hasClass_addClass`, **`addClass_keeps`**: adding a class loses overwritten classes and no other ones;
* `addClass_no_break_space`: classes that are lost;
* **`addClass_twice_iff`**: when adding a class twice is adding it once; `addClass_two_words`: when it is not.
-/

namespace Selectors

variable {t u : Tree} {s : Selection} {n r : NodeId} {name d : String}

namespace Tree

/-! ## Changed elements -/

theorem hasClass_updateElements {f : Element → Element} (hf : ∀ e, f (f e) = f e) (t : Tree)
    (nodes : List NodeId) (n : NodeId) (d : String) : (t.updateElements nodes f).hasClass n d =
      (t.element? n).any fun e => (if n ∈ nodes then f e else e).hasClass d := by
  rw [hasClass, element?_updateElements_of_idem hf, Option.any_map]

theorem elementsByClass_eq_filter (hlinks : SameLinks t u) (p : NodeId → Bool)
    (h : ∀ n, u.hasClass n d = (t.hasClass n d && p n)) (r : NodeId) :
    u.elementsByClass r d = (t.elementsByClass r d).filter p := by
  unfold elementsByClass
  rw [hlinks.descendants_eq, List.filter_filter]
  simp only [h, Bool.and_comm]

end Tree

namespace Selection

open Element

/-! ## Removing -/

theorem removeClass_eq (s : Selection) (t : Tree) (name : String) :
    s.removeClass t name = t.updateElements s.nodes (·.removeClass name) := rfl

theorem element?_removeClass (s : Selection) (t : Tree) (name : String) (n : NodeId) :
    (s.removeClass t name).element? n =
      (t.element? n).map fun e => if n ∈ s.nodes then e.removeClass name else e := by
  rw [removeClass_eq, Tree.element?_updateElements_of_idem (f := (·.removeClass name))]
  exact fun e => removeClass_removeClass e name

/-- **The selected nodes do not have the class any more**; all else is as before. -/
theorem hasClass_removeClass (s : Selection) (t : Tree) (name : String) (n : NodeId) (d : String) :
    (s.removeClass t name).hasClass n d = (t.hasClass n d && !(d = name ∧ n ∈ s.nodes)) := by
  rw [removeClass_eq, Tree.hasClass_updateElements (f := (·.removeClass name))
    fun e => removeClass_removeClass e name]
  unfold Tree.hasClass
  cases t.element? n with
  | none => rfl
  | some e =>
    rw [Option.any_some, Option.any_some, Bool.eq_iff_iff]
    split
    · rename_i hn
      simp [Element.hasClass_removeClass, hn]
    · rename_i hn
      simp [hn]

/-- **Removing a class removes exactly that class**, and only from the selected elements. Their other
classes stay in their order and as often as they are there, an element without the class stays as it is,
and so does everything else: the other attributes, the contents of other nodes and all links. Doing it
again changes nothing. A lookup by another class finds what it found before, and a lookup by this one the
nodes that are not selected. -/
theorem removeClass_exactly (s : Selection) (t : Tree) (name : String) :
    (∀ n d, (s.removeClass t name).hasClass n d = true ↔
      t.hasClass n d = true ∧ ¬ (d = name ∧ n ∈ s.nodes)) ∧
    (∀ n e, t.element? n = some e → ∃ e', (s.removeClass t name).element? n = some e' ∧
      e'.classes = (if n ∈ s.nodes then e.classes.filter (· ≠ name) else e.classes) ∧
      (n ∉ s.nodes ∨ e.hasClass name = false → e' = e) ∧
      e'.tag = e.tag ∧ ∀ other, other ≠ "class" → e'.attr? other = e.attr? other) ∧
    (∀ n, t.element? n = none → (s.removeClass t name).content? n = t.content? n) ∧
    Tree.SameLinks t (s.removeClass t name) ∧
    s.removeClass (s.removeClass t name) name = s.removeClass t name ∧
    (∀ r d, d ≠ name → (s.removeClass t name).elementsByClass r d = t.elementsByClass r d) ∧
    ∀ r, (s.removeClass t name).elementsByClass r name =
      (t.elementsByClass r name).filter (· ∉ s.nodes) := by
  have hidem : ∀ e : Element, (e.removeClass name).removeClass name = e.removeClass name :=
    fun e => removeClass_removeClass e name
  have hlinks : Tree.SameLinks t (s.removeClass t name) := Tree.sameLinks_updateElements t s.nodes _
  have hlookup := fun r d =>
    Tree.elementsByClass_eq_filter (d := d) hlinks _ (hasClass_removeClass s t name · d) r
  refine ⟨fun n d => ?_, fun n e he => ?_,
    fun n hn => Tree.content?_updateElements (f := (·.removeClass name)) hn, hlinks,
    Tree.updateElements_updateElements (f := (·.removeClass name)) hidem t s.nodes,
    fun r d hd => ?_, fun r => ?_⟩
  · simp only [hasClass_removeClass, Bool.and_eq_true, Bool.not_eq_true', decide_eq_false_iff_not]
  · rw [element?_removeClass, he, Option.map_some]
    refine ⟨_, rfl, ?_⟩
    by_cases hn : n ∈ s.nodes
    · simp only [if_pos hn]
      exact ⟨classes_removeClass e name,
        fun h => removeClass_of_not_hasClass (h.resolve_left (not_not_intro hn)),
        tag_removeClass e name, fun other hother => attr?_removeClass hother e name⟩
    · simp only [if_neg hn]
      exact ⟨trivial, fun _ => trivial, trivial, fun _ _ => trivial⟩
  · rw [hlookup]
    simp [hd]
  · rw [hlookup]
    simp

/-! ## Adding -/

section

variable (hname : IsClassName name)
include hname

theorem hasClass_addClass (s : Selection) (t : Tree) (n : NodeId) (d : String) :
    (s.addClass t name).hasClass n d = true ↔ ∃ e, t.element? n = some e ∧
      if n ∈ s.nodes then d = name ∨ e.hasClass d = true ∧ ¬ e.OverwrittenBy name
      else e.hasClass d = true := by
  have hupdate : (s.addClass t name).hasClass n d =
      (t.element? n).any fun e => (if n ∈ s.nodes then e.addClass name else e).hasClass d :=
    Tree.hasClass_updateElements (f := (·.addClass name)) (addClass_addClass hname) t s.nodes n d
  rw [hupdate, Option.any_eq_true]
  apply exists_congr
  intro e
  split
  · rw [Element.hasClass_addClass hname]
  · rfl

/-- **Adding a class**: an element has the new class, and those it had unless they are overwritten. Only
then is another class lost. With a whole selection, a lookup by another class finds what it found before
but the selected elements whose classes are overwritten. -/
theorem addClass_keeps :
    (∀ (e : Element) d, (e.addClass name).hasClass d = true ↔
      d = name ∨ e.hasClass d = true ∧ ¬ e.OverwrittenBy name) ∧
    (∀ e : Element, (∀ d, d ≠ name → (e.addClass name).hasClass d = e.hasClass d) ↔
      ¬ e.OverwrittenBy name) ∧
    ∀ (s : Selection) (t : Tree) (r : NodeId) (d : String), d ≠ name →
      (s.addClass t name).elementsByClass r d = (t.elementsByClass r d).filter fun n =>
        ¬ (n ∈ s.nodes ∧ (t.element? n).any (·.OverwrittenBy name)) := by
  refine ⟨fun e d => Element.hasClass_addClass hname, fun e => addClass_keeps_iff hname,
    fun s t r d hd => ?_⟩
  apply Tree.elementsByClass_eq_filter (Tree.sameLinks_updateElements t s.nodes _)
  intro n
  rw [Bool.eq_iff_iff]
  refine (hasClass_addClass hname s t n d).trans ?_
  unfold Tree.hasClass
  cases t.element? n with
  | none => simp
  | some e => by_cases hn : n ∈ s.nodes <;> simp [hn, hd]

end

/-- Of two elements with a no-break space for a class, one has another class beside it. -/
theorem addClass_beside_old : IsClassName "new" ∧ ∃ t,
    t.elementsByClass Tree.root "\u00a0" = [1, 2] ∧ t.elementsByClass Tree.root "old" = [1] ∧
    ((ofNodes [2, 1, 1, 7]).addClass t "new").elementsByClass Tree.root "\u00a0" = [1] ∧
    ((ofNodes [2, 1, 1, 7]).addClass t "new").elementsByClass Tree.root "old" = [1] := by
  have hnew : IsClassName "new" := by decide +kernel
  obtain ⟨-, -, hlookup⟩ := addClass_keeps hnew
  let t : Tree := ⟨#[⟨.document, none, [1, 2], none, none⟩,
    ⟨.element ((ofTag "p").setAttr "class" "\u00a0 old"), some 0, [], none, some 2⟩,
    ⟨.element ((ofTag "p").setAttr "class" "\u00a0"), some 0, [], some 1, none⟩]⟩
  refine ⟨hnew, t, by decide +kernel, by decide +kernel, ?_, ?_⟩
  · rw [hlookup _ _ _ _ (by decide)]
    decide +kernel
  · rw [hlookup _ _ _ _ (by decide)]
    decide +kernel

/-- **A class that is lost**: a no-break space is trimmed, and yet it is a word. -/
theorem addClass_no_break_space : IsClassName "new" ∧
    ((ofTag "p").setAttr "class" "\u00a0").hasClass "\u00a0" = true ∧
    (((ofTag "p").setAttr "class" "\u00a0").addClass "new").hasClass "\u00a0" = false := by
  decide +kernel

/-! ## Adding twice -/

/-- **Adding a class twice is adding it once** exactly for the names that are absorbed: those without a
separator in them, whatever the class text is and however often an element is selected; and names of blanks
where the class text is made of blanks as well. A selection is changed a second time as soon as one selected
element does not absorb the name. -/
theorem addClass_twice_iff (e : Element) (s : Selection) (t : Tree) (name : String) :
    ((e.addClass name).addClass name = e.addClass name ↔ e.Absorbs name) ∧
    (s.addClass (s.addClass t name) name = s.addClass t name ↔
      ∀ n ∈ s.nodes, ∀ e, t.element? n = some e → e.Absorbs name) := by
  refine ⟨iterate_addClass_iff Nat.one_ne_zero, ?_⟩
  refine (Tree.updateElements_twice_iff t s.nodes (·.addClass name)).trans ?_
  apply forall_congr'
  intro n
  by_cases hn : n ∈ s.nodes
  · have hcount : s.nodes.count n ≠ 0 := Nat.pos_iff_ne_zero.mp (List.count_pos_iff.mpr hn)
    simp only [iterate_addClass_iff hcount, hn, true_implies]
  · simp [hn, List.count_eq_zero.mpr hn]

/-- **Two words that are added twice** stand there twice: as a whole they are no word of the class text. -/
theorem addClass_two_words :
    ((ofTag "p").addClass "a b").classText = "a b" ∧
    (((ofTag "p").addClass "a b").addClass "a b").classText = "a b a b" ∧
    ∃ t, (ofNodes [1]).addClass ((ofNodes [1]).addClass t "a b") "a b" ≠ (ofNodes [1]).addClass t "a b" := by
  let t : Tree := ⟨#[⟨.document, none, [1], none, none⟩, ⟨.element (ofTag "p"), some 0, [], none, none⟩]⟩
  exact ⟨by decide +kernel, by decide +kernel, t, by decide +kernel⟩

end Selection

end Selectors
