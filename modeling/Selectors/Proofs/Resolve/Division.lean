import Selectors.Document.Loader
import Selectors.Proofs.Scanner.Grammar
import Selectors.Proofs.Scanner.Lexed
import Selectors.Resolve.Query

/-!
# Dividing compound tokens

The text of a compound token is an identifier, a separator and another identifier, in just one way. Finders
and matchers divide it at the first separator. That is the same place unless the first identifier has an
escaped separator: then they divide it there, inside of the identifier.

* **`isIdent_iff_matches`**: identifiers are the texts that the standard macro matches from end to end;
* `Divides`: a text divided into two identifiers; `Divides.unique`;
* `IsIdent.exists_escaped`: how an identifier holds a separator;
* **`divides_of_mem_tokenize`**: the compound tokens of a selector.
-/

namespace Selectors

namespace Lexer

open Pattern

variable {w name value : List Char} {mark : Char}

/-! ## The macro for identifiers -/

/-- The standard macro for identifiers, anchored at both ends of the text. -/
def wholeIdent : Pattern := ofParts (.textStart :: (identParts ++ [.textEnd]))

theorem read?_wholeIdent :
    (MacroTable.standard.expand "^(?:#{ident})$".toList).toOption.bind Pattern.read? =
      some wholeIdent := by
  decide +kernel

/-- The macro matches a text from end to end. -/
def MatchesIdent (w : List Char) : Prop :=
  wholeIdent.automaton.matchAt 0 w = some ⟨0, w.length, []⟩

theorem ways_wholeIdent (w : List Char) : wholeIdent.ways 0 w =
    (identWays 0 w).flatMap fun k => if w.drop k = [] then [k] else [] := by
  have hways : wholeIdent.ways =
      Pattern.textStart.ways.andThen (identWays.andThen Pattern.textEnd.ways) := by
    unfold identWays
    show Ways.andThen _ (Ways.andThen _ (Ways.andThen _ (Ways.andThen _ _))) =
      Ways.andThen _ (Ways.andThen (Ways.andThen _ (Ways.andThen _ _)) _)
    rw [Ways.andThen_assoc, Ways.andThen_assoc]
    rfl
  rw [hways]
  show [0].flatMap _ = _
  rw [List.flatMap_singleton, List.drop_zero]
  simp only [Nat.zero_add, List.map_id']
  show (identWays 0 w).flatMap _ = _
  refine List.flatMap_congr fun k _ => ?_
  show (if w.drop k = [] then [0] else []).map (k + ·) = _
  split <;> rfl

/-- **An identifier is a text that the macro matches from end to end.** -/
theorem isIdent_iff_matches (h : Plain w) : IsIdent w ↔ MatchesIdent w := by
  have hmatch : MatchesIdent w ↔ (wholeIdent.ways 0 w).head? = some w.length := by
    unfold MatchesIdent
    rw [matchAt_eq rfl]
    cases (wholeIdent.ways 0 w).head? with
    | none => simp
    | some k => simp
  rw [hmatch, ways_wholeIdent]
  constructor
  · intro hident
    have hhead : (identWays 0 w).head? = some w.length := by
      rw [head?_identWays h, isIdent_iff_ident?.mp hident]
    obtain ⟨rest, hrest⟩ := List.head?_eq_some_iff.mp hhead
    rw [hrest, List.flatMap_cons, List.drop_length, if_pos rfl]
    rfl
  · intro hhead
    obtain ⟨k, hk, hmem⟩ := List.mem_flatMap.mp (List.mem_of_head? hhead)
    split at hmem
    · obtain rfl := List.mem_singleton.mp hmem
      have hident := (isIdent_of_mem_ways h hk).2
      rwa [List.take_length] at hident
    · cases hmem

/-! ## Two identifiers -/

/-- A text is an identifier, a mark and another identifier. -/
structure Divides (mark : Char) (text name value : List Char) : Prop where
  text_eq : text = name ++ mark :: value
  name_isIdent : IsIdent name
  value_isIdent : IsIdent value

/-- **A text divides in one way only**: the first part is the longest identifier. -/
theorem Divides.unique {text name' value' : List Char} (hmark : IsMark mark)
    (h : Divides mark text name value) (h' : Divides mark text name' value') :
    name = name' ∧ value = value' := by
  have hlongest : ∀ {name value}, Divides mark text name value → ident? text = some name.length := by
    rintro name value ⟨rfl, hname, -⟩
    exact ident?_append_mark hname hmark value
  have hlength : name.length = name'.length :=
    Option.some.inj ((hlongest h).symm.trans (hlongest h'))
  obtain ⟨hname, hrest⟩ := List.append_inj (h.text_eq.symm.trans h'.text_eq) hlength
  exact ⟨hname, (List.cons.inj hrest).2⟩

/-! ## Separators in identifiers -/

/-- The first `mark` in a text stands behind a backslash. -/
def FirstEscaped (mark : Char) (w before behind : List Char) : Prop :=
  w = before ++ '\\' :: mark :: behind ∧ mark ∉ before

theorem FirstEscaped.append {u before behind : List Char} (hu : mark ∉ u)
    (h : FirstEscaped mark w before behind) : FirstEscaped mark (u ++ w) (u ++ before) behind := by
  obtain ⟨rfl, hbefore⟩ := h
  refine ⟨(List.append_assoc ..).symm, fun hmem => ?_⟩
  exact (List.mem_append.mp hmem).elim hu hbefore

theorem IsItem.eq_of_mem {isChar : Char → Bool} (hmark : IsMark mark) (hchar : isChar mark = false)
    (h : IsItem isChar w) (hmem : mark ∈ w) : w = ['\\', mark] := by
  have hhex : isHex mark = false := by
    refine Bool.eq_false_iff.mpr fun hhex => ?_
    exact Bool.false_ne_true (hmark.1.symm.trans (isName_of_isHex hhex))
  have hdigits : ∀ {digits : List Char}, (∀ c ∈ digits, isHex c = true) → mark ∉ digits :=
    fun hdigits hd => Bool.false_ne_true (hhex.symm.trans (hdigits mark hd))
  cases h with
  | char hc =>
    obtain rfl := List.mem_singleton.mp hmem
    exact absurd hc (Bool.eq_false_iff.mp hchar)
  | escape h =>
    cases h with
    | hex _ _ hd =>
      rcases List.mem_cons.mp hmem with hslash | hd'
      · exact absurd hslash hmark.2.1
      · exact absurd hd' (hdigits hd)
    | spaced _ _ hd =>
      rcases List.mem_cons.mp hmem with hslash | hd'
      · exact absurd hslash hmark.2.1
      · rcases List.mem_append.mp hd' with hd' | hspace
        · exact absurd hd' (hdigits hd)
        · exact absurd (List.mem_singleton.mp hspace) hmark.2.2
    | other =>
      rcases List.mem_cons.mp hmem with hslash | hc
      · exact absurd hslash hmark.2.1
      · rw [List.mem_singleton.mp hc]

theorem IsItem.exists_escaped {isChar : Char → Bool} {t : List Char} (hmark : IsMark mark)
    (hchar : isChar mark = false) (h : IsItem isChar w) (hmem : mark ∈ w ++ t)
    (ht : mark ∈ t → ∃ before behind, FirstEscaped mark t before behind) :
    ∃ before behind, FirstEscaped mark (w ++ t) before behind := by
  by_cases hw : mark ∈ w
  · rw [h.eq_of_mem hmark hchar hw]
    exact ⟨[], t, rfl, List.not_mem_nil⟩
  · obtain ⟨before, behind, hfirst⟩ := ht ((List.mem_append.mp hmem).resolve_left hw)
    exact ⟨w ++ before, behind, hfirst.append hw⟩

theorem AreItems.exists_escaped (hmark : IsMark mark) (h : AreItems w) (hmem : mark ∈ w) :
    ∃ before behind, FirstEscaped mark w before behind := by
  induction h with
  | nil => cases hmem
  | append h _ ih => exact h.exists_escaped hmark hmark.1 hmem ih

/-- **An identifier holds a mark only behind a backslash.** -/
theorem IsIdent.exists_escaped (hmark : IsMark mark) (hsign : isSign mark = false) (h : IsIdent w)
    (hmem : mark ∈ w) : ∃ before behind, FirstEscaped mark w before behind := by
  have hstart : isStart mark = false := by
    refine Bool.eq_false_iff.mpr fun hstart => ?_
    exact Bool.false_ne_true (hmark.1.symm.trans (isName_iff.mpr (Or.inl hstart)))
  cases h with
  | unsigned hitem ht =>
    exact hitem.exists_escaped hmark hstart hmem fun hmem => ht.exists_escaped hmark hmem
  | @signed c _ _ hc hitem ht =>
    have hne : mark ≠ c := by
      rintro rfl
      exact Bool.false_ne_true (hsign.symm.trans hc)
    obtain ⟨before, behind, hfirst⟩ := hitem.exists_escaped hmark hstart
      ((List.mem_cons.mp hmem).resolve_left hne) fun hmem => ht.exists_escaped hmark hmem
    exact ⟨c :: before, behind, hfirst.append (u := [c]) (fun h => hne (List.mem_singleton.mp h))⟩

/-! ## Fragments -/

theorem exists_divides_of_pair? {cs : List Char} {n : Nat} (h : pair? mark cs = some n) :
    ∃ name value, Divides mark (cs.take n) name value := by
  obtain ⟨-, name, value, heq, hname, hvalue⟩ := isIdent_of_pair? h
  exact ⟨name, value, heq, hname, hvalue⟩

theorem exists_fragment_of_mem {run cs : List Char} {token : Token} (h : token ∈ (lexBehind run cs).1) :
    ∃ k n, fragment? (cs.drop k) = some (token.kind, n) ∧
      token.identity = .ofList ((cs.drop k).take n) := by
  induction hl : cs.length using Nat.strong_induction_on generalizing cs run with
  | h l ih =>
  cases cs with
  | nil =>
    rw [lexBehind_nil] at h
    cases h
  | cons c cs =>
    cases hf : fragment? (c :: cs) with
    | none =>
      rw [lexBehind_of_none hf] at h
      obtain ⟨k, n, hk⟩ := ih cs.length (hl ▸ Nat.lt_succ_self _) h rfl
      exact ⟨k + 1, n, hk⟩
    | some f =>
      obtain ⟨kind, m⟩ := f
      rw [lexBehind_of_some hf] at h
      rcases List.mem_cons.mp h with rfl | h
      · exact ⟨0, m, hf, rfl⟩
      · obtain ⟨k, n, hk⟩ := ih _ (hl ▸ length_drop_lt hf) h rfl
        rw [List.drop_drop] at hk
        exact ⟨m + k, n, hk⟩

end Lexer

/-! ## Compound tokens -/

/-- What stands between the two identifiers of a compound token. -/
def RuleKind.separator? : RuleKind → Option Char
  | nameAndId => some '#'
  | nameAndClass => some '.'
  | id | className | element | pseudoClass => none

/-- A node has the id, or the class, that a compound token asks for. -/
def RuleKind.holdsValue (kind : RuleKind) (t : Tree) (n : NodeId) (value : String) : Bool :=
  if kind = nameAndId then t.id? n == some value else t.hasClass n value

/-- The nodes below `root` with that id or class, as far as they are looked up. -/
def RuleKind.findValue (kind : RuleKind) (t : Tree) (root : NodeId) (value : String) : List NodeId :=
  if kind = nameAndId then (t.elementById? root value).toList else t.elementsByClass root value

open Lexer

section

variable {text : String} {mark : Char} {before behind : List Char}

theorem not_mem_beforeFirst (mark : Char) (text : String) : mark ∉ (beforeFirst mark text).toList := by
  unfold beforeFirst
  rw [String.toList_ofList]
  intro hmem
  simpa using List.mem_takeWhile_imp hmem

theorem beforeFirst_eq (h : text.toList = before ++ mark :: behind) (hbefore : mark ∉ before) :
    beforeFirst mark text = .ofList before := by
  have hall : ∀ c ∈ before, decide (c ≠ mark) = true := fun c hc =>
    decide_eq_true fun heq => hbefore (heq ▸ hc)
  unfold beforeFirst
  rw [h, List.takeWhile_append_of_pos hall, List.takeWhile_cons_of_neg (by simp), List.append_nil]

theorem afterFirst_eq (h : text.toList = before ++ mark :: behind) (hbefore : mark ∉ before) :
    afterFirst mark text = .ofList behind := by
  have hall : ∀ c ∈ before, decide (c ≠ mark) = true := fun c hc =>
    decide_eq_true fun heq => hbefore (heq ▸ hc)
  unfold afterFirst
  rw [h, List.dropWhile_append_of_pos hall, List.dropWhile_cons_of_neg (by simp)]
  rfl

theorem split_of_firstEscaped {name value : List Char} (h : text.toList = name ++ mark :: value)
    (hfirst : FirstEscaped mark name before behind) (hslash : mark ≠ '\\') :
    beforeFirst mark text = .ofList (before ++ ['\\']) ∧
      afterFirst mark text = .ofList (behind ++ mark :: value) := by
  obtain ⟨rfl, hbefore⟩ := hfirst
  have htext : text.toList = (before ++ ['\\']) ++ mark :: (behind ++ mark :: value) := by
    rw [h]
    simp
  have hnot : mark ∉ before ++ ['\\'] := by
    intro hmem
    rcases List.mem_append.mp hmem with hmem | hmem
    · exact hbefore hmem
    · exact hslash (List.mem_singleton.mp hmem)
  exact ⟨beforeFirst_eq htext hnot, afterFirst_eq htext hnot⟩

end

namespace Token

variable {selector : String} {token : Token} {mark : Char}

theorem isMark_of_separator? (hmark : token.kind.separator? = some mark) :
    IsMark mark ∧ isSign mark = false ∧ length? token.kind = pair? mark := by
  obtain ⟨identity, kind⟩ := token
  cases kind with
  | nameAndId | nameAndClass =>
    obtain rfl := Option.some.inj hmark
    exact ⟨by decide, by decide, rfl⟩
  | id | className | element | pseudoClass => cases hmark

theorem exists_divides (h : token ∈ tokenize selector) (hmark : token.kind.separator? = some mark) :
    Plain token.identity.toList ∧ ∃ name value, Divides mark token.identity.toList name value := by
  rw [Scanner.tokenize_eq] at h
  obtain ⟨k, n, hf, hidentity⟩ := exists_fragment_of_mem h
  have hlength := length?_of_fragment? hf
  rw [(isMark_of_separator? hmark).2.2] at hlength
  rw [hidentity, String.toList_ofList]
  refine ⟨fun c hc => ?_, exists_divides_of_pair? hlength⟩
  exact (plain_normalize selector).drop k c (List.mem_of_mem_take hc)

theorem accepts_eq (hmark : token.kind.separator? = some mark) (t : Tree) (n : NodeId) :
    token.accepts t n = .ok (token.kind.holdsValue t n (afterFirst mark token.identity) &&
      t.hasTag n (beforeFirst mark token.identity)) := by
  obtain ⟨identity, kind⟩ := token
  cases kind with
  | nameAndId | nameAndClass =>
    obtain rfl := Option.some.inj hmark
    rfl
  | id | className | element | pseudoClass => cases hmark

theorem find_eq (hmark : token.kind.separator? = some mark) (t : Tree) (root : NodeId) :
    token.find t root = .ok ((token.kind.findValue t root (afterFirst mark token.identity)).filter
      (t.hasTag · (beforeFirst mark token.identity))) := by
  obtain ⟨identity, kind⟩ := token
  cases kind with
  | nameAndId | nameAndClass =>
    obtain rfl := Option.some.inj hmark
    rfl
  | id | className | element | pseudoClass => cases hmark

/-- **A compound token divides into two identifiers in one way.** Dividing it at the first separator gives
these, and they are looked up and tested, exactly if there is no separator in the first identifier.
Otherwise that one is cut behind the backslash of its first escaped separator. -/
theorem divides_of_mem_tokenize (h : token ∈ tokenize selector)
    (hmark : token.kind.separator? = some mark) :
    ∃ name value : String, Divides mark token.identity.toList name.toList value.toList ∧
      MatchesIdent name.toList ∧ MatchesIdent value.toList ∧
      (∀ name' value', Divides mark token.identity.toList name' value' →
        name' = name.toList ∧ value' = value.toList) ∧
      (beforeFirst mark token.identity = name ∧ afterFirst mark token.identity = value ↔
        mark ∉ name.toList) ∧
      (mark ∉ name.toList → ∀ t n,
        token.accepts t n = .ok (token.kind.holdsValue t n value && t.hasTag n name) ∧
        token.find t n = .ok ((token.kind.findValue t n value).filter (t.hasTag · name))) ∧
      (mark ∈ name.toList → ∃ before behind, FirstEscaped mark name.toList before behind ∧
        beforeFirst mark token.identity = .ofList (before ++ ['\\']) ∧
        afterFirst mark token.identity = .ofList (behind ++ mark :: value.toList)) := by
  obtain ⟨hplain, name, value, hdivides⟩ := exists_divides h hmark
  obtain ⟨hIsMark, hsign, -⟩ := isMark_of_separator? hmark
  have htext := hdivides.text_eq
  have hname := hdivides.name_isIdent
  have hmatches : MatchesIdent name ∧ MatchesIdent value := by
    rw [htext] at hplain
    refine ⟨(isIdent_iff_matches fun c hc => ?_).mp hname,
      (isIdent_iff_matches fun c hc => ?_).mp hdivides.value_isIdent⟩
    · exact hplain c (List.mem_append_left _ hc)
    · exact hplain c (List.mem_append_right _ (List.mem_cons_of_mem _ hc))
  have hsplit : mark ∉ name → beforeFirst mark token.identity = .ofList name ∧
      afterFirst mark token.identity = .ofList value :=
    fun hnot => ⟨beforeFirst_eq htext hnot, afterFirst_eq htext hnot⟩
  refine ⟨.ofList name, .ofList value, ?_⟩
  rw [String.toList_ofList, String.toList_ofList]
  refine ⟨hdivides, hmatches.1, hmatches.2, fun name' value' h' => h'.unique hIsMark hdivides,
    ⟨?_, hsplit⟩, ?_, ?_⟩
  · rintro ⟨hbefore, -⟩
    have hnot := not_mem_beforeFirst mark token.identity
    rwa [hbefore, String.toList_ofList] at hnot
  · intro hnot t n
    obtain ⟨hbefore, hafter⟩ := hsplit hnot
    rw [accepts_eq hmark, find_eq hmark, hbefore, hafter]
    exact ⟨rfl, rfl⟩
  · intro hmem
    obtain ⟨before, behind, hfirst⟩ := hname.exists_escaped hIsMark hsign hmem
    exact ⟨before, behind, hfirst, split_of_firstEscaped htext hfirst hIsMark.2.1⟩

/-- A separator that is escaped in the second identifier does no harm. -/
theorem divides_escaped_id : ∃ token ∈ tokenize "ul li#a\\#b", token.kind = .nameAndId ∧
    Divides '#' token.identity.toList "li".toList "a\\#b".toList ∧
    beforeFirst '#' token.identity = "li" ∧ afterFirst '#' token.identity = "a\\#b" := by
  have htoken : (⟨"li#a\\#b", .nameAndId⟩ : Token) ∈ tokenize "ul li#a\\#b" := by
    rw [Scanner.tokenize_eq]
    decide +kernel
  have hdivides : Divides '#' "li#a\\#b".toList "li".toList "a\\#b".toList :=
    ⟨rfl, by decide +kernel, by decide +kernel⟩
  obtain ⟨name, value, -, -, -, hunique, hsplit, -⟩ := divides_of_mem_tokenize htoken rfl
  obtain ⟨hname, hvalue⟩ := hunique _ _ hdivides
  obtain rfl := String.toList_injective hname
  obtain rfl := String.toList_injective hvalue
  exact ⟨_, htoken, rfl, hdivides, hsplit.mpr (by decide)⟩

/-- A separator that is escaped in the first identifier: an element with that name and id is neither
found nor accepted. -/
theorem split_escaped_name : ∃ token ∈ tokenize "a\\#b#c", token.kind = .nameAndId ∧
    Divides '#' token.identity.toList "a\\#b".toList "c".toList ∧
    beforeFirst '#' token.identity = "a\\" ∧ afterFirst '#' token.identity = "b#c" ∧
    ¬ IsIdent "a\\".toList ∧
    ∃ t, (load "[[\"a\\\\#b\", \x7b\"id\": \"c\"\x7d]]" .none).1 = .ok t ∧
      t.hasTag 1 "a\\#b" = true ∧ t.id? 1 = some "c" ∧
      token.accepts t 1 = .ok false ∧ t.select Tree.root "a\\#b#c" = .ok [] := by
  have htoken : (⟨"a\\#b#c", .nameAndId⟩ : Token) ∈ tokenize "a\\#b#c" := by
    rw [Scanner.tokenize_eq]
    decide +kernel
  let t : Tree := ⟨#[⟨.document, none, [1], none, none⟩,
    ⟨.element ((Element.ofTag "a\\#b").setAttr "id" "c"), some 0, [], none, none⟩]⟩
  have hload : (load "[[\"a\\\\#b\", \x7b\"id\": \"c\"\x7d]]" .none).1 = .ok t := by decide +kernel
  refine ⟨_, htoken, rfl, ⟨rfl, by decide +kernel, by decide +kernel⟩, by decide +kernel,
    by decide +kernel, by decide +kernel, t, hload, by decide +kernel, by decide +kernel,
    by decide +kernel, ?_⟩
  rw [Tree.select, Scanner.tokenize_eq]
  decide +kernel

end Token

end Selectors
