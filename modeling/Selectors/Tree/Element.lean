import Selectors.Text.Blank
import Selectors.NameMap

/-!
# Elements

An element has a tag and attributes. Its id and its classes are attributes like any other; the
classes are the words of the attribute `class`.

* `Element.classes`, `Element.hasClass`: the classes as words;
* `Element.addClass`, `Element.removeClass`: change the words, and leave the text alone where there
  is nothing to change.
-/

namespace Selectors

/-- Two names are equal up to the case of ASCII letters. -/
def sameName (a b : String) : Bool := a.toList.map Char.toLower == b.toList.map Char.toLower

/-- The data of an element. -/
structure Element where
  tag : String
  attributes : NameMap String
  deriving DecidableEq

namespace Element

/-- An element without attributes. -/
def ofTag (tag : String) : Element := ⟨tag, .empty⟩

/-! ## Attributes -/

/-- The value of an attribute. -/
def attr? (e : Element) (name : String) : Option String := e.attributes.find? name

/-- Set an attribute, in place of its former value. -/
def setAttr (e : Element) (name value : String) : Element :=
  { e with attributes := e.attributes.insert name value }

/-- Remove an attribute. -/
def removeAttr (e : Element) (name : String) : Element :=
  { e with attributes := e.attributes.erase name }

/-- The id of the element. -/
def id? (e : Element) : Option String := e.attr? "id"

@[simp] theorem attr?_setAttr_self (e : Element) (name value : String) :
    (e.setAttr name value).attr? name = some value := NameMap.find?_insert_self _ _ _

theorem attr?_setAttr_ne (e : Element) {name other : String} (h : other ≠ name) (value : String) :
    (e.setAttr name value).attr? other = e.attr? other := NameMap.find?_insert_ne _ h _

@[simp] theorem setAttr_setAttr_self (e : Element) (name value other : String) :
    (e.setAttr name value).setAttr name other = e.setAttr name other := by
  simp [setAttr]

theorem attr?_removeAttr (e : Element) (name other : String) :
    (e.removeAttr name).attr? other = if other = name then none else e.attr? other :=
  NameMap.find?_erase _ _ _

/-! ## Classes -/

/-- The text of the attribute `class`, empty if there is none. -/
def classText (e : Element) : String := (e.attr? "class").getD ""

/-- The words of a text. -/
def wordsOf (text : String) : List String := (Text.words text.toList).map .ofList

/-- The classes, in order and with their repetitions. -/
def classes (e : Element) : List String := wordsOf e.classText

/-- The distinct classes, ascending. -/
def classNames (e : Element) : List String := (NameMap.ofList (e.classes.map (·, ()))).names

/-- The element has a class. -/
def hasClass (e : Element) (name : String) : Bool := e.classes.contains name

/-- The class text with one more class at its end; a text of blanks is replaced. -/
def appendClass (text : String) (name : String) : String :=
  if Text.trim text.toList = [] then name else text ++ " " ++ name

/-- Append a class to the class text unless it is there or is the empty text. -/
def addClass (e : Element) (name : String) : Element :=
  if name = "" ∨ e.hasClass name then e else e.setAttr "class" (appendClass e.classText name)

/-- Remove every occurrence of a class; the classes that remain are joined by single spaces. -/
def removeClass (e : Element) (name : String) : Element :=
  if e.hasClass name then
    e.setAttr "class" (" ".intercalate (e.classes.filter (· ≠ name)))
  else e

end Element

end Selectors
