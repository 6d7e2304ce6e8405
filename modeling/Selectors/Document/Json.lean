import Selectors.Text.Hex

/-!
# JSON texts

Reading JSON values. Lists and objects nest at most `Json.maxDepth` deep, a string may not hold half a
surrogate pair, and a number may not be out of the range of doubles. Documents hold no numbers and no
truth values, so these are not kept apart further.

* `Json`: a value; an object keeps its members in order, repeated names included;
* `Json.readValue?`: the value at the start of a text, and the text behind it.
-/

namespace Selectors

/-- A JSON value. -/
inductive Json where
  | null
  | bool
  | number
  | string (value : String)
  | array (items : List Json)
  | object (members : List (String × Json))

namespace Json

/-- How deep lists and objects may nest. -/
def maxDepth : Nat := 127

/-! ## Blanks -/

/-- Space, tab, line feed or carriage return. -/
def isBlank (c : Char) : Bool := c == ' ' || c == '\t' || c == '\n' || c == '\r'

/-- Without the blanks at the start. -/
def skipBlanks (cs : List Char) : List Char := cs.dropWhile isBlank

/-! ## Strings -/

/-- What a backslash and `c` stand for. -/
def escaped? (c : Char) : Option Char :=
  match c with
  | '"' => some '"'
  | '\\' => some '\\'
  | '/' => some '/'
  | 'b' => some '\x08'
  | 'f' => some '\x0c'
  | 'n' => some '\n'
  | 'r' => some '\r'
  | 't' => some '\t'
  | _ => none

/-- The code points of a string from behind its opening quote, halves of surrogate pairs kept apart,
and the text behind the closing quote. -/
def readUnits? : List Char → Option (List Nat × List Char)
  | [] => none
  | '"' :: cs => some ([], cs)
  | '\\' :: 'u' :: a :: b :: c :: d :: cs => do
    let unit ← Text.ofHex? [a, b, c, d]
    let (units, rest) ← readUnits? cs
    return (unit :: units, rest)
  | '\\' :: c :: cs => do
    let escaped ← escaped? c
    let (units, rest) ← readUnits? cs
    return (escaped.toNat :: units, rest)
  | c :: cs => do
    if c.toNat < 0x20 then none
    let (units, rest) ← readUnits? cs
    return (c.toNat :: units, rest)

/-- The characters of code points, in which the halves of a surrogate pair come together. -/
def joinSurrogates? : List Nat → Option (List Char)
  | [] => some []
  | [n] => if 0xD800 ≤ n ∧ n < 0xE000 then none else some [.ofNat n]
  | n :: m :: rest =>
    if 0xD800 ≤ n ∧ n < 0xDC00 then
      if 0xDC00 ≤ m ∧ m < 0xE000 then
        (joinSurrogates? rest).map (.ofNat (0x10000 + 0x400 * (n - 0xD800) + (m - 0xDC00)) :: ·)
      else none
    else if 0xDC00 ≤ n ∧ n < 0xE000 then none
    else (joinSurrogates? (m :: rest)).map (.ofNat n :: ·)

/-- The string from behind its opening quote, and the text behind it. -/
def readString? (cs : List Char) : Option (String × List Char) := do
  let (units, rest) ← readUnits? cs
  let chars ← joinSurrogates? units
  return (.ofList chars, rest)

/-! ## Numbers -/

/-- The value of a decimal digit. -/
def digitValue (c : Char) : Nat := c.toNat - '0'.toNat

/-- The number that decimal digits write. -/
def ofDigits (cs : List Char) : Nat := cs.foldl (fun n c => 10 * n + digitValue c) 0

/-- Digits are taken into a significand of 64 bits as long as they fit; the digits behind the first that
does not fit are dropped. The result is the significand and the number of digits taken. -/
def takeDigits (significand : Nat) : List Char → Nat × Nat
  | [] => (significand, 0)
  | c :: cs =>
    let next := 10 * significand + digitValue c
    if next < 2 ^ 64 then
      let (significand, taken) := takeDigits next cs
      (significand, taken + 1)
    else (significand, 0)

/-- A natural number rounded to 53 significant bits, a half to the even neighbour. It is then a double,
if it is below `2 ^ 1024`. -/
def roundToDouble (n : Nat) : Nat :=
  let unit := Nat.pow 2 (n.log2 + 1 - 53)
  let half := unit / 2
  let quotient := n / unit
  let remainder := n % unit
  if half = 0 then n
  else if half < remainder ∨ (remainder = half ∧ quotient % 2 = 1) then (quotient + 1) * unit
  else quotient * unit

/-- The number `significand * 10 ^ exponent` is out of range: the product of the doubles nearest to its
factors is at least half a unit above the largest double. There is no double near `10 ^ 309`. -/
def isOutOfRange (significand : Nat) (exponent : Int) : Bool :=
  if significand = 0 ∨ exponent < 0 then false
  else if 308 < exponent then true
  else Nat.pow 2 1024 - Nat.pow 2 970 ≤
    roundToDouble significand * roundToDouble (Nat.pow 10 exponent.toNat)

/-- The digits at the start of a text, of which there is at least one, and the text behind them. -/
def readDigits? (cs : List Char) : Option (List Char × List Char) :=
  if cs.takeWhile Char.isDigit = [] then none
  else some (cs.takeWhile Char.isDigit, cs.dropWhile Char.isDigit)

/-- The digits behind a decimal point, if there is one. -/
def readFraction? : List Char → Option (List Char × List Char)
  | '.' :: cs => readDigits? cs
  | cs => some ([], cs)

/-- The exponent, if there is one. -/
def readExponent? : List Char → Option (Int × List Char)
  | [] => some (0, [])
  | c :: cs =>
    if c = 'e' ∨ c = 'E' then
      match cs with
      | '-' :: cs => (readDigits? cs).map fun (digits, rest) => (-(ofDigits digits : Int), rest)
      | '+' :: cs => (readDigits? cs).map fun (digits, rest) => (ofDigits digits, rest)
      | cs => (readDigits? cs).map fun (digits, rest) => (ofDigits digits, rest)
    else some (0, c :: cs)

/-- The text behind a number that begins with a digit. -/
def skipNumber? (cs : List Char) : Option (List Char) := do
  let (whole, rest) ← readDigits? cs
  if whole.head? = some '0' ∧ 1 < whole.length then none
  let (fraction, rest) ← readFraction? rest
  let (exponent, rest) ← readExponent? rest
  let (significand, takenWhole) := takeDigits 0 whole
  let (significand, takenFraction) := takeDigits significand fraction
  let dropped : Int := whole.length - takenWhole
  if isOutOfRange significand (exponent + dropped - takenFraction) then none
  return rest

/-! ## Values -/

mutual

/-- The value at the start of a text, with blanks before it, and the text behind it. Two calls at
most are nested for one code point, so `fuel` has to exceed twice the length of the text. -/
def readValueWith : (fuel depth : Nat) → List Char → Option (Json × List Char)
  | 0, _, _ => none
  | fuel + 1, depth, cs =>
    match skipBlanks cs with
    | 'n' :: 'u' :: 'l' :: 'l' :: rest => some (null, rest)
    | 't' :: 'r' :: 'u' :: 'e' :: rest => some (bool, rest)
    | 'f' :: 'a' :: 'l' :: 's' :: 'e' :: rest => some (bool, rest)
    | '"' :: rest => (readString? rest).map fun (s, rest) => (string s, rest)
    | '-' :: rest => (skipNumber? rest).map (number, ·)
    | '[' :: rest =>
      if depth = 0 then none
      else match skipBlanks rest with
        | ']' :: rest => some (array [], rest)
        | rest => (readItems fuel (depth - 1) rest).map fun (items, rest) => (array items, rest)
    | '{' :: rest =>
      if depth = 0 then none
      else match skipBlanks rest with
        | '}' :: rest => some (object [], rest)
        | rest =>
          (readMembers fuel (depth - 1) rest).map fun (members, rest) => (object members, rest)
    | rest => (skipNumber? rest).map (number, ·)

/-- The items of a list up to its closing bracket, of which there is at least one. -/
def readItems : (fuel depth : Nat) → List Char → Option (List Json × List Char)
  | 0, _, _ => none
  | fuel + 1, depth, cs => do
    let (item, rest) ← readValueWith fuel depth cs
    match skipBlanks rest with
    | ']' :: rest => return ([item], rest)
    | ',' :: rest =>
      let (items, rest) ← readItems fuel depth rest
      return (item :: items, rest)
    | _ => none

/-- The members of an object up to its closing brace, of which there is at least one. -/
def readMembers : (fuel depth : Nat) → List Char → Option (List (String × Json) × List Char)
  | 0, _, _ => none
  | fuel + 1, depth, cs =>
    match skipBlanks cs with
    | '"' :: rest => do
      let (name, rest) ← readString? rest
      match skipBlanks rest with
      | ':' :: rest =>
        let (value, rest) ← readValueWith fuel depth rest
        match skipBlanks rest with
        | '}' :: rest => return ([(name, value)], rest)
        | ',' :: rest =>
          let (members, rest) ← readMembers fuel depth rest
          return ((name, value) :: members, rest)
        | _ => none
      | _ => none
    | _ => none

end

/-- The value at the start of a text, and the text behind it. -/
def readValue? (cs : List Char) : Option (Json × List Char) :=
  readValueWith (2 * cs.length + 2) maxDepth cs

end Json

end Selectors
