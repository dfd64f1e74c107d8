import CoordTransform.Element.Basic
import CoordTransform.Text.Blank

/-!
# Reading Elements

```text
text    ::= blanks element blanks
element ::= word blanks open blanks (close | item (blanks ',' blanks item)* blanks close)
item    ::= quoted | number | word | element
```

A bracket is closed by its own kind, `[…]` or `(…)`. A word before an opening bracket starts a
child, any other word is a literal. Elements are nested at most `largestDepth` levels deep.

Reading goes from the left and stops at the first fault. A `Cursor` is what is left of the text,
with the number of characters before it.
-/

namespace CoordTransform.Element

/-! ## Cursors -/

/-- The rest of a text and its offset. -/
structure Cursor where
  rest : List Char
  offset : Nat
  deriving Repr, DecidableEq

namespace Cursor

/-- The cursor `n` characters further on. -/
def advance (c : Cursor) (n : Nat) : Cursor := ⟨c.rest.drop n, c.offset + n⟩

/-- The cursor after the blanks that stand here. -/
def skipBlanks (c : Cursor) : Cursor := c.advance (c.rest.takeWhile Text.isBlank).length

end Cursor

/-- Reading yields a value with the cursor behind it, or the place of a fault. -/
abbrev Reading := Except (Nat × SyntaxFault)

/-! ## Tokens -/

/-- A word. -/
def readWord (c : Cursor) : Reading (List Char × Cursor) :=
  match c.rest with
  | [] => .error (c.offset, .keywordExpected none)
  | d :: ds =>
    if Text.startsWord d then
      let word := d :: ds.takeWhile Text.continuesWord
      .ok (word, c.advance word.length)
    else .error (c.offset, .keywordExpected (some d))

/-- The inside of a quoted text up to the quote that ends it, and the number of characters up to
and with that quote. -/
def scanQuoted : List Char → Option (List Char × Nat)
  | [] => none
  -- Two quotes in a row are one quote of the text.
  | '"' :: '"' :: cs => (scanQuoted cs).map fun r => ('"' :: r.1, r.2 + 2)
  | '"' :: _ => some ([], 1)
  | c :: cs => (scanQuoted cs).map fun r => (c :: r.1, r.2 + 1)

/-- A quoted text; the cursor stands on its first quote. -/
def readQuoted (c : Cursor) : Reading (List Char × Cursor) :=
  match scanQuoted (c.rest.drop 1) with
  | some (value, length) => .ok (value, c.advance (length + 1))
  | none => .error (c.offset, .unterminated)

/-- A sign. -/
def isSign (c : Char) : Bool := c == '+' || c == '-'

/-- A digit or a point. -/
def isMantissaChar (c : Char) : Bool := c.isDigit || c == '.'

/-- The mark of an exponent. -/
def isExponentChar (c : Char) : Bool := c == 'e' || c == 'E'

/-- One character of a class, if it stands here. -/
def optional (p : Char → Bool) (cs : List Char) : List Char := (cs.take 1).filter p

/-- The characters of a number: a sign, digits and points, and an exponent, each of them as far
as it goes. -/
def numberToken (cs : List Char) : List Char :=
  let sign := optional isSign cs
  let afterSign := cs.drop sign.length
  let mantissa := afterSign.takeWhile isMantissaChar
  let afterMantissa := afterSign.drop mantissa.length
  let mark := optional isExponentChar afterMantissa
  -- A mark belongs to the token even when no exponent follows; the reader then refuses it.
  if mark.isEmpty then sign ++ mantissa
  else
    let afterMark := afterMantissa.drop 1
    let power := optional isSign afterMark
    let digits := (afterMark.drop power.length).takeWhile Char.isDigit
    sign ++ mantissa ++ mark ++ power ++ digits

variable {α : Type} [Numeral α]

/-- A finite number. -/
def readNumber (c : Cursor) : Reading (α × Cursor) :=
  let token := numberToken c.rest
  match Numeral.read? token with
  | some v =>
    if Scalar.isFinite v then .ok (v, c.advance token.length)
    else .error (c.offset, .badNumber (String.ofList token))
  | none => .error (c.offset, .badNumber (String.ofList token))

/-! ## Items -/

/-- One item of an element: a literal or a child. -/
abbrev Item (α : Type) := Literal α ⊕ Element α

/-- The characters that numbers start with. -/
def startsNumber (c : Char) : Bool := c.isDigit || c == '+' || c == '-' || c == '.'

/-- An opening bracket. -/
def isOpen (c : Char) : Bool := c == '[' || c == '('

/-- The bracket that closes an opening one. -/
def closeOf (c : Char) : Char := if c == '(' then ')' else ']'

/-- One item; `child` reads an element. -/
def readItem (child : Cursor → Reading (Element α × Cursor)) (close : Char) (c : Cursor) :
    Reading (Item α × Cursor) :=
  match c.rest with
  | [] => .error (c.offset, .unclosed close)
  | d :: _ =>
    if d == '"' then do
      let (value, next) ← readQuoted c
      return (.inl (.text (String.ofList value)), next)
    else if startsNumber d then do
      let (value, next) ← readNumber c
      return (.inl (.number value), next)
    else if Text.startsWord d then do
      -- A child is read again from its first character, since it reads its own keyword.
      let (word, next) ← readWord c
      if (next.skipBlanks.rest.head?.map isOpen).getD false then
        let (e, next) ← child c
        return (.inr e, next)
      else return (.inl (.word (String.ofList word)), next)
    else .error (c.offset, .unexpected d)

/-- Items with commas between them, up to the closing bracket. The first argument bounds the
number of items by the number of characters left. -/
def readItems (child : Cursor → Reading (Element α × Cursor)) (close : Char) :
    Nat → Cursor → Reading (List (Item α) × Cursor)
  | 0, c => .error (c.offset, .unclosed close)
  | n + 1, c => do
    let (item, next) ← readItem child close c.skipBlanks
    let next := next.skipBlanks
    match next.rest with
    | [] => throw (next.offset, .unclosed close)
    | d :: _ =>
      if d == ',' then
        let (items, last) ← readItems child close n (next.advance 1)
        return (item :: items, last)
      else if d == close then return ([item], next.advance 1)
      else throw (next.offset, .separatorExpected close d)

/-- The items between a bracket that was opened and its closing one. -/
def readBody (child : Cursor → Reading (Element α × Cursor)) (close : Char) (c : Cursor) :
    Reading (List (Item α) × Cursor) :=
  -- Every item but the last takes a character for its comma, which bounds their number.
  let c := c.skipBlanks
  if c.rest.head? == some close then .ok ([], c.advance 1)
  else readItems child close (c.rest.length + 1) c

/-! ## Elements -/

/-- The greatest number of elements inside each other, the outermost included. -/
def largestDepth : Nat := 129

/-- The element of a keyword and its items. -/
def ofItems (keyword : String) (offset : Nat) (items : List (Item α)) : Element α :=
  .node keyword offset (items.filterMap Sum.getLeft?) (items.filterMap Sum.getRight?)

/-- An element with at most `depth` levels. -/
def readElement : Nat → Cursor → Reading (Element α × Cursor)
  | 0, c => .error (c.offset, .tooDeep)
  | depth + 1, c => do
    let (word, next) ← readWord c
    let keyword := String.ofList word
    let next := next.skipBlanks
    match next.rest with
    -- A missing bracket is reported where the keyword starts.
    | [] => throw (c.offset, .bracketExpected keyword)
    | d :: _ =>
      if isOpen d then
        let (items, last) ← readBody (readElement depth) (closeOf d) (next.advance 1)
        return (ofItems keyword c.offset items, last)
      else throw (c.offset, .bracketExpected keyword)

/-- Reads a whole text as one element. -/
def parse (text : String) : Except (ElementError α) (Element α) :=
  match readElement largestDepth (Cursor.mk text.toList 0).skipBlanks with
  | .error (offset, fault) => .error (.badSyntax offset fault)
  | .ok (e, last) =>
    let last := last.skipBlanks
    if last.rest.isEmpty then .ok e else .error (.badSyntax last.offset .trailing)

end CoordTransform.Element
