import CoordTransform.Error
import CoordTransform.Text.Letters

/-!
# Elements

The syntax trees of transform texts: `KEYWORD[literal, …, CHILD[…], …]`. An element keeps its
literals and its children apart, each in the order of the text, together with the place of its
keyword, counted in characters from the start of the text.
-/

namespace CoordTransform

/-! ## Trees -/

/-- A literal of an element. -/
inductive Literal (α : Type) where
  | number (value : α)
  | text (value : String)
  | word (value : String)
  deriving Repr

/-- A keyword with literals and children. -/
inductive Element (α : Type) where
  | node (keyword : String) (offset : Nat) (literals : List (Literal α))
      (children : List (Element α))

namespace Element

variable {α : Type}

/-- The keyword as written. -/
def keyword : Element α → String
  | node k _ _ _ => k

/-- The place of the keyword in the text. -/
def offset : Element α → Nat
  | node _ o _ _ => o

/-- The literals in the order of the text. -/
def literals : Element α → List (Literal α)
  | node _ _ ls _ => ls

/-- The children in the order of the text. -/
def children : Element α → List (Element α)
  | node _ _ _ cs => cs

/-- An element that comes from no text. -/
def make (keyword : String) (literals : List (Literal α)) (children : List (Element α)) :
    Element α :=
  node keyword 0 literals children

instance : Inhabited (Element α) := ⟨make "" [] []⟩

end Element

/-! ## Equality -/

/-- Whether two literals are of one kind and equal as values. -/
def Literal.equal {α : Type} [Scalar α] : Literal α → Literal α → Bool
  | .number a, .number b => Scalar.numEq a b
  | .text a, .text b => a == b
  | .word a, .word b => a == b
  | _, _ => false

namespace Element

variable {α : Type} [Scalar α]

mutual

/-- Whether two trees are equal, offsets included; numbers are compared as values. -/
def equal : Element α → Element α → Bool
  | node k o ls cs, node k' o' ls' cs' =>
    k == k' && o == o' && ls.length == ls'.length &&
      (ls.zip ls').all (fun p => p.1.equal p.2) && equalAll cs cs'

/-- Whether two lists of trees are equal, one by one. -/
def equalAll : List (Element α) → List (Element α) → Bool
  | [], [] => true
  | e :: es, e' :: es' => equal e e' && equalAll es es'
  | _, _ => false

end

end Element

/-! ## Errors -/

/-- What is wrong with the text of an element. -/
inductive SyntaxFault where
  | tooDeep
  | keywordExpected (found : Option Char)
  | bracketExpected (keyword : String)
  | unexpected (found : Char)
  | unclosed (close : Char)
  | separatorExpected (close found : Char)
  | unterminated
  | badNumber (literal : String)
  | trailing
  deriving DecidableEq, Repr

/-- What is wrong with the shape of an element. -/
inductive ShapeFault (α : Type) where
  | missingLiteral (index : Nat)
  | numberExpected (index : Nat) (found : Literal α)
  | naturalExpected (index : Nat) (found : α)
  | textExpected (index : Nat) (found : Literal α)
  | notTransform (keyword : String) (offset : Nat)
  | oneTransformExpected (found : Nat)
  | transformsExpected
  | countsExpected (found : Nat)
  | other (reason : String)

/-- Errors of texts that should describe a transform. -/
inductive ElementError (α : Type) where
  | badSyntax (offset : Nat) (fault : SyntaxFault)
  | malformed (keyword : String) (offset : Nat) (fault : ShapeFault α)
  | unexpectedKeyword (keyword : String) (offset : Nat)
  | transform (error : TransformError α)

/-- The error that an element has the wrong shape. -/
def Element.malformed {α : Type} (e : Element α) (fault : ShapeFault α) : ElementError α :=
  .malformed e.keyword e.offset fault

end CoordTransform
