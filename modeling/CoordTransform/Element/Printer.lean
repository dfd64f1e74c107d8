import CoordTransform.Element.Basic

/-!
# Texts of Elements

An element is written on one line: its keyword, and in square brackets its literals and then its
children, with a comma and a space between them. A quote inside a quoted text is written twice.
-/

namespace CoordTransform

/-! ## Literals -/

/-- A text with every quote written twice. -/
def doubleQuotes (s : String) : String :=
  String.ofList (s.toList.flatMap fun c => if c == '"' then ['"', '"'] else [c])

/-- The text of a literal. -/
def Literal.render {α : Type} [Numeral α] : Literal α → String
  | .number v => Numeral.text v
  | .text s => quoted (doubleQuotes s)
  | .word s => s

/-! ## Elements -/

namespace Element

variable {α : Type} [Numeral α]

mutual

/-- The text of an element. -/
def render : Element α → String
  | node k _ ls cs =>
    k ++ "[" ++ String.intercalate ", " (ls.map Literal.render ++ renderAll cs) ++ "]"

/-- The texts of a list of elements. -/
def renderAll : List (Element α) → List String
  | [] => []
  | e :: es => render e :: renderAll es

end

end Element

/-! ## Wording of errors -/

/-- A character in single quotation marks. -/
def quotedChar (c : Char) : String := "'" ++ c.toString ++ "'"

/-- The wording of a syntax fault. -/
def SyntaxFault.message : SyntaxFault → String
  | .tooDeep => "elements nested too deeply"
  | .keywordExpected (some c) => "expected a keyword, found " ++ quotedChar c
  | .keywordExpected none => "expected a keyword, found end of text"
  | .bracketExpected k => "expected '[' or '(' after " ++ k
  | .unexpected c => "unexpected character " ++ quotedChar c
  | .unclosed close => "missing closing " ++ quotedChar close
  | .separatorExpected close c =>
    "expected ',' or " ++ quotedChar close ++ ", found " ++ quotedChar c
  | .unterminated => "unterminated quoted string"
  | .badNumber literal => "invalid number '" ++ literal ++ "'"
  | .trailing => "unexpected text after the element"

section

variable {α : Type} [Numeral α]

/-- The name of a literal by its position, counted from one. -/
def literalName (index : Nat) : String := "parameter #" ++ toString (index + 1)

/-- The wording of a shape fault. -/
def ShapeFault.message : ShapeFault α → String
  | .missingLiteral i => "missing " ++ literalName i
  | .numberExpected i l => literalName i ++ " should be a number, found " ++ l.render
  | .naturalExpected i v =>
    literalName i ++ " should be a non-negative integer, found " ++ Numeral.text v
  | .textExpected i l => literalName i ++ " should be a quoted string, found " ++ l.render
  | .notTransform k o =>
    "child " ++ k ++ " at offset " ++ toString o ++ " is not a math transform"
  | .oneTransformExpected n => "expected exactly one math transform, found " ++ toString n
  | .transformsExpected => "expected at least one math transform"
  | .countsExpected n => "expected 1 or 2 ordinate counts, found " ++ toString n
  | .other reason => reason

/-- The wording of an error. -/
def ElementError.message : ElementError α → String
  | .badSyntax o fault => "Syntax error at offset " ++ toString o ++ ": " ++ fault.message
  | .malformed k o fault =>
    "Malformed " ++ k ++ " element at offset " ++ toString o ++ ": " ++ fault.message
  | .unexpectedKeyword k o => k ++ " at offset " ++ toString o ++ " is not a math transform"
  | .transform e => e.message

end

end CoordTransform
