/-!
# Letters without Case

Names are compared without regard to the case of ASCII letters; every other character counts
as itself. The words of the element grammar are ASCII words.
-/

namespace CoordTransform.Text

/-! ## Case -/

/-- A text with its ASCII capitals made small. -/
def lower (s : String) : String := String.ofList (s.toList.map Char.toLower)

/-- Two texts are alike when they differ at most in the case of ASCII letters. -/
def alike (s t : String) : Bool := lower s == lower t

theorem alike_iff (s t : String) : alike s t = true ↔ lower s = lower t := by
  simp [alike]

/-! ## Words -/

/-- A word starts with an ASCII letter or an underscore. -/
def startsWord (c : Char) : Bool := c.isAlpha || c == '_'

/-- A word goes on with ASCII letters, digits and underscores. -/
def continuesWord (c : Char) : Bool := c.isAlpha || c.isDigit || c == '_'

/-- `[A-Za-z_][A-Za-z0-9_]*` -/
def isWord : List Char → Bool
  | [] => false
  | c :: cs => startsWord c && cs.all continuesWord

end CoordTransform.Text
