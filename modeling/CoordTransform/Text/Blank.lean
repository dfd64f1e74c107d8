/-!
# Blank Characters

The blank characters of the whole library: the Unicode property `White_Space`, 25 characters
in ten ranges. Texts are trimmed by it, and the element grammar skips it between tokens.
-/

namespace CoordTransform.Text

/-! ## The table -/

/-- The ranges of code points with the Unicode property `White_Space`. -/
def blankRanges : List (Nat × Nat) :=
  [(0x09, 0x0D), (0x20, 0x20), (0x85, 0x85), (0xA0, 0xA0), (0x1680, 0x1680),
   (0x2000, 0x200A), (0x2028, 0x2029), (0x202F, 0x202F), (0x205F, 0x205F), (0x3000, 0x3000)]

/-- A character is blank when its code point lies in one of `blankRanges`. -/
def isBlank (c : Char) : Bool :=
  blankRanges.any fun r => r.1 ≤ c.toNat && c.toNat ≤ r.2

-- The table holds 25 characters.
example : (blankRanges.map fun r => r.2 + 1 - r.1).sum = 25 := by decide

/-! ## Trimming -/

/-- A list of characters without its leading blanks. -/
def dropBlanks (cs : List Char) : List Char := cs.dropWhile isBlank

/-- A list of characters without the blanks at either end. -/
def trimChars (cs : List Char) : List Char :=
  (dropBlanks (dropBlanks cs).reverse).reverse

/-- A text without the blanks at either end. -/
def trim (s : String) : String := String.ofList (trimChars s.toList)

end CoordTransform.Text
