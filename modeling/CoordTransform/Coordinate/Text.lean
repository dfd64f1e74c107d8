import CoordTransform.Coordinate
import CoordTransform.Geodesy.Trigonometry
import CoordTransform.Text.Blank
import CoordTransform.Text.Split

/-!
# Texts of Coordinates

Coordinates are typed in three forms:

* absolute, `100,50` or `100,50,7`;
* relative to the previous coordinate, `@10,-5` or `@10,-5,1`;
* relative and polar, `@100<45`, with a length and an angle in degrees.

Blanks are allowed around the whole text and around each number. All numbers must be finite. A
coordinate is written in the absolute form.
-/

namespace CoordTransform

/-! ## Errors -/

/-- The numbers that a text of a coordinate holds. -/
inductive InputPart where
  | x
  | y
  | z
  | length
  | angle
  deriving DecidableEq, Repr

/-- The forms that need a previous coordinate. -/
inductive RelativeForm where
  | cartesian
  | polar
  deriving DecidableEq, Repr

/-- Why a text is no coordinate. -/
inductive InputError where
  | empty
  | polarNotRelative (input : String)
  | badNumber (part : InputPart) (found : String)
  | unknownForm (input : String)
  | missingReference (form : RelativeForm)
  deriving DecidableEq, Repr

/-- The name of a part in messages. -/
def InputPart.name : InputPart → String
  | .x => "X coordinate"
  | .y => "Y coordinate"
  | .z => "Z coordinate"
  | .length => "length"
  | .angle => "angle"

/-- The name of a form in messages. -/
def RelativeForm.name : RelativeForm → String
  | .cartesian => "relative coordinate"
  | .polar => "relative polar coordinate"

/-- The wording of an error. -/
def InputError.message : InputError → String
  | .empty => "Invalid format: Empty input"
  | .polarNotRelative input => "Invalid format: Polar input must be relative: " ++ input
  | .badNumber part found => "Invalid format: Invalid " ++ part.name ++ ": " ++ found
  | .unknownForm input => "Invalid format: Cannot parse input: " ++ input
  | .missingReference form => "Missing value: Reference coordinate required for " ++ form.name

namespace Coordinate

/-! ## Reading -/

/-- One finite number of a text. -/
def readPart (part : InputPart) (cs : List Char) : Except InputError Float :=
  let token := Text.trimChars cs
  match Decimal.readFloat? token with
  | some v => if v.isFinite then .ok v else .error (.badNumber part (String.ofList token))
  | none => .error (.badNumber part (String.ofList token))

/-- The two or three numbers of a text with commas. -/
def readNumbers (input : String) (body : List Char) :
    Except InputError (Float × Float × Option Float) :=
  match Text.splitAll ',' body with
  | [x, y] => do return (← readPart .x x, ← readPart .y y, none)
  | [x, y, z] => do return (← readPart .x x, ← readPart .y y, some (← readPart .z z))
  | _ => .error (.unknownForm input)

/-- The coordinate at an offset from another one. A missing height of the origin is zero, and so
is a missing height of the offset; the height is missing when both are. -/
def atOffset (origin : Coordinate Float) (dx dy : Float) (dz : Option Float) :
    Coordinate Float where
  x := origin.x + dx
  y := origin.y + dy
  z := if origin.hasZ then origin.z + dz.getD 0 else dz.getD Scalar.undefined

/-- The coordinate at a length and an angle in degrees from another one, at the same height. -/
def atPolar (origin : Coordinate Float) (length degrees : Float) : Coordinate Float :=
  let angle := toRadians degrees
  { x := origin.x + length * Trigonometry.standard.cos angle
    y := origin.y + length * Trigonometry.standard.sin angle
    z := origin.z }

/-- The previous coordinate, for a form that needs it. -/
def requireReference (reference : Option (Coordinate Float)) (form : RelativeForm) :
    Except InputError (Coordinate Float) :=
  match reference with
  | some c => .ok c
  | none => .error (.missingReference form)

/-- Reads a trimmed text; `relative` says whether it had an `@`, and `body` is what follows. -/
def parseBody (input : String) (relative : Bool) (body : List Char)
    (reference : Option (Coordinate Float)) : Except InputError (Coordinate Float) :=
  match Text.splitFirst? '<' body with
  | some (length, angle) => do
    if !relative then throw (.polarNotRelative input)
    let length ← readPart .length length
    let angle ← readPart .angle angle
    return atPolar (← requireReference reference .polar) length angle
  | none => do
    let (x, y, z) ← readNumbers input body
    if relative then return atOffset (← requireReference reference .cartesian) x y z
    else return ⟨x, y, z.getD Scalar.undefined⟩

/-- Reads a text as a coordinate, possibly relative to a previous one. -/
def parse (text : String) (reference : Option (Coordinate Float)) :
    Except InputError (Coordinate Float) :=
  let trimmed := Text.trimChars text.toList
  let input := String.ofList trimmed
  match trimmed with
  | [] => .error .empty
  | '@' :: rest => parseBody input true (Text.trimChars rest) reference
  | _ => parseBody input false trimmed reference

/-- Reads a list of texts, each relative to the coordinate before it. -/
def parseAllFrom (reference : Option (Coordinate Float)) :
    List String → Except InputError (List (Coordinate Float))
  | [] => .ok []
  | s :: ss => do
    let c ← parse s reference
    let cs ← parseAllFrom (some c) ss
    return c :: cs

/-- Reads a list of texts; the first one cannot be relative. -/
def parseAll (texts : List String) : Except InputError (List (Coordinate Float)) :=
  parseAllFrom none texts

/-! ## Writing -/

/-- The components with commas between them, the height only when it is present. -/
def text (c : Coordinate Float) : String :=
  let plane := Numeral.text c.x ++ "," ++ Numeral.text c.y
  if c.hasZ then plane ++ "," ++ Numeral.text c.z else plane

end Coordinate

end CoordTransform
