import CoordTransform.Json.Basic

/-!
# Reading JSON

The grammar of JSON texts: one value with blanks around it. Only space, tab, line feed and
carriage return are blanks. Numbers have no leading zeros and no sign other than minus; strings
hold no control characters.

The recursion over nested values is bounded by the number of characters.
-/

namespace CoordTransform.JsonValue

/-! ## Characters -/

/-- The blanks of JSON. -/
def isSpace (c : Char) : Bool := c == ' ' || c == '\t' || c == '\n' || c == '\r'

/-- Characters without leading blanks. -/
def skip (cs : List Char) : List Char := cs.dropWhile isSpace

/-- The value of a digit. -/
def digitValue (c : Char) : Nat := c.toNat - '0'.toNat

/-- The value of a hexadecimal digit. -/
def hexValue? (c : Char) : Option Nat :=
  if c.isDigit then some (digitValue c)
  else if 'a' ≤ c && c ≤ 'f' then some (c.toNat - 'a'.toNat + 10)
  else if 'A' ≤ c && c ≤ 'F' then some (c.toNat - 'A'.toNat + 10)
  else none

/-! ## Numbers -/

/-- The leading digits and what follows them. -/
def readDigits (cs : List Char) : List Nat × List Char :=
  ((cs.takeWhile Char.isDigit).map digitValue, cs.dropWhile Char.isDigit)

/-- The digits after a point, if there is one. -/
def readPlaces? : List Char → Option (Option (List Nat) × List Char)
  | '.' :: cs =>
    let (ds, rest) := readDigits cs
    if ds.isEmpty then none else some (some ds, rest)
  | cs => some (none, cs)

/-- The sign and the digits of an exponent, if there is one. -/
def readExponent? (cs : List Char) : Option (Option (Bool × List Nat) × List Char) :=
  match cs with
  | [] => some (none, [])
  | c :: after =>
    if c == 'e' || c == 'E' then
      let (negative, digits) := match after with
        | '-' :: r => (true, r)
        | '+' :: r => (false, r)
        | r => (false, r)
      let (ds, rest) := readDigits digits
      if ds.isEmpty then none else some (some (negative, ds), rest)
    else some (none, cs)

/-- A number. -/
def readNumber? (cs : List Char) : Option (JsonNumber × List Char) := do
  let (negative, unsigned) := match cs with
    | '-' :: r => (true, r)
    | r => (false, r)
  let (whole, afterWhole) := readDigits unsigned
  if whole.isEmpty || (whole.head? == some 0 && whole.length != 1) then none
  else
    let (places, afterPlaces) ← readPlaces? afterWhole
    let (exponent, rest) ← readExponent? afterPlaces
    some (⟨negative, whole, places, exponent⟩, rest)

/-! ## Strings -/

/-- A unit of a string: a character, or a 16-bit unit from an escape. -/
abbrev StringUnit := Char ⊕ Nat

/-- What a single-character escape denotes. -/
def escaped? : Char → Option Char
  | '"' => some '"'
  | '\\' => some '\\'
  | '/' => some '/'
  | 'b' => some '\x08'
  | 'f' => some '\x0c'
  | 'n' => some '\n'
  | 'r' => some '\r'
  | 't' => some '\t'
  | _ => none

/-- The units of a string up to its closing quote, and what follows it. -/
def readUnits? : List Char → Option (List StringUnit × List Char)
  | [] => none
  | '"' :: rest => some ([], rest)
  | '\\' :: 'u' :: a :: b :: c :: d :: rest => do
    let a ← hexValue? a
    let b ← hexValue? b
    let c ← hexValue? c
    let d ← hexValue? d
    let (us, rest) ← readUnits? rest
    some (.inr (((a * 16 + b) * 16 + c) * 16 + d) :: us, rest)
  | '\\' :: e :: rest => do
    let c ← escaped? e
    let (us, rest) ← readUnits? rest
    some (.inl c :: us, rest)
  | c :: rest =>
    if c.toNat < 0x20 || c == '\\' then none
    else do
      let (us, rest) ← readUnits? rest
      some (.inl c :: us, rest)

/-- Whether a unit is the first half of a pair. -/
def isHighHalf (n : Nat) : Bool := 0xD800 ≤ n && n ≤ 0xDBFF

/-- Whether a unit is the second half of a pair. -/
def isLowHalf (n : Nat) : Bool := 0xDC00 ≤ n && n ≤ 0xDFFF

/-- The text of a list of units; a half without its other half denotes nothing. -/
def joinUnits? : List StringUnit → Option (List Char)
  | [] => some []
  | .inl c :: us => (joinUnits? us).map (c :: ·)
  | .inr n :: us =>
    if isHighHalf n then
      match us with
      | .inr m :: us =>
        if isLowHalf m then
          (joinUnits? us).map (Char.ofNat (0x10000 + (n - 0xD800) * 0x400 + (m - 0xDC00)) :: ·)
        else none
      | _ => none
    else if isLowHalf n then none
    else (joinUnits? us).map (Char.ofNat n :: ·)

/-- A string after its opening quote. -/
def readString? (cs : List Char) : Option (Option String × List Char) := do
  let (us, rest) ← readUnits? cs
  some ((joinUnits? us).map String.ofList, rest)

/-! ## Values -/

mutual

/-- A value. -/
def readValue? : Nat → List Char → Option (JsonValue × List Char)
  | 0, _ => none
  | fuel + 1, cs =>
    match cs with
    | [] => none
    | '"' :: rest => (readString? rest).map fun r => (.string r.1, r.2)
    | '[' :: rest =>
      match skip rest with
      | ']' :: rest => some (.array [], rest)
      | rest => (readItems? fuel rest).map fun r => (.array r.1, r.2)
    | '{' :: rest =>
      match skip rest with
      | '}' :: rest => some (.object [], rest)
      | rest => (readFields? fuel rest).map fun r => (.object r.1, r.2)
    | 'n' :: 'u' :: 'l' :: 'l' :: rest => some (.null, rest)
    | 't' :: 'r' :: 'u' :: 'e' :: rest => some (.bool true, rest)
    | 'f' :: 'a' :: 'l' :: 's' :: 'e' :: rest => some (.bool false, rest)
    | cs => (readNumber? cs).map fun r => (.number r.1, r.2)

/-- The items of an array up to its closing bracket. -/
def readItems? : Nat → List Char → Option (List JsonValue × List Char)
  | 0, _ => none
  | fuel + 1, cs => do
    let (item, rest) ← readValue? fuel (skip cs)
    match skip rest with
    | ',' :: rest => (readItems? fuel (skip rest)).map fun r => (item :: r.1, r.2)
    | ']' :: rest => some ([item], rest)
    | _ => none

/-- The fields of an object up to its closing brace. -/
def readFields? : Nat → List Char → Option (List (Option String × JsonValue) × List Char)
  | 0, _ => none
  | fuel + 1, cs =>
    match skip cs with
    | '"' :: rest => do
      let (key, rest) ← readString? rest
      match skip rest with
      | ':' :: rest =>
        let (value, rest) ← readValue? fuel (skip rest)
        match skip rest with
        | ',' :: rest => (readFields? fuel rest).map fun r => ((key, value) :: r.1, r.2)
        | '}' :: rest => some ([(key, value)], rest)
        | _ => none
      | _ => none
    | _ => none

end

/-- Reads a whole text as one value. -/
def parse? (text : String) : Option JsonValue := do
  let cs := text.toList
  let (value, rest) ← readValue? (2 * cs.length + 1) (skip cs)
  if (skip rest).isEmpty then some value else none

end CoordTransform.JsonValue
