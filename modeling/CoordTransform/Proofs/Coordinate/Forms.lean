import Mathlib
import CoordTransform.Coordinate.Text
import CoordTransform.Proofs.Computation
import CoordTransform.Proofs.Decimal.Grammar
import CoordTransform.Proofs.Text

/-!
# The Forms of Coordinates

What a text says is an *entry*: a point, an offset, or a length and an angle. The relation between
texts and entries is defined by the forms alone, without the order in which the reader takes a text
apart, and an entry yields a coordinate, the relative ones only with a previous coordinate.

The main result is that a text is read as exactly the coordinate that its entry yields. The reader
asks for a reference exactly when the entry needs one that is not there, and calls every text
without an entry malformed. A list of texts is read by chaining: each text has the coordinate
before it as its reference, and the first one that fails decides the error.
-/

namespace CoordTransform

/-! ## Kinds of errors -/

/-- The two kinds of errors. -/
inductive InputErrorKind where
  | invalidFormat
  | missingValue
  deriving DecidableEq, Repr

/-- The words of a message that name the kind. -/
def InputErrorKind.title : InputErrorKind → String
  | .invalidFormat => "Invalid format: "
  | .missingValue => "Missing value: "

namespace InputError

/-- A text with an entry lacks at most its reference. -/
def kind : InputError → InputErrorKind
  | .missingReference _ => .missingValue
  | _ => .invalidFormat

/-- The message starts with the words of the kind. -/
theorem message_kind (e : InputError) : ∃ detail, e.message = e.kind.title ++ detail := by
  -- The literals of the messages are cut behind the words of the kind.
  have hcut : "Invalid format: Polar input must be relative: " =
        "Invalid format: " ++ "Polar input must be relative: " ∧
      "Invalid format: Invalid " = "Invalid format: " ++ "Invalid " ∧
      "Invalid format: Cannot parse input: " = "Invalid format: " ++ "Cannot parse input: " ∧
      "Missing value: Reference coordinate required for " =
        "Missing value: " ++ "Reference coordinate required for " := by
    decide +kernel
  obtain ⟨hpolar, hnumber, hform, hreference⟩ := hcut
  cases e with
  | empty =>
    refine ⟨"Empty input", ?_⟩
    change "Invalid format: Empty input" = "Invalid format: " ++ "Empty input"
    decide +kernel
  | polarNotRelative input =>
    refine ⟨"Polar input must be relative: " ++ input, ?_⟩
    change "Invalid format: Polar input must be relative: " ++ input = "Invalid format: " ++ _
    rw [hpolar, String.append_assoc]
  | badNumber part found =>
    refine ⟨"Invalid " ++ (part.name ++ (": " ++ found)), ?_⟩
    change "Invalid format: Invalid " ++ part.name ++ ": " ++ found = "Invalid format: " ++ _
    rw [hnumber, String.append_assoc, String.append_assoc, String.append_assoc]
  | unknownForm input =>
    refine ⟨"Cannot parse input: " ++ input, ?_⟩
    change "Invalid format: Cannot parse input: " ++ input = "Invalid format: " ++ _
    rw [hform, String.append_assoc]
  | missingReference form =>
    refine ⟨"Reference coordinate required for " ++ form.name, ?_⟩
    change "Missing value: Reference coordinate required for " ++ form.name = "Missing value: " ++ _
    rw [hreference, String.append_assoc]

end InputError

namespace Coordinate

/-! ## Texts of numbers -/

/-- A text of a finite number, possibly with blanks around it. -/
def IsNumber (cs : List Char) (x : Float) : Prop :=
  ∃ negative d, Decimal.IsDecimal (Text.trimChars cs) negative d ∧
    x = (if negative then -d.toFloat else d.toFloat) ∧ x.isFinite = true

section Numbers

variable {cs : List Char} {x : Float}

theorem isNumber_iff : IsNumber cs x ↔
    Decimal.readFloat? (Text.trimChars cs) = some x ∧ x.isFinite = true := by
  constructor
  · rintro ⟨negative, d, hdecimal, rfl, hx⟩
    exact ⟨Decimal.readFloat?_of_isDecimal hdecimal, hx⟩
  · rintro ⟨hread, hx⟩
    obtain ⟨negative, d, hdecimal, rfl⟩ := Decimal.exists_isDecimal hread hx
    exact ⟨negative, d, hdecimal, rfl, hx⟩

theorem isNumber_congr {cs' : List Char} (h : Text.trimChars cs = Text.trimChars cs') :
    IsNumber cs x ↔ IsNumber cs' x := by
  rw [IsNumber, h, IsNumber]

theorem IsNumber.pad_left {lead : List Char} (h : IsNumber cs x)
    (hlead : ∀ c ∈ lead, Text.isBlank c = true) : IsNumber (lead ++ cs) x := by
  refine (isNumber_congr ?_).1 h
  rw [← Text.trimChars_append hlead (fun _ hc => nomatch hc : ∀ c ∈ [], _), List.append_nil]

theorem IsNumber.pad_right {tail : List Char} (h : IsNumber cs x)
    (htail : ∀ c ∈ tail, Text.isBlank c = true) : IsNumber (cs ++ tail) x := by
  refine (isNumber_congr ?_).1 h
  rw [← Text.trimChars_append (fun _ hc => nomatch hc : ∀ c ∈ [], _) htail, List.nil_append]

theorem IsNumber.dropWhile (h : IsNumber cs x) : IsNumber (cs.dropWhile Text.isBlank) x :=
  (isNumber_congr (Text.trimChars_dropWhile _)).2 h

theorem IsNumber.rdropWhile (h : IsNumber cs x) : IsNumber (cs.rdropWhile Text.isBlank) x :=
  (isNumber_congr (Text.trimChars_rdropWhile _)).2 h

/-- The commas and marks of the forms are no part of a number, nor of the blanks around it. -/
theorem IsNumber.not_mem (h : IsNumber cs x) {c : Char} (hblank : Text.isBlank c = false)
    (hnumber : Decimal.isNumberChar c = false) : c ∉ cs := by
  obtain ⟨negative, d, hdecimal, -⟩ := h
  obtain ⟨lead, tail, hlead, htail, hcs⟩ := Text.exists_trimChars cs
  rw [hcs, List.mem_append, List.mem_append]
  rintro ((hc | hc) | hc)
  · exact absurd (hlead c hc) (by rw [hblank]; decide)
  · exact absurd (hdecimal.chars c hc) (by rw [hnumber]; decide)
  · exact absurd (htail c hc) (by rw [hblank]; decide)

theorem readPart_eq_ok_iff {part : InputPart} : readPart part cs = .ok x ↔ IsNumber cs x := by
  rw [isNumber_iff]
  unfold readPart
  dsimp only
  -- A number has to be read, and has to be finite.
  cases Decimal.readFloat? (Text.trimChars cs) with
  | none => simp
  | some v =>
    dsimp only
    split
    · next hv =>
      constructor
      · rintro ⟨⟩
        exact ⟨rfl, hv⟩
      · rintro ⟨hread, -⟩
        rw [Option.some.inj hread]
    · next hv =>
      constructor
      · rintro ⟨⟩
      · rintro ⟨hread, hx⟩
        rw [Option.some.inj hread] at hv
        exact absurd hx hv

/-- A number that cannot be read is malformed. -/
theorem kind_of_readPart {part : InputPart} {e : InputError} (h : readPart part cs = .error e) :
    e.kind = .invalidFormat := by
  unfold readPart at h
  dsimp only at h
  split at h
  · split at h
    · cases h
    · cases h
      rfl
  · cases h
    rfl

end Numbers

/-! ## Entries -/

/-- What a text of a coordinate says. -/
inductive Entry where
  | absolute (x y : Float) (z : Option Float)
  | offset (dx dy : Float) (dz : Option Float)
  | polar (length degrees : Float)

/-- Whether an entry needs a previous coordinate. -/
def Entry.isRelative : Entry → Bool
  | .absolute .. => false
  | .offset .. => true
  | .polar .. => true

/-- Two or three numbers with commas between them. -/
inductive IsTuple : List Char → Float → Float → Option Float → Prop
  | two {a b : List Char} {x y : Float} (hx : IsNumber a x) (hy : IsNumber b y) :
    IsTuple (a ++ ',' :: b) x y none
  | three {a b c : List Char} {x y z : Float} (hx : IsNumber a x) (hy : IsNumber b y)
    (hz : IsNumber c z) : IsTuple (a ++ ',' :: (b ++ ',' :: c)) x y (some z)

/-- The three forms, without blanks around the whole text. -/
inductive IsForm : List Char → Entry → Prop
  | absolute {cs : List Char} {x y : Float} {z : Option Float} (h : IsTuple cs x y z) :
    IsForm cs (.absolute x y z)
  | offset {cs : List Char} {dx dy : Float} {dz : Option Float} (h : IsTuple cs dx dy dz) :
    IsForm ('@' :: cs) (.offset dx dy dz)
  | polar {a b : List Char} {length degrees : Float} (hlength : IsNumber a length)
    (hdegrees : IsNumber b degrees) : IsForm ('@' :: (a ++ '<' :: b)) (.polar length degrees)

/-- A text says an entry in one of the three forms, possibly with blanks around it. -/
def Says (text : String) (entry : Entry) : Prop := IsForm (Text.trimChars text.toList) entry

/-- The coordinate that an entry yields. A missing height of an offset counts as zero; where the
reference has no height, the one of the offset stands alone, or none. -/
inductive Entry.Yields : Entry → Option (Coordinate Float) → Coordinate Float → Prop
  | plane {x y : Float} {reference : Option (Coordinate Float)} :
    Yields (.absolute x y none) reference (.plane x y)
  | spatial {x y z : Float} {reference : Option (Coordinate Float)} :
    Yields (.absolute x y (some z)) reference ⟨x, y, z⟩
  | raised {dx dy : Float} {dz : Option Float} {origin : Coordinate Float}
    (horigin : origin.hasZ = true) : Yields (.offset dx dy dz) (some origin)
      ⟨origin.x + dx, origin.y + dy, origin.z + dz.getD 0⟩
  | lifted {dx dy dz : Float} {origin : Coordinate Float} (horigin : origin.hasZ = false) :
    Yields (.offset dx dy (some dz)) (some origin) ⟨origin.x + dx, origin.y + dy, dz⟩
  | level {dx dy : Float} {origin : Coordinate Float} (horigin : origin.hasZ = false) :
    Yields (.offset dx dy none) (some origin) (.plane (origin.x + dx) (origin.y + dy))
  | polar {length degrees : Float} {origin : Coordinate Float} :
    Yields (.polar length degrees) (some origin)
      ⟨origin.x + length * Trigonometry.standard.cos (toRadians degrees),
        origin.y + length * Trigonometry.standard.sin (toRadians degrees), origin.z⟩

/-- A coordinate without a height has none. -/
@[simp]
theorem hasZ_plane (x y : Float) : (plane x y).hasZ = false := by
  have hnan : Scalar.isUndefined (Scalar.undefined : Float) = true := by decide +kernel
  rw [hasZ, plane, hnan]
  rfl

/-! ## Tuples -/

section Tuples

variable {cs lead tail : List Char} {x y : Float} {z : Option Float}

theorem IsTuple.not_mem (h : IsTuple cs x y z) {c : Char} (hblank : Text.isBlank c = false)
    (hnumber : Decimal.isNumberChar c = false) (hcomma : c ≠ ',') : c ∉ cs := by
  cases h with
  | two hx hy => simp [hx.not_mem hblank hnumber, hy.not_mem hblank hnumber, hcomma]
  | three hx hy hz =>
    simp [hx.not_mem hblank hnumber, hy.not_mem hblank hnumber, hz.not_mem hblank hnumber, hcomma]

theorem isBlank_comma : Text.isBlank ',' = false := by decide

/-- Blanks around the whole are blanks around the first and the last number. -/
theorem IsTuple.pad (h : IsTuple cs x y z) (hlead : ∀ c ∈ lead, Text.isBlank c = true)
    (htail : ∀ c ∈ tail, Text.isBlank c = true) : IsTuple (lead ++ cs ++ tail) x y z := by
  cases h with
  | two hx hy =>
    have htuple := IsTuple.two (hx.pad_left hlead) (hy.pad_right htail)
    simpa only [List.append_assoc, List.cons_append] using htuple
  | three hx hy hz =>
    have htuple := IsTuple.three (hx.pad_left hlead) hy (hz.pad_right htail)
    simpa only [List.append_assoc, List.cons_append] using htuple

/-- Trimming the whole does no more than trimming each number does. -/
theorem isTuple_trim : IsTuple (Text.trimChars cs) x y z ↔ IsTuple cs x y z := by
  constructor
  · intro h
    -- Blanks in front of the first number and behind the last one belong to these numbers.
    obtain ⟨lead, tail, hlead, htail, hcs⟩ := Text.exists_trimChars cs
    rw [hcs]
    exact h.pad hlead htail
  · intro h
    -- Only the first number has blanks at the left of the text, and only the last one at its right.
    cases h with
    | two hx hy =>
      rw [Text.trimChars_append_cons _ _ isBlank_comma]
      exact .two hx.dropWhile hy.rdropWhile
    | three hx hy hz =>
      rw [Text.trimChars_append_cons _ _ isBlank_comma,
        Text.rdropWhile_append_cons _ _ isBlank_comma]
      exact .three hx.dropWhile hy hz.rdropWhile

end Tuples

/-! ## Reading the parts -/

/-- Fails with an error of a kind. -/
def FailsAs {β : Type} (kind : InputErrorKind) (result : Except InputError β) : Prop :=
  ∃ e, result = .error e ∧ e.kind = kind

section Reading

variable {cs : List Char} {x y : Float} {z : Option Float}

theorem FailsAs.bind {β γ : Type} {kind : InputErrorKind} {result : Except InputError β}
    (h : FailsAs kind result) (f : β → Except InputError γ) : FailsAs kind (result >>= f) := by
  obtain ⟨e, rfl, he⟩ := h
  exact ⟨e, rfl, he⟩

/-- A computation fails as its second half does when the first half succeeds. -/
theorem FailsAs.after {β γ : Type} {kind : InputErrorKind} {result : Except InputError β} {b : β}
    (h : result = .ok b) {f : β → Except InputError γ} (hf : FailsAs kind (f b)) :
    FailsAs kind (result >>= f) := by
  rw [h]
  exact hf

/-- Each part is a number or malformed. -/
theorem isNumber_or_fails (part : InputPart) (cs : List Char) :
    (∃ x, IsNumber cs x) ∨ FailsAs .invalidFormat (readPart part cs) := by
  cases h : readPart part cs with
  | ok x => exact .inl ⟨x, readPart_eq_ok_iff.1 h⟩
  | error e => exact .inr ⟨e, rfl, kind_of_readPart h⟩

theorem readNumbers_of_isTuple (h : IsTuple cs x y z) (input : String) :
    readNumbers input cs = .ok (x, y, z) := by
  unfold readNumbers
  -- No comma stands inside a number, so that the text is split where the commas are.
  cases h with
  | two hx hy =>
    rw [Text.splitAll_append _ _ (hx.not_mem isBlank_comma rfl),
      Text.splitAll_eq_singleton (hy.not_mem isBlank_comma rfl)]
    dsimp only
    rw [readPart_eq_ok_iff.2 hx, readPart_eq_ok_iff.2 hy]
    rfl
  | three hx hy hz =>
    rw [Text.splitAll_append _ _ (hx.not_mem isBlank_comma rfl),
      Text.splitAll_append _ _ (hy.not_mem isBlank_comma rfl),
      Text.splitAll_eq_singleton (hz.not_mem isBlank_comma rfl)]
    dsimp only
    rw [readPart_eq_ok_iff.2 hx, readPart_eq_ok_iff.2 hy, readPart_eq_ok_iff.2 hz]
    rfl

/-- Every text is a tuple or malformed. -/
theorem isTuple_or_fails (input : String) (cs : List Char) :
    (∃ x y z, IsTuple cs x y z) ∨ FailsAs .invalidFormat (readNumbers input cs) := by
  unfold readNumbers
  -- Two parts, three parts, or some other number of them; the first part that is no number decides.
  split
  · next a b hsplit =>
    rw [Text.eq_of_splitAll_pair hsplit]
    obtain ⟨x, hx⟩ | hx := isNumber_or_fails .x a
    · obtain ⟨y, hy⟩ | hy := isNumber_or_fails .y b
      · exact .inl ⟨x, y, none, .two hx hy⟩
      · exact .inr (.after (readPart_eq_ok_iff.2 hx) (hy.bind _))
    · exact .inr (hx.bind _)
  · next a b c hsplit =>
    rw [Text.eq_of_splitAll_triple hsplit]
    obtain ⟨x, hx⟩ | hx := isNumber_or_fails .x a
    · obtain ⟨y, hy⟩ | hy := isNumber_or_fails .y b
      · obtain ⟨z, hz⟩ | hz := isNumber_or_fails .z c
        · exact .inl ⟨x, y, some z, .three hx hy hz⟩
        · exact .inr (.after (readPart_eq_ok_iff.2 hx)
            (.after (readPart_eq_ok_iff.2 hy) (hz.bind _)))
      · exact .inr (.after (readPart_eq_ok_iff.2 hx) (hy.bind _))
    · exact .inr (hx.bind _)
  · exact .inr ⟨_, rfl, rfl⟩

end Reading

/-! ## Reading a text -/

section Texts

variable {text : String} {cs : List Char} {entry : Entry} {reference : Option (Coordinate Float)}

/-- What the reader makes of an entry. -/
def Entry.place (reference : Option (Coordinate Float)) :
    Entry → Except InputError (Coordinate Float)
  | .absolute x y z => .ok ⟨x, y, z.getD Scalar.undefined⟩
  | .offset dx dy dz => do return atOffset (← requireReference reference .cartesian) dx dy dz
  | .polar length degrees => do
    return atPolar (← requireReference reference .polar) length degrees

/-- Behind an `@` the text is relative. -/
theorem parse_of_at (h : Text.trimChars text.toList = '@' :: cs) :
    parse text reference =
      parseBody (String.ofList ('@' :: cs)) true (Text.trimChars cs) reference := by
  unfold parse
  rw [h]
  rfl

theorem parse_of_not_at (h : Text.trimChars text.toList = cs) (hne : cs ≠ [])
    (hat : ∀ rest, cs ≠ '@' :: rest) :
    parse text reference = parseBody (String.ofList cs) false cs reference := by
  unfold parse
  rw [h]
  dsimp only
  split
  · exact absurd rfl hne
  · exact absurd rfl (hat _)
  · rfl

theorem IsTuple.not_polar {x y : Float} {z : Option Float} (h : IsTuple cs x y z) :
    Text.splitFirst? '<' cs = none :=
  Text.splitFirst?_eq_none_iff.2 (h.not_mem (by decide) rfl (by decide))

/-- A text in one of the forms is read as its entry says. -/
theorem parse_eq_place (h : Says text entry) : parse text reference = entry.place reference := by
  unfold Says at h
  generalize hcs : Text.trimChars text.toList = cs at h
  cases h with
  | absolute htuple =>
    -- No number holds a mark, so that the text is not taken for another form.
    have hat : '@' ∉ cs := htuple.not_mem (by decide) rfl (by decide)
    have hne : cs ≠ [] := by cases htuple <;> simp
    rw [parse_of_not_at hcs hne (fun rest h => hat (h ▸ List.mem_cons_self)), parseBody,
      htuple.not_polar]
    dsimp only
    rw [readNumbers_of_isTuple htuple]
    rfl
  | offset htuple =>
    have htuple := isTuple_trim.2 htuple
    rw [parse_of_at hcs, parseBody, htuple.not_polar]
    dsimp only
    rw [readNumbers_of_isTuple htuple]
    rfl
  | @polar a b length degrees hlength hdegrees =>
    -- The first `<` is the one between the numbers: the length holds none.
    have hblank : Text.isBlank '<' = false := by decide
    rw [parse_of_at hcs, parseBody, Text.trimChars_append_cons _ _ hblank,
      Text.splitFirst?_append _ _ (hlength.dropWhile.not_mem hblank rfl)]
    dsimp only
    rw [readPart_eq_ok_iff.2 hlength.dropWhile, readPart_eq_ok_iff.2 hdegrees.rdropWhile]
    rfl

/-- What follows an `@` is a tuple, a length and an angle, or malformed. -/
theorem relative_or_fails (input : String) (cs : List Char)
    (reference : Option (Coordinate Float)) : (∃ entry, IsForm ('@' :: cs) entry) ∨
      FailsAs .invalidFormat (parseBody input true (Text.trimChars cs) reference) := by
  unfold parseBody
  split
  · next a b hsplit =>
    obtain ⟨hbody, -⟩ := Text.splitFirst?_eq_some hsplit
    -- The blanks behind the `@` and at the end count to the numbers next to them.
    obtain ⟨lead, tail, hlead, htail, hcs⟩ := Text.exists_trimChars cs
    rw [hbody] at hcs
    obtain ⟨length, hlength⟩ | hlength := isNumber_or_fails .length a
    · obtain ⟨degrees, hdegrees⟩ | hdegrees := isNumber_or_fails .angle b
      · refine .inl ⟨.polar length degrees, ?_⟩
        have hform := IsForm.polar (hlength.pad_left hlead) (hdegrees.pad_right htail)
        rw [hcs]
        simpa only [List.append_assoc, List.cons_append] using hform
      · exact .inr (.after (readPart_eq_ok_iff.2 hlength) (hdegrees.bind _))
    · exact .inr (hlength.bind _)
  · obtain ⟨x, y, z, htuple⟩ | hfails := isTuple_or_fails input (Text.trimChars cs)
    · exact .inl ⟨.offset x y z, .offset (isTuple_trim.1 htuple)⟩
    · exact .inr (hfails.bind _)

/-- Every text has an entry or is malformed. -/
theorem entry_or_fails (text : String) (reference : Option (Coordinate Float)) :
    (∃ entry, Says text entry) ∨ FailsAs .invalidFormat (parse text reference) := by
  unfold Says
  generalize hcs : Text.trimChars text.toList = cs
  -- The cases are those of the reader, in its order.
  by_cases hat : ∃ rest, cs = '@' :: rest
  · obtain ⟨rest, rfl⟩ := hat
    rw [parse_of_at hcs]
    exact relative_or_fails _ rest reference
  by_cases hne : cs = []
  · refine .inr ⟨.empty, ?_, rfl⟩
    unfold parse
    rw [hcs, hne]
  rw [parse_of_not_at hcs hne (not_exists.1 hat)]
  unfold parseBody
  split
  · exact .inr ⟨_, rfl, rfl⟩
  · obtain ⟨x, y, z, htuple⟩ | hfails := isTuple_or_fails (String.ofList cs) cs
    · exact .inl ⟨.absolute x y z, .absolute htuple⟩
    · exact .inr (hfails.bind _)

/-- An entry is placed where it yields a coordinate. -/
theorem place_eq_ok_iff {c : Coordinate Float} :
    entry.place reference = .ok c ↔ entry.Yields reference c := by
  constructor
  · intro h
    -- Absolute entries stand for themselves; all others need the coordinate they are relative to.
    rcases entry with ⟨x, y, _ | z⟩ | ⟨dx, dy, dz⟩ | ⟨length, degrees⟩
    · cases h
      exact .plane
    · cases h
      exact .spatial
    · rcases reference with _ | origin
      · cases h
      · cases h
        -- An offset in height counts only where the origin has a height.
        unfold atOffset
        cases horigin : origin.hasZ with
        | true => exact .raised horigin
        | false =>
          cases dz with
          | none => exact .level horigin
          | some dz => exact .lifted horigin
    · rcases reference with _ | origin
      · cases h
      · cases h
        exact .polar
  · intro h
    cases h with
    | plane => rfl
    | spatial => rfl
    | raised horigin | lifted horigin | level horigin =>
      simp [Entry.place, requireReference, atOffset, horigin, bind, Except.bind, pure, Except.pure,
        plane]
    | polar => rfl

/-- Only a relative entry without a reference lacks something. -/
theorem failsAs_place_iff {kind : InputErrorKind} : FailsAs kind (entry.place reference) ↔
    kind = .missingValue ∧ reference = none ∧ entry.isRelative = true := by
  constructor
  · rintro ⟨e, he, rfl⟩
    cases entry with
    | absolute => cases he
    | offset | polar =>
      cases reference with
      | some origin => cases he
      | none =>
        cases he
        exact ⟨rfl, rfl, rfl⟩
  · rintro ⟨rfl, rfl, hrelative⟩
    -- An absolute entry is placed without a reference.
    cases entry with
    | absolute => cases hrelative
    | offset => exact ⟨_, rfl, rfl⟩
    | polar => exact ⟨_, rfl, rfl⟩

end Texts

/-! ## Reading a list of texts -/

/-- The coordinate in front of one place of a list; in front of the first stands the reference. -/
def previous (reference : Option (Coordinate Float)) (cs : List (Coordinate Float)) :
    Nat → Option (Coordinate Float)
  | 0 => reference
  | i + 1 => cs[i]?

section Lists

variable {texts : List String} {cs : List (Coordinate Float)}
  {reference : Option (Coordinate Float)} {e : InputError}

/-- Behind a first coordinate, that coordinate is the reference. -/
theorem previous_cons (c : Coordinate Float) (cs : List (Coordinate Float)) (i : Nat) :
    previous reference (c :: cs) (i + 1) = previous (some c) cs i := by
  cases i <;> rfl

/-- Each text is read with the coordinate before it as its reference. -/
theorem parseAllFrom_eq_ok_iff : parseAllFrom reference texts = .ok cs ↔
    texts.length = cs.length ∧ ∀ i s c, texts[i]? = some s → cs[i]? = some c →
      parse s (previous reference cs i) = .ok c := by
  induction texts generalizing reference cs with
  | nil => cases cs <;> simp [parseAllFrom]
  | cons s texts ih =>
    rw [parseAllFrom, bind_eq_ok]
    constructor
    · -- The first coordinate becomes the reference of all others.
      rintro ⟨c, hc, h⟩
      obtain ⟨cs, hcs, h⟩ := bind_eq_ok.1 h
      cases h
      obtain ⟨hlength, hall⟩ := ih.1 hcs
      refine ⟨congrArg (· + 1) hlength, fun i s' c' hs' hc' => ?_⟩
      cases i with
      | zero =>
        cases hs'
        cases hc'
        exact hc
      | succ i =>
        rw [previous_cons]
        exact hall i s' c' hs' hc'
    · rintro ⟨hlength, hall⟩
      obtain ⟨c, cs, rfl⟩ := List.exists_cons_of_length_eq_add_one hlength.symm
      refine ⟨c, hall 0 s c rfl rfl, bind_eq_ok.2 ⟨cs, ih.2 ⟨Nat.succ.inj hlength, ?_⟩, rfl⟩⟩
      intro i s' c' hs' hc'
      -- The reference of a later text does not change when the first one is taken away.
      rw [← previous_cons]
      exact hall (i + 1) s' c' hs' hc'

/-- The error is that of the first text that fails. -/
theorem parseAllFrom_eq_error_iff : parseAllFrom reference texts = .error e ↔
    ∃ before s after cs, texts = before ++ s :: after ∧ parseAllFrom reference before = .ok cs ∧
      parse s (previous reference cs before.length) = .error e := by
  induction texts generalizing reference with
  | nil => simp [parseAllFrom]
  | cons s texts ih =>
    rw [parseAllFrom, bind_eq_error]
    constructor
    · -- The first text fails, or it is read and a later one fails.
      rintro (he | ⟨c, hc, he⟩)
      · exact ⟨[], s, texts, [], rfl, rfl, he⟩
      · obtain he | ⟨_, _, h⟩ := bind_eq_error.1 he
        · obtain ⟨before, s', after, cs, rfl, hbefore, he⟩ := ih.1 he
          refine ⟨s :: before, s', after, c :: cs, rfl, ?_, ?_⟩
          · rw [parseAllFrom]
            exact bind_eq_ok.2 ⟨c, hc, bind_eq_ok.2 ⟨cs, hbefore, rfl⟩⟩
          · rw [List.length_cons, previous_cons]
            exact he
        · cases h
    · rintro ⟨before, s', after, cs, hsplit, hbefore, he⟩
      -- The failing text is the first one, or stands among those behind it.
      cases before with
      | nil =>
        cases hsplit
        cases hbefore
        exact .inl he
      | cons _ before =>
        cases hsplit
        obtain ⟨c, hc, h⟩ := bind_eq_ok.1 hbefore
        obtain ⟨cs, hcs, h⟩ := bind_eq_ok.1 h
        cases h
        rw [List.length_cons, previous_cons] at he
        exact .inr ⟨c, hc, bind_eq_error.2 (.inl (ih.2 ⟨before, s', after, cs, rfl, hcs, he⟩))⟩

end Lists

/-! ## The main result -/

/-- A text is read as the coordinate that its entry yields. It lacks a value when it says a relative
entry and there is no reference, and is malformed when it says no entry. A list is read when each
text is, with the coordinate before it as its reference, and otherwise fails as the first text of
it that fails. -/
theorem parse_forms :
    (∀ text reference c, parse text reference = .ok c ↔
      ∃ entry, Says text entry ∧ entry.Yields reference c) ∧
    (∀ text reference, FailsAs .missingValue (parse text reference) ↔
      reference = none ∧ ∃ entry, Says text entry ∧ entry.isRelative = true) ∧
    (∀ text reference, FailsAs .invalidFormat (parse text reference) ↔
      ¬∃ entry, Says text entry) ∧
    (∀ texts cs, parseAll texts = .ok cs ↔
      texts.length = cs.length ∧ ∀ i s c, texts[i]? = some s → cs[i]? = some c →
        parse s (previous none cs i) = .ok c) ∧
    ∀ texts e, parseAll texts = .error e ↔
      ∃ before s after cs, texts = before ++ s :: after ∧ parseAll before = .ok cs ∧
        parse s (previous none cs before.length) = .error e := by
  refine ⟨fun text reference c => ?_, fun text reference => ?_, fun text reference => ?_,
    fun texts cs => parseAllFrom_eq_ok_iff, fun texts e => parseAllFrom_eq_error_iff⟩
  · constructor
    · intro h
      -- A text says an entry or is malformed, and only the former leaves anything to be placed.
      obtain ⟨entry, hform⟩ | ⟨e, he, -⟩ := entry_or_fails text reference
      · rw [parse_eq_place hform] at h
        exact ⟨entry, hform, place_eq_ok_iff.1 h⟩
      · rw [h] at he
        cases he
    · rintro ⟨entry, hform, hyields⟩
      rw [parse_eq_place hform]
      exact place_eq_ok_iff.2 hyields
  · constructor
    · intro h
      -- What a malformed text fails with is of another kind.
      obtain ⟨entry, hform⟩ | ⟨e, he, hkind⟩ := entry_or_fails text reference
      · rw [parse_eq_place hform] at h
        obtain ⟨-, hreference, hrelative⟩ := failsAs_place_iff.1 h
        exact ⟨hreference, entry, hform, hrelative⟩
      · obtain ⟨e', he', hkind'⟩ := h
        cases he.symm.trans he'
        cases hkind.symm.trans hkind'
    · rintro ⟨hreference, entry, hform, hrelative⟩
      rw [parse_eq_place hform]
      exact failsAs_place_iff.2 ⟨rfl, hreference, hrelative⟩
  · constructor
    · rintro h ⟨entry, hform⟩
      rw [parse_eq_place hform] at h
      cases (failsAs_place_iff.1 h).1
    · exact (entry_or_fails text reference).resolve_left

/-- An offset in a list of texts is one from the coordinate before it, whose height it keeps; alone
it lacks a reference. -/
theorem parse_forms_chained : FailsAs .missingValue (parse " @ 1,-2" none) ∧
    parseAll ["3,4,7", " @ 1,-2"] = .ok [⟨3, 4, 7⟩, ⟨3 + 1, 4 + -2, 7 + 0⟩] := by
  obtain ⟨hread, hlacks, -, hall, -⟩ := parse_forms
  have hpoint : Says "3,4,7" (.absolute 3 4 (some 7)) := by
    have htext : Text.trimChars "3,4,7".toList = ['3', ',', '4', ',', '7'] := by decide +kernel
    rw [Says, htext]
    exact .absolute (.three (a := ['3']) (b := ['4']) (c := ['7'])
      (isNumber_iff.2 ⟨by with_unfolding_all rfl, by decide +kernel⟩)
      (isNumber_iff.2 ⟨by with_unfolding_all rfl, by decide +kernel⟩)
      (isNumber_iff.2 ⟨by with_unfolding_all rfl, by decide +kernel⟩))
  have hoffset : Says " @ 1,-2" (.offset 1 (-2) none) := by
    have htext : Text.trimChars " @ 1,-2".toList = ['@', ' ', '1', ',', '-', '2'] := by
      decide +kernel
    rw [Says, htext]
    exact .offset (.two (a := [' ', '1']) (b := ['-', '2'])
      (isNumber_iff.2 ⟨by with_unfolding_all rfl, by decide +kernel⟩)
      (isNumber_iff.2 ⟨by with_unfolding_all rfl, by decide +kernel⟩))
  refine ⟨(hlacks _ _).2 ⟨rfl, _, hoffset, rfl⟩, (hall _ _).2 ⟨rfl, ?_⟩⟩
  intro i s c hs hc
  -- The list has two texts; the first has no reference, the second has the first.
  rcases i with _ | _ | i
  · cases hs
    cases hc
    exact (hread _ _ _).2 ⟨_, hpoint, .spatial⟩
  · cases hs
    cases hc
    have hheight : Coordinate.hasZ (⟨3, 4, 7⟩ : Coordinate Float) = true := by decide +kernel
    exact (hread _ _ _).2 ⟨_, hoffset, .raised hheight⟩
  · cases hs

end Coordinate

end CoordTransform
