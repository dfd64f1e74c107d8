import Mathlib
import CoordTransform.Proofs.Coordinate.Forms
import CoordTransform.Proofs.Decimal.Layout

/-!
# Rereading Coordinates

The text of a coordinate is in the absolute form: it has as many commas as the coordinate has
components, less one, and no mark of another form. The texts of the components read back as the
components, to the last bit, so that the text of the coordinate is read back as the coordinate,
whatever the reference.
-/

namespace CoordTransform

/-! ## Texts of numbers -/

/-- The text of a legible number has no blanks around it. -/
theorem Numeral.Legible.isBlank_eq_false {x : Float} (hx : Numeral.Legible x) :
    ∀ c ∈ (Numeral.text x).toList, Text.isBlank c = false := by
  obtain ⟨sign, digits, htext, hsign, -, hdigits⟩ := hx.plain
  rw [htext]
  refine List.forall_mem_append.2 ⟨?_, fun c hc => Element.isBlank_eq_false ?_⟩
  · rcases hsign with rfl | rfl <;> simp [Text.isBlank, Text.blankRanges]
  · have := Element.toNat_of_isMantissaChar (hdigits c hc)
    omega

namespace Coordinate

theorem isNumber_text {x : Float} (hx : x.isFinite = true) :
    IsNumber (Numeral.text x).toList x := by
  have hlegible := Decimal.legible_of_isFinite hx
  rw [isNumber_iff, Text.trimChars_eq_self hlegible.isBlank_eq_false]
  exact ⟨hlegible.reads, hx⟩

/-! ## Texts of coordinates -/

/-- A coordinate of finite components, the height finite or missing. -/
structure IsFinite (c : Coordinate Float) : Prop where
  x : c.x.isFinite = true
  y : c.y.isFinite = true
  z : c.hasZ = true → c.z.isFinite = true

/-- The same components, bit by bit, and the same height or none. -/
structure SameBits (c d : Coordinate Float) : Prop where
  x : c.x.toBits = d.x.toBits
  y : c.y.toBits = d.y.toBits
  hasZ : c.hasZ = d.hasZ
  z : d.hasZ = true → c.z.toBits = d.z.toBits

variable {c : Coordinate Float}

/-- Commas stand between the texts of the components. -/
theorem isTuple_text (hc : c.IsFinite) :
    IsTuple c.text.toList c.x c.y (if c.hasZ then some c.z else none) := by
  have hcomma : ",".toList = [','] := by decide
  unfold text
  -- A missing height is not written.
  split
  · next hz =>
    have htuple := IsTuple.three (isNumber_text hc.x) (isNumber_text hc.y) (isNumber_text (hc.z hz))
    simpa only [String.toList_append, hcomma, List.append_assoc, List.cons_append,
      List.nil_append] using htuple
  · have htuple := IsTuple.two (isNumber_text hc.x) (isNumber_text hc.y)
    simpa only [String.toList_append, hcomma, List.append_assoc, List.cons_append,
      List.nil_append] using htuple

/-- The text says a point, and nothing relative. -/
theorem isForm_text (hc : c.IsFinite) :
    Says c.text (.absolute c.x c.y (if c.hasZ then some c.z else none)) :=
  .absolute (isTuple_trim.2 (isTuple_text hc))

theorem exists_parse_text (hc : c.IsFinite) (reference : Option (Coordinate Float)) :
    ∃ d, parse c.text reference = .ok d ∧ d.SameBits c := by
  rw [parse_eq_place (isForm_text hc)]
  cases hz : c.hasZ with
  | true => exact ⟨c, rfl, rfl, rfl, rfl, fun _ => rfl⟩
  | false => exact ⟨plane c.x c.y, rfl, rfl, rfl, (hasZ_plane _ _).trans hz.symm,
      fun h => absurd (h.symm.trans hz) (by decide)⟩

/-- Each text of a list is read back with whatever stands before it as its reference. -/
theorem exists_parseAllFrom_text {cs : List (Coordinate Float)} (hcs : ∀ c ∈ cs, c.IsFinite)
    (reference : Option (Coordinate Float)) :
    ∃ ds, parseAllFrom reference (cs.map text) = .ok ds ∧ List.Forall₂ SameBits ds cs := by
  -- What is read back may differ from the coordinate in the bits of a missing height, so that the
  -- reference of the next text is any.
  induction cs generalizing reference with
  | nil => exact ⟨[], rfl, .nil⟩
  | cons c cs ih =>
    obtain ⟨d, hd, hsame⟩ := exists_parse_text (hcs c List.mem_cons_self) reference
    obtain ⟨ds, hds, hall⟩ := ih (fun c hc => hcs c (List.mem_cons_of_mem _ hc)) (some d)
    refine ⟨d :: ds, ?_, .cons hsame hall⟩
    rw [List.map_cons, parseAllFrom]
    exact bind_eq_ok.2 ⟨d, hd, bind_eq_ok.2 ⟨ds, hds, rfl⟩⟩

/-- The text of a coordinate is read back as the coordinate with any reference, and the texts of a
list of coordinates as the list. -/
theorem parse_text_round_trip :
    (∀ c : Coordinate Float, c.IsFinite → ∀ reference,
      ∃ d, parse c.text reference = .ok d ∧ d.SameBits c) ∧
    ∀ cs : List (Coordinate Float), (∀ c ∈ cs, c.IsFinite) →
      ∃ ds, parseAll (cs.map text) = .ok ds ∧ List.Forall₂ SameBits ds cs :=
  ⟨fun _ hc reference => exists_parse_text hc reference,
    fun _ hcs => exists_parseAllFrom_text hcs none⟩

/-- The negative zero, the least double and the greatest power of ten are read back. -/
theorem parse_text_round_trip_extreme :
    (∃ d, parse (text ⟨-0, 5e-324, 0 / 0⟩) (some ⟨1, 2, 3⟩) = .ok d ∧
      d.SameBits ⟨-0, 5e-324, 0 / 0⟩) ∧
    ∃ ds, parseAll ([⟨-0, 5e-324, 0 / 0⟩, ⟨1e308, -1 / 3, -0⟩].map text) = .ok ds ∧
      List.Forall₂ SameBits ds [⟨-0, 5e-324, 0 / 0⟩, ⟨1e308, -1 / 3, -0⟩] := by
  have hplane : IsFinite ⟨-0, 5e-324, 0 / 0⟩ :=
    ⟨by decide +kernel, by decide +kernel, fun h => absurd h (by decide +kernel)⟩
  have hspace : IsFinite ⟨1e308, -1 / 3, -0⟩ :=
    ⟨by decide +kernel, by decide +kernel, fun _ => by decide +kernel⟩
  obtain ⟨hparse, hall⟩ := parse_text_round_trip
  refine ⟨hparse _ hplane _, hall _ fun c hc => ?_⟩
  rcases List.mem_pair.1 hc with rfl | rfl
  · exact hplane
  · exact hspace

end Coordinate

end CoordTransform
