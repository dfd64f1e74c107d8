import Mathlib
import CoordTransform.Decimal.Layout
import CoordTransform.Proofs.Decimal.Grammar
import CoordTransform.Proofs.Decimal.Nearest
import CoordTransform.Proofs.Element.Scanning

/-!
# Plain Texts Read Back

The plain text of a finite double is a sign and a mantissa without exponent. The mantissa has the
exact value of the shortest decimal, whether the point stands among its digits, zeros follow them or
zeros stand before them. So the text is read back as the double, to the last bit and with the sign
of zero.
-/

namespace CoordTransform.Decimal

open Double (magnitude? magnitude?_inj magnitude?_neg magnitude?_pack_zero value Canonical signOf)

/-! ## Digits -/

theorem digits_digitChars (n : Nat) : Digits (digitChars n) :=
  fun _ hc => Nat.isDigit_of_mem_toDigits (by decide) (by decide) hc

theorem digits_zeros (n : Nat) : Digits (zeros n) := by
  intro c hc
  rw [List.eq_of_mem_replicate hc]
  rfl

theorem digitsValue_eq (cs : List Char) : digitsValue cs = Nat.ofDigitChars 10 cs 0 := by
  rw [Nat.ofDigitChars_eq_foldl]
  rfl

/-- The digits of a number denote it. -/
theorem digitsValue_digitChars (n : Nat) : digitsValue (digitChars n) = n := by
  rw [digitsValue_eq, digitChars, Nat.ofDigitChars_ten_toDigits]

/-- Each zero behind digits makes ten times as much of them. -/
theorem digitsValue_append_zeros (cs : List Char) (n : Nat) :
    digitsValue (cs ++ zeros n) = digitsValue cs * 10 ^ n := by
  rw [digitsValue_eq, Nat.ofDigitChars_append, zeros, Nat.ofDigitChars_replicate_zero,
    ← digitsValue_eq, mul_comm]

/-- Zeros before digits count nothing. -/
theorem digitsValue_zeros_append (n : Nat) (cs : List Char) :
    digitsValue (zeros n ++ cs) = digitsValue cs := by
  rw [digitsValue_eq, Nat.ofDigitChars_append, zeros, Nat.ofDigitChars_replicate_zero,
    Nat.mul_zero, ← digitsValue_eq]

/-! ## The plain layout -/

namespace Fraction

/-- The plain layout is a mantissa of the same value. -/
theorem isMantissa_plainChars (d : Fraction) :
    ∃ d', IsMantissa d.plainChars d' ∧ d'.toRat = d.toRat := by
  have hdigits := digits_digitChars d.digits
  have hne : digitChars d.digits ≠ [] := Nat.toDigits_ne_nil
  unfold plainChars
  dsimp only
  split
  · next hexponent =>
    -- Zeros follow the digits.
    split
    · next hzero =>
      refine ⟨_, .whole (fun c hc => by rw [List.mem_singleton.1 hc]; rfl) (by simp), ?_⟩
      rw [toRat, toRat, eq_of_beq hzero]
      simp [digitsValue]
    · refine ⟨_, .whole (hdigits.append (digits_zeros _)) (by simp [hne]), ?_⟩
      rw [toRat, toRat, digitsValue_append_zeros, digitsValue_digitChars, zpow_zero, mul_one]
      conv_rhs => rw [← Int.toNat_of_nonneg hexponent, zpow_natCast]
      push_cast
      rfl
  · next hexponent =>
    have hplaces : -((-d.exponent).toNat : Int) = d.exponent := by omega
    split
    · next hlength =>
      -- The point stands among the digits.
      have hsplit := List.take_append_drop ((digitChars d.digits).length - (-d.exponent).toNat)
        (digitChars d.digits)
      refine ⟨_, .pointed (fun c hc => hdigits c (List.mem_of_mem_take hc))
        (fun c hc => hdigits c (List.mem_of_mem_drop hc)) (by rw [hsplit]; exact hne), ?_⟩
      rw [toRat, toRat, hsplit, digitsValue_digitChars, List.length_drop,
        Nat.sub_sub_self hlength.le, hplaces]
    · next hlength =>
      -- Zeros stand before the digits.
      have hwhole : Digits ['0'] := fun c hc => by rw [List.mem_singleton.1 hc]; rfl
      have hmantissa := IsMantissa.pointed hwhole ((digits_zeros
        ((-d.exponent).toNat - (digitChars d.digits).length)).append hdigits) (by simp)
      have hvalue : digitsValue (['0'] ++ (zeros ((-d.exponent).toNat -
          (digitChars d.digits).length) ++ digitChars d.digits)) = d.digits := by
        rw [show ['0'] = zeros 1 from rfl, digitsValue_zeros_append, digitsValue_zeros_append,
          digitsValue_digitChars]
      refine ⟨_, hmantissa, ?_⟩
      rw [toRat, toRat, hvalue, List.length_append, zeros, List.length_replicate,
        Nat.sub_add_cancel (not_lt.1 hlength), hplaces]

theorem magnitude?_toFloat_of_zero {d : Fraction} (h : d.toRat = 0) :
    magnitude? d.toFloat = some (.positive, 0) := by
  have hd : d.digits = 0 := by
    rw [toRat, mul_eq_zero, or_iff_left (ten_zpow_pos _).ne', Nat.cast_eq_zero] at h
    exact h
  rw [toFloat, hd]
  exact magnitude?_pack_zero .positive

end Fraction

/-- A decimal of the value of the shortest one is read as the double. -/
theorem magnitude?_toFloat_of_shortest {b : Binary} {d : Fraction}
    (hb : Canonical b.significand b.exponent) (he : b.exponent ≤ 971)
    (hd : d.toRat = b.shortest.toRat) :
    magnitude? d.toFloat = some (.positive, value b.significand b.exponent) := by
  rcases Nat.eq_zero_or_pos b.significand with hzero | hpos
  · rw [Binary.shortest, if_pos (by simp [hzero])] at hd
    have hvalue : value b.significand b.exponent = 0 := by simp [value, hzero]
    rw [hvalue]
    exact Fraction.magnitude?_toFloat_of_zero (by simpa [Fraction.toRat] using hd)
  · exact magnitude?_toFloat_of_attracts hpos hb he (hd ▸ Binary.attracts_shortest hpos hb he)

/-- The text of every finite double is a plain decimal that reads back as the double. -/
theorem legible_of_isFinite {x : Float} (hx : x.isFinite = true) : Numeral.Legible x := by
  obtain ⟨negative, b, hparts⟩ := Double.exists_ofFloat hx
  obtain ⟨hmagnitude, hb, he⟩ := Double.magnitude?_of_ofFloat hparts
  obtain ⟨d, hmantissa, hvalue⟩ := b.shortest.isMantissa_plainChars
  have hread := magnitude?_toFloat_of_shortest hb he hvalue
  have htext : (Numeral.text x).toList = signed negative b.shortest.plainChars := by
    change (layoutWith _ (Parts.ofFloat x)).toList = _
    rw [hparts, layoutWith, String.toList_ofList]
  have hsigned : signed negative b.shortest.plainChars =
      (if negative then ['-'] else []) ++ b.shortest.plainChars := by
    cases negative <;> rfl
  rw [hsigned] at htext
  -- Without an exponent the text is a mantissa with a sign in front.
  have hdecimal : IsDecimal (Numeral.text x).toList negative ⟨d.digits, d.exponent + 0⟩ := by
    have hmagnitude := IsMagnitude.intro hmantissa .absent
    rw [List.append_nil] at hmagnitude
    rw [htext]
    refine .intro ?_ hmagnitude
    cases negative
    · exact .absent
    · exact .minus
  -- The text is a sign, a mantissa and nothing else, and is read as the double.
  refine ⟨hx, ⟨_, _, htext, ?_, hmantissa.ne_nil, fun c hc => ?_⟩, ?_⟩
  · cases negative
    · exact .inl rfl
    · exact .inr rfl
  · rcases hmantissa.chars c hc with hdigit | rfl
    · simp [Element.isMantissaChar, hdigit]
    · rfl
  · rw [Int.add_zero] at hdecimal
    refine (readFloat?_of_isDecimal hdecimal).trans (congrArg some ?_)
    -- The reader gives the magnitude of the double, whose sign is the one that was written.
    cases negative
    · exact magnitude?_inj hread hmagnitude
    · exact magnitude?_inj (magnitude?_neg hread) hmagnitude

end CoordTransform.Decimal
