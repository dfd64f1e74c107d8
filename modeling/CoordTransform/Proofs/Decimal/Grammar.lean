import Mathlib
import CoordTransform.Decimal.Reading

/-!
# The Grammar of Numbers

The texts of finite numbers, `[+-]? (digits '.'? digits? | '.' digits) ([eE] [+-]? digits)?`, as an
inductive relation between a text and the signed decimal fraction that it denotes. The reader
accepts exactly these texts, so that no text of a number holds a separator of a list.
-/

namespace CoordTransform.Decimal

/-! ## Productions -/

/-- A text of digits only. -/
def Digits (cs : List Char) : Prop := ∀ c ∈ cs, c.isDigit = true

/-- An optional sign, and whether it is a minus. -/
inductive IsSign : List Char → Bool → Prop
  | absent : IsSign [] false
  | plus : IsSign ['+'] false
  | minus : IsSign ['-'] true

/-- Digits with at most one point among them, at least one digit in all. -/
inductive IsMantissa : List Char → Fraction → Prop
  | whole {ds : List Char} (hdigits : Digits ds) (hne : ds ≠ []) :
    IsMantissa ds ⟨digitsValue ds, 0⟩
  | pointed {whole places : List Char} (hwhole : Digits whole) (hplaces : Digits places)
    (hne : whole ++ places ≠ []) :
    IsMantissa (whole ++ '.' :: places) ⟨digitsValue (whole ++ places), -(places.length : Int)⟩

/-- Digits with an optional sign. -/
inductive IsInteger : List Char → Int → Prop
  | intro {sign ds : List Char} {negative : Bool} (hsign : IsSign sign negative)
    (hdigits : Digits ds) (hne : ds ≠ []) :
    IsInteger (sign ++ ds) (if negative then -(digitsValue ds : Int) else digitsValue ds)

/-- An optional exponent. -/
inductive IsPower : List Char → Int → Prop
  | absent : IsPower [] 0
  | present {mark : Char} {cs : List Char} {e : Int} (hmark : isExponentMark mark = true)
    (hinteger : IsInteger cs e) : IsPower (mark :: cs) e

/-- A mantissa with an optional exponent. -/
inductive IsMagnitude : List Char → Fraction → Prop
  | intro {mantissa power : List Char} {m : Fraction} {e : Int} (hmantissa : IsMantissa mantissa m)
    (hpower : IsPower power e) : IsMagnitude (mantissa ++ power) ⟨m.digits, m.exponent + e⟩

/-- A magnitude with an optional sign. -/
inductive IsDecimal : List Char → Bool → Fraction → Prop
  | intro {sign magnitude : List Char} {negative : Bool} {d : Fraction}
    (hsign : IsSign sign negative) (hmagnitude : IsMagnitude magnitude d) :
    IsDecimal (sign ++ magnitude) negative d

/-! ## Characters of numbers -/

/-- Digits, points, signs and the marks of exponents. -/
def isNumberChar (c : Char) : Bool :=
  c.isDigit || c == '.' || c == '+' || c == '-' || isExponentMark c

section Characters

variable {cs : List Char} {d : Fraction} {e : Int} {negative : Bool}

theorem isNumberChar_of_isDigit {c : Char} (h : c.isDigit = true) : isNumberChar c = true := by
  simp [isNumberChar, h]

theorem Digits.append {cs' : List Char} (h : Digits cs) (h' : Digits cs') : Digits (cs ++ cs') :=
  List.forall_mem_append.2 ⟨h, h'⟩

theorem IsSign.chars (h : IsSign cs negative) : ∀ c ∈ cs, isNumberChar c = true := by
  cases h <;> simp [isNumberChar]

/-- A mantissa is made of digits and points. -/
theorem IsMantissa.chars (h : IsMantissa cs d) : ∀ c ∈ cs, c.isDigit = true ∨ c = '.' := by
  cases h with
  | whole hdigits => exact fun c hc => .inl (hdigits c hc)
  | pointed hwhole hplaces =>
    intro c hc
    rcases List.mem_append.1 hc with hc | hc
    · exact .inl (hwhole c hc)
    · rcases List.mem_cons.1 hc with rfl | hc
      · exact .inr rfl
      · exact .inl (hplaces c hc)

theorem IsMantissa.ne_nil (h : IsMantissa cs d) : cs ≠ [] := by
  cases h with
  | whole _ hne => exact hne
  | pointed => simp

theorem IsPower.chars (h : IsPower cs e) : ∀ c ∈ cs, isNumberChar c = true := by
  cases h with
  | absent => simp
  | present hmark hinteger =>
    cases hinteger with
    | intro hsign hdigits =>
      intro c hc
      rcases List.mem_cons.1 hc with rfl | hc
      · simp [isNumberChar, hmark]
      · rcases List.mem_append.1 hc with hc | hc
        · exact hsign.chars c hc
        · exact isNumberChar_of_isDigit (hdigits c hc)

theorem IsDecimal.chars (h : IsDecimal cs negative d) : ∀ c ∈ cs, isNumberChar c = true := by
  cases h with
  | intro hsign hmagnitude =>
    cases hmagnitude with
    | intro hmantissa hpower =>
      have hchars : ∀ c, c.isDigit = true ∨ c = '.' → isNumberChar c = true := by
        rintro c (hc | rfl)
        · exact isNumberChar_of_isDigit hc
        · rfl
      exact List.forall_mem_append.2 ⟨hsign.chars, List.forall_mem_append.2
        ⟨fun c hc => hchars c (hmantissa.chars c hc), hpower.chars⟩⟩

theorem IsMagnitude.head (h : IsMagnitude cs d) :
    ∃ c rest, cs = c :: rest ∧ (c.isDigit = true ∨ c = '.') := by
  cases h with
  | intro hmantissa hpower =>
    obtain ⟨c, rest, rfl⟩ := List.exists_cons_of_ne_nil hmantissa.ne_nil
    exact ⟨c, rest ++ _, rfl, hmantissa.chars c List.mem_cons_self⟩

end Characters

/-! ## Reading the parts -/

section Parts

variable {cs : List Char} {d : Fraction} {e : Int}

/-- What is taken off a text ends where a character of another class follows. -/
theorem span_append {p : Char → Bool} {whole : List Char} (rest : List Char)
    (hwhole : ∀ c ∈ whole, p c = true)
    (hrest : ∀ c ∈ rest.head?, p c = false) :
    (whole ++ rest).takeWhile p = whole ∧ (whole ++ rest).dropWhile p = rest := by
  rw [List.takeWhile_append_of_pos hwhole, List.dropWhile_append_of_pos hwhole]
  cases rest with
  | nil => simp
  | cons c rest => simp [hrest c rfl]

theorem readMantissa?_eq_some_iff : readMantissa? cs = some d ↔ IsMantissa cs d := by
  constructor
  · intro h
    -- The reader cuts the text behind its first digits, and what follows is nothing, a point or a
    -- fault.
    have hsplit := List.takeWhile_append_dropWhile (p := Char.isDigit) (l := cs)
    have hwhole : Digits (cs.takeWhile Char.isDigit) := fun c hc => List.mem_takeWhile_imp hc
    unfold readMantissa? at h
    dsimp only at h
    generalize cs.takeWhile Char.isDigit = whole at h hsplit hwhole
    split at h
    · next hrest =>
      rw [hrest, List.append_nil] at hsplit
      subst hsplit
      -- At least one digit has to stand somewhere, in front of the point or behind it.
      split at h
      · cases h
      · next hne =>
        cases h
        exact .whole hwhole (by simpa using hne)
    · next c places hrest =>
      rw [hrest] at hsplit
      subst hsplit
      split at h
      · cases h
      · next hne =>
        cases h
        simp only [Bool.or_eq_true, Bool.and_eq_true, bne_iff_ne, Bool.not_eq_true',
          List.isEmpty_iff, not_or, not_and, ne_eq, not_not, Bool.not_eq_false] at hne
        obtain ⟨⟨rfl, hplaces⟩, hne⟩ := hne
        refine .pointed hwhole (List.all_eq_true.1 hplaces) fun hnil => ?_
        rw [List.append_eq_nil_iff] at hnil
        exact hne hnil.1 hnil.2
  · rintro (⟨hdigits, hne⟩ | ⟨hwhole, hplaces, hne⟩)
    · -- What is in the grammar is cut by the reader where the production ends.
      have hspan := span_append [] hdigits (by simp)
      rw [List.append_nil] at hspan
      simp [readMantissa?, hspan.1, hspan.2, hne]
    · next whole places =>
      have hspan := span_append ('.' :: places) hwhole (by simp)
      have hplaces' : places.all Char.isDigit = true := List.all_eq_true.2 hplaces
      have hne' : (whole.isEmpty && places.isEmpty) = false := by
        rw [← Bool.not_eq_true, Bool.and_eq_true, List.isEmpty_iff, List.isEmpty_iff]
        rintro ⟨rfl, rfl⟩
        exact hne rfl
      simp [readMantissa?, hspan.1, hspan.2, hplaces', hne']

/-- A sign is taken off in front of anything that does not start with one. -/
theorem splitSign_append {sign rest : List Char} {negative : Bool} (hsign : IsSign sign negative)
    (hrest : ∀ c ∈ rest.head?, c ≠ '-' ∧ c ≠ '+') :
    splitSign (sign ++ rest) = (negative, rest) := by
  cases hsign with
  | plus => rfl
  | minus => rfl
  | absent =>
    rw [List.nil_append]
    unfold splitSign
    split
    · exact absurd rfl (hrest _ rfl).1
    · exact absurd rfl (hrest _ rfl).2
    · rfl

theorem exists_isSign (cs : List Char) :
    ∃ sign, IsSign sign (splitSign cs).1 ∧ cs = sign ++ (splitSign cs).2 := by
  unfold splitSign
  split
  · exact ⟨['-'], .minus, rfl⟩
  · exact ⟨['+'], .plus, rfl⟩
  · exact ⟨[], .absent, rfl⟩

theorem ne_of_digit_or_point {c d : Char} (hc : c.isDigit = true ∨ c = '.')
    (hd : d.isDigit = false) (hd' : d ≠ '.') : c ≠ d := by
  rintro rfl
  rcases hc with hc | hc
  · rw [hd] at hc
    cases hc
  · exact hd' hc

theorem not_sign_of_digit_or_point {c : Char} (h : c.isDigit = true ∨ c = '.') :
    c ≠ '-' ∧ c ≠ '+' :=
  ⟨ne_of_digit_or_point h rfl (by decide), ne_of_digit_or_point h rfl (by decide)⟩

theorem readInteger?_eq_some_iff : readInteger? cs = some e ↔ IsInteger cs e := by
  constructor
  · intro h
    obtain ⟨sign, hsign, hcs⟩ := exists_isSign cs
    unfold readInteger? at h
    dsimp only at h
    -- The reader takes a sign off first, and the digits are all the rest.
    generalize splitSign cs = parts at h hsign hcs
    obtain ⟨negative, ds⟩ := parts
    subst hcs
    split at h
    · cases h
    · next hds =>
      simp only [Bool.or_eq_true, List.isEmpty_iff, Bool.not_eq_true', not_or,
        Bool.not_eq_false] at hds
      have he : (if negative then -(digitsValue ds : Int) else digitsValue ds) = e := by
        cases negative
        · exact Option.some.inj h
        · exact Option.some.inj h
      exact he ▸ .intro hsign (List.all_eq_true.1 hds.2) hds.1
  · rintro ⟨hsign, hdigits, hne⟩
    next sign ds negative =>
    have hsplit : splitSign (sign ++ ds) = (negative, ds) := by
      refine splitSign_append hsign fun c hc => not_sign_of_digit_or_point (.inl ?_)
      exact hdigits c (List.mem_of_mem_head? hc)
    have hdigits' : ds.all Char.isDigit = true := List.all_eq_true.2 hdigits
    unfold readInteger?
    rw [hsplit]
    cases negative <;> simp [hdigits', hne]

theorem not_mark_of_digit_or_point {c : Char} (h : c.isDigit = true ∨ c = '.') :
    isExponentMark c = false := by
  rw [isExponentMark, Bool.or_eq_false_iff, beq_eq_false_iff_ne, beq_eq_false_iff_ne]
  exact ⟨ne_of_digit_or_point h rfl (by decide), ne_of_digit_or_point h rfl (by decide)⟩

theorem readMagnitude?_eq_some_iff : readMagnitude? cs = some d ↔ IsMagnitude cs d := by
  constructor
  · intro h
    have hsplit := List.takeWhile_append_dropWhile (p := (!isExponentMark ·)) (l := cs)
    have hhead := List.head?_dropWhile_not (!isExponentMark ·) cs
    unfold readMagnitude? at h
    dsimp only at h
    -- Only the cut at the exponent mark matters, not how it was found.
    generalize cs.takeWhile (!isExponentMark ·) = mantissa at h hsplit
    generalize cs.dropWhile (!isExponentMark ·) = power at h hsplit hhead
    subst hsplit
    cases power with
    | nil =>
      have hmagnitude := IsMagnitude.intro (readMantissa?_eq_some_iff.1 h) .absent
      rwa [Int.add_zero] at hmagnitude
    | cons mark exponent =>
      obtain ⟨m, hm, h⟩ := Option.bind_eq_some_iff.1 h
      obtain ⟨e, he, h⟩ := Option.bind_eq_some_iff.1 h
      cases h
      refine .intro (readMantissa?_eq_some_iff.1 hm) (.present ?_ (readInteger?_eq_some_iff.1 he))
      simpa using hhead
  · rintro ⟨hmantissa, hpower⟩
    next mantissa power m e =>
    -- No exponent mark stands in a mantissa, so that the text is cut at the first one.
    have hmarks : ∀ c ∈ mantissa, (!isExponentMark c) = true := by
      intro c hc
      rw [not_mark_of_digit_or_point (hmantissa.chars c hc)]
      rfl
    have hspan : ∀ c ∈ power.head?, (!isExponentMark c) = false := by
      cases hpower with
      | absent => simp
      | present hmark =>
        rintro _ ⟨⟩
        rw [hmark]
        rfl
    obtain ⟨htake, hdrop⟩ := span_append power hmarks hspan
    unfold readMagnitude?
    dsimp only
    rw [htake, hdrop, readMantissa?_eq_some_iff.2 hmantissa]
    cases hpower with
    | absent => simp
    | present hmark hinteger => simp [readInteger?_eq_some_iff.2 hinteger]

end Parts

/-! ## Reading a number -/

section Numbers

variable {cs : List Char} {d : Fraction} {negative : Bool}

/-- A text that starts with a digit or a point is no word in small letters. -/
theorem lower_ne {c first : Char} (hc : c.isDigit = true ∨ c = '.')
    (hfirst : 'a'.toNat ≤ first.toNat) (rest word : List Char) :
    (Text.lower (String.ofList (c :: rest)) == String.ofList (first :: word)) = false := by
  rw [beq_eq_false_iff_ne]
  intro h
  have hlower := congrArg String.toList h
  rw [Text.lower, String.toList_ofList, String.toList_ofList, String.toList_ofList,
    List.map_cons, List.cons.injEq] at hlower
  -- Digits and the point come before the letters, so that they have no capitals to lower.
  have hnat : c.toNat < 'A'.toNat := by
    rcases hc with hc | rfl
    · simp only [Char.isDigit, Bool.and_eq_true, decide_eq_true_eq, ge_iff_le,
        UInt32.le_iff_toNat_le] at hc
      exact lt_of_le_of_lt hc.2 (by decide)
    · decide
  have hlower' : c.toLower = c := by
    unfold Char.toLower
    split
    · next hcapital => exact absurd hnat (Nat.not_lt.2 (UInt32.le_iff_toNat_le.1 hcapital.1))
    · rfl
  have hletters : 'A'.toNat < 'a'.toNat := by decide
  rw [← hlower.1, hlower'] at hfirst
  omega

/-- The reader accepts exactly the texts of the grammar as finite numbers. -/
theorem read?_eq_finite_iff :
    read? cs = some (.finite negative d) ↔ IsDecimal cs negative d := by
  constructor
  · intro h
    obtain ⟨sign, hsign, hcs⟩ := exists_isSign cs
    unfold read? at h
    dsimp only at h
    generalize splitSign cs = parts at h hsign hcs
    obtain ⟨negative', magnitude⟩ := parts
    subst hcs
    split at h
    · -- The names of the values that are no finite numbers are excluded first.
      cases h
    · split at h
      · cases h
      · obtain ⟨d', hd, hfinite⟩ := Option.map_eq_some_iff.1 h
        cases hfinite
        exact .intro hsign (readMagnitude?_eq_some_iff.1 hd)
  · rintro ⟨hsign, hmagnitude⟩
    next sign magnitude =>
    have hread := readMagnitude?_eq_some_iff.2 hmagnitude
    -- The first character of the magnitude is no sign, and no letter.
    obtain ⟨c, rest, rfl, hc⟩ := hmagnitude.head
    have hsplit : splitSign (sign ++ c :: rest) = (negative, c :: rest) := by
      refine splitSign_append hsign ?_
      rintro _ ⟨⟩
      exact not_sign_of_digit_or_point hc
    have hi : 'a'.toNat ≤ 'i'.toNat := by decide
    have hn : 'a'.toNat ≤ 'n'.toNat := by decide
    unfold read?
    rw [hsplit]
    dsimp only
    have htexts : "inf" = String.ofList ['i', 'n', 'f'] ∧
        "infinity" = String.ofList ['i', 'n', 'f', 'i', 'n', 'i', 't', 'y'] ∧
        "nan" = String.ofList ['n', 'a', 'n'] := ⟨rfl, rfl, rfl⟩
    rw [htexts.1, htexts.2.1, htexts.2.2, lower_ne hc hi, lower_ne hc hi, lower_ne hc hn, hread]
    rfl

/-- The double of a signed decimal fraction. -/
theorem readFloat?_of_isDecimal (h : IsDecimal cs negative d) :
    readFloat? cs = some (if negative then -d.toFloat else d.toFloat) := by
  rw [readFloat?, read?_eq_finite_iff.2 h]
  rfl

/-- A text with a finite value is one of the grammar: the words have no finite value. -/
theorem exists_isDecimal {x : Float} (h : readFloat? cs = some x) (hx : x.isFinite = true) :
    ∃ negative d, IsDecimal cs negative d ∧ x = if negative then -d.toFloat else d.toFloat := by
  obtain ⟨reading, hreading, rfl⟩ := Option.map_eq_some_iff.1 h
  cases reading with
  | notANumber => exact absurd hx (by decide +kernel)
  | infinite negative => cases negative <;> exact absurd hx (by decide +kernel)
  | finite negative d => exact ⟨negative, d, read?_eq_finite_iff.1 hreading, rfl⟩

end Numbers

end CoordTransform.Decimal
