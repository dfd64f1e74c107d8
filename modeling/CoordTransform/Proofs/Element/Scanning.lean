import Mathlib
import CoordTransform.Element.Parser
import CoordTransform.Element.Printer

/-!
# Scanning Tokens

Every token of an element is read to its end and no further: whatever the scanner takes for a token
is one, and every token is taken in full in front of a blank, a comma or a closing bracket. None of
these goes on a word, a number or a quoted text.
-/

namespace CoordTransform.Element

/-! ## Cursors -/

/-- A text of blank characters only. -/
def Blanks (cs : List Char) : Prop := ∀ c ∈ cs, Text.isBlank c = true

theorem blanks_nil : Blanks [] := fun _ h => nomatch h

theorem blanks_singleton {c : Char} (h : Text.isBlank c = true) : Blanks [c] :=
  List.forall_mem_singleton.2 h

theorem Blanks.append {b b' : List Char} (hb : Blanks b) (hb' : Blanks b') : Blanks (b ++ b') :=
  List.forall_mem_append.2 ⟨hb, hb'⟩

namespace Cursor

/-- The second cursor stands behind the characters in front of which the first one stands. -/
structure Passes (c : Cursor) (cs : List Char) (c' : Cursor) : Prop where
  rest : c.rest = cs ++ c'.rest
  offset : c'.offset = c.offset + cs.length

variable {c c' c'' : Cursor} {cs ds : List Char}

theorem Passes.append (h : c.Passes cs c') (h' : c'.Passes ds c'') : c.Passes (cs ++ ds) c'' where
  rest := by rw [h.rest, h'.rest, List.append_assoc]
  offset := by rw [h'.offset, h.offset, List.length_append, Nat.add_assoc]

theorem passes_advance (cs : List Char) {tail : List Char} (h : c.rest = cs ++ tail) :
    c.Passes cs (c.advance cs.length) where
  rest := by rw [Cursor.advance, h, List.drop_left]
  offset := rfl

/-- One character further on. -/
theorem passes_one {d : Char} (h : c.rest = d :: ds) : c.Passes [d] (c.advance 1) :=
  passes_advance [d] h

theorem advance_append (cs tail : List Char) (offset : Nat) :
    Cursor.advance ⟨cs ++ tail, offset⟩ cs.length = ⟨tail, offset + cs.length⟩ := by
  unfold Cursor.advance
  dsimp only
  rw [List.drop_left]

/-! ## Blanks -/

theorem passes_skipBlanks (c : Cursor) : ∃ b, Blanks b ∧ c.Passes b c.skipBlanks := by
  refine ⟨c.rest.takeWhile Text.isBlank, fun _ hd => List.mem_takeWhile_imp hd, ?_⟩
  exact passes_advance _ List.takeWhile_append_dropWhile.symm

/-- All blanks are skipped up to a character that is not blank. -/
theorem skipBlanks_append {b : List Char} (hb : Blanks b) (tail : List Char)
    (htail : ∀ d ∈ tail.head?, Text.isBlank d = false) (offset : Nat) :
    Cursor.skipBlanks ⟨b ++ tail, offset⟩ = ⟨tail, offset + b.length⟩ := by
  have htake : (b ++ tail).takeWhile Text.isBlank = b := by
    rw [List.takeWhile_append_of_pos hb]
    cases tail with
    | nil => rw [List.takeWhile_nil, List.append_nil]
    | cons d rest => rw [List.takeWhile_cons, htail d rfl, if_neg (by decide), List.append_nil]
  unfold Cursor.skipBlanks
  dsimp only
  rw [htake, advance_append]

theorem skipBlanks_cons {b : List Char} (hb : Blanks b) {d : Char} (hd : Text.isBlank d = false)
    (rest : List Char) (offset : Nat) :
    Cursor.skipBlanks ⟨b ++ d :: rest, offset⟩ = ⟨d :: rest, offset + b.length⟩ :=
  skipBlanks_append hb _ (fun _ h => by cases h; exact hd) offset

theorem rest_skipBlanks (c : Cursor) : c.skipBlanks.rest = c.rest.dropWhile Text.isBlank := by
  have hdrop : ∀ cs : List Char,
      cs.drop (cs.takeWhile Text.isBlank).length = cs.dropWhile Text.isBlank := by
    intro cs
    induction cs with
    | nil => rfl
    | cons d ds ih => by_cases hd : Text.isBlank d = true <;> simp [hd, ih]
  exact hdrop c.rest

/-- Behind the blanks stands no blank. -/
theorem head_skipBlanks (c : Cursor) : ∀ d ∈ c.skipBlanks.rest.head?, Text.isBlank d = false := by
  intro d hd
  have hhead := List.head?_dropWhile_not Text.isBlank c.rest
  rw [← rest_skipBlanks, Option.mem_def.1 hd] at hhead
  exact hhead

theorem skipBlanks_skipBlanks (c : Cursor) : c.skipBlanks.skipBlanks = c.skipBlanks :=
  skipBlanks_append blanks_nil c.skipBlanks.rest (head_skipBlanks c) c.skipBlanks.offset

end Cursor

/-! ## Classes of characters -/

theorem isBlank_eq_false {c : Char} (h : 0x21 ≤ c.toNat ∧ c.toNat ≤ 0x7E) :
    Text.isBlank c = false := by
  simp only [Text.isBlank, Text.blankRanges, List.any_cons, List.any_nil, Bool.or_false,
    Bool.or_eq_false_iff, Bool.and_eq_false_iff, decide_eq_false_iff_not]
  omega

theorem toNat_of_isDigit {c : Char} (h : c.isDigit = true) : 48 ≤ c.toNat ∧ c.toNat ≤ 57 := by
  simp only [Char.isDigit, Bool.and_eq_true, decide_eq_true_eq, ge_iff_le,
    UInt32.le_iff_toNat_le] at h
  exact h

theorem toNat_of_startsWord {c : Char} (h : Text.startsWord c = true) :
    65 ≤ c.toNat ∧ c.toNat ≤ 90 ∨ 97 ≤ c.toNat ∧ c.toNat ≤ 122 ∨ c.toNat = 95 := by
  simp only [Text.startsWord, Char.isAlpha, Char.isUpper, Char.isLower, Bool.or_eq_true,
    Bool.and_eq_true, decide_eq_true_eq, beq_iff_eq, ge_iff_le, UInt32.le_iff_toNat_le] at h
  rcases h with (⟨h, h'⟩ | ⟨h, h'⟩) | rfl
  · exact .inl ⟨h, h'⟩
  · exact .inr (.inl ⟨h, h'⟩)
  · exact .inr (.inr rfl)

theorem toNat_of_continuesWord (c : Char) (h : Text.continuesWord c = true) :
    0x21 ≤ c.toNat ∧ c.toNat ≤ 0x7E := by
  have hclass : Text.startsWord c = true ∨ c.isDigit = true := by
    simp only [Text.continuesWord, Bool.or_eq_true] at h
    simp only [Text.startsWord, Bool.or_eq_true]
    exact h.elim (fun h => h.elim (.inl ∘ .inl) .inr) (.inl ∘ .inr)
  rcases hclass with h | h
  · have := toNat_of_startsWord h
    omega
  · have := toNat_of_isDigit h
    omega

theorem toNat_of_isMantissaChar {c : Char} (h : isMantissaChar c = true) :
    48 ≤ c.toNat ∧ c.toNat ≤ 57 ∨ c.toNat = 46 := by
  rw [isMantissaChar, Bool.or_eq_true, beq_iff_eq] at h
  rcases h with h | rfl
  · exact .inl (toNat_of_isDigit h)
  · exact .inr rfl

/-- What starts a word starts neither a quoted text nor a number. -/
theorem startsWord_class {c : Char} (h : Text.startsWord c = true) :
    (c == '"') = false ∧ startsNumber c = false ∧ Text.isBlank c = false := by
  have hnat := toNat_of_startsWord h
  -- Quotes, digits and signs all come before the letters.
  have hne : ∀ d : Char, d.toNat < 65 → (c == d) = false := by
    intro d hd
    rw [beq_eq_false_iff_ne]
    rintro rfl
    omega
  have hdigit : c.isDigit = false := by
    rw [← Bool.not_eq_true]
    intro hdigit
    have := toNat_of_isDigit hdigit
    omega
  refine ⟨hne _ (by decide), ?_, isBlank_eq_false (by omega)⟩
  rw [startsNumber, hdigit, hne '+' (by decide), hne '-' (by decide), hne '.' (by decide)]
  rfl

/-- What starts a number starts no quoted text. -/
theorem startsNumber_class {c : Char} (h : startsNumber c = true) :
    (c == '"') = false ∧ Text.isBlank c = false := by
  simp only [startsNumber, Bool.or_eq_true, beq_iff_eq] at h
  rcases h with ((h | rfl) | rfl) | rfl
  · have hnat := toNat_of_isDigit h
    refine ⟨?_, isBlank_eq_false (by omega)⟩
    rw [beq_eq_false_iff_ne]
    rintro rfl
    revert hnat
    decide
  all_goals decide

/-! ## Ends of tokens -/

/-- A separator of items or the bracket behind the last one. -/
def isSeparator (c : Char) : Bool := c == ',' || c == ']' || c == ')'

theorem isSeparator_class {c : Char} (h : isSeparator c = true) :
    Text.isBlank c = false ∧ isOpen c = false ∧ (c == '"') = false ∧ startsNumber c = false ∧
      Text.startsWord c = false ∧ Text.continuesWord c = false := by
  simp only [isSeparator, Bool.or_eq_true, beq_iff_eq] at h
  rcases h with (rfl | rfl) | rfl <;> decide

/-- Visible characters do not stand in blanks, nor behind them if they differ from what follows. -/
theorem head_blanks_append {p : Char → Bool}
    (hvisible : ∀ c, p c = true → 0x21 ≤ c.toNat ∧ c.toNat ≤ 0x7E) {b : List Char} (hb : Blanks b)
    {d : Char} (hd : p d = false) (rest : List Char) :
    ∀ c ∈ (b ++ d :: rest).head?, p c = false := by
  cases b with
  | nil =>
    rintro _ ⟨⟩
    exact hd
  | cons c b =>
    rintro _ ⟨⟩
    rw [← Bool.not_eq_true]
    intro hp
    have hblank := hb c List.mem_cons_self
    rw [isBlank_eq_false (hvisible c hp)] at hblank
    cases hblank

/-- A text that goes on with a separator, possibly behind blanks. -/
def AtSeparator (cs : List Char) : Prop :=
  ∃ b d rest, cs = b ++ d :: rest ∧ Blanks b ∧ isSeparator d = true

/-- Visible characters other than separators do not stand at the end of a token. -/
theorem AtSeparator.head {cs : List Char} (h : AtSeparator cs) {p : Char → Bool}
    (hvisible : ∀ c, p c = true → 0x21 ≤ c.toNat ∧ c.toNat ≤ 0x7E)
    (hseparator : ∀ c, isSeparator c = true → p c = false) : ∀ c ∈ cs.head?, p c = false := by
  obtain ⟨b, d, rest, rfl, hb, hd⟩ := h
  exact head_blanks_append hvisible hb (hseparator d hd) rest

theorem takeWhile_append_of_head {p : Char → Bool} {cs tail : List Char}
    (hcs : ∀ c ∈ cs, p c = true) (htail : ∀ c ∈ tail.head?, p c = false) :
    (cs ++ tail).takeWhile p = cs := by
  rw [List.takeWhile_append_of_pos hcs]
  cases tail with
  | nil => simp
  | cons d rest => simp [htail d rfl]

/-! ## Words -/

theorem head_of_isWord {w : List Char} (hw : Text.isWord w = true) :
    ∃ d ds, w = d :: ds ∧ Text.startsWord d = true := by
  cases w with
  | nil => cases hw
  | cons d ds =>
    rw [Text.isWord, Bool.and_eq_true] at hw
    exact ⟨d, ds, rfl, hw.1⟩

theorem readWord_append {w tail : List Char} (hw : Text.isWord w = true)
    (htail : ∀ c ∈ tail.head?, Text.continuesWord c = false) (offset : Nat) :
    readWord ⟨w ++ tail, offset⟩ = .ok (w, ⟨tail, offset + w.length⟩) := by
  cases w with
  | nil => cases hw
  | cons d ds =>
    simp only [Text.isWord, Bool.and_eq_true, List.all_eq_true] at hw
    have htake : (ds ++ tail).takeWhile Text.continuesWord = ds :=
      takeWhile_append_of_head hw.2 htail
    simp only [readWord, List.cons_append, hw.1, if_true, htake]
    rw [← List.cons_append, Cursor.advance_append]

theorem passes_of_readWord {c c' : Cursor} {w : List Char} (h : readWord c = .ok (w, c')) :
    Text.isWord w = true ∧ c.Passes w c' := by
  unfold readWord at h
  split at h
  · cases h
  · next d ds hrest =>
    split at h
    · next hd =>
      cases h
      -- The word takes all that continues it.
      have hsplit : c.rest =
          (d :: ds.takeWhile Text.continuesWord) ++ ds.dropWhile Text.continuesWord := by
        rw [hrest, List.cons_append, List.takeWhile_append_dropWhile]
      refine ⟨?_, Cursor.passes_advance _ hsplit⟩
      rw [Text.isWord, hd, Bool.true_and, List.all_eq_true]
      exact fun _ hc => List.mem_takeWhile_imp hc
    · cases h

/-! ## Quoted texts -/

/-- A character inside quotes; a quote is written twice. -/
def quoteChar (c : Char) : List Char := if c == '"' then ['"', '"'] else [c]

/-- A text in quotes. -/
def quotedChars (s : List Char) : List Char := '"' :: (s.flatMap quoteChar ++ ['"'])

theorem scanQuoted_append (s : List Char) {tail : List Char}
    (htail : ∀ c ∈ tail.head?, (c == '"') = false) :
    scanQuoted (s.flatMap quoteChar ++ '"' :: tail) =
      some (s, (s.flatMap quoteChar).length + 1) := by
  induction s with
  | nil =>
    -- The closing quote is not followed by another one, so it closes.
    cases tail with
    | nil => rfl
    | cons d rest =>
      have hd : d ≠ '"' := by simpa using htail d rfl
      simp [scanQuoted, hd]
  | cons c s ih =>
    -- A quote stands there twice and is read as one; any other character stands for itself.
    by_cases hc : c = '"'
    · subst hc
      change (scanQuoted (s.flatMap quoteChar ++ '"' :: tail)).map _ = _
      rw [ih]
      rfl
    · have hquote : quoteChar c = [c] := if_neg (by simpa using hc)
      rw [List.flatMap_cons, hquote, List.singleton_append, List.cons_append,
        scanQuoted.eq_4 _ _ (fun _ h => absurd h hc) (fun h => absurd h hc), ih]
      rfl

/-- What is scanned up to the closing quote is the inside of a quoted text. -/
theorem eq_append_of_scanQuoted {cs value : List Char} {n : Nat}
    (h : scanQuoted cs = some (value, n)) :
    ∃ tail, cs = (value.flatMap quoteChar ++ ['"']) ++ tail ∧
      n = (value.flatMap quoteChar ++ ['"']).length := by
  fun_induction scanQuoted cs generalizing value n with
  | case1 => cases h
  | case2 cs ih =>
    -- A doubled quote.
    obtain ⟨⟨inside, m⟩, hinside, heq⟩ := Option.map_eq_some_iff.1 h
    cases heq
    obtain ⟨tail, rfl, rfl⟩ := ih hinside
    exact ⟨tail, rfl, rfl⟩
  | case3 cs _ =>
    -- The closing quote.
    cases h
    exact ⟨cs, rfl, rfl⟩
  | case4 c cs _ hquote ih =>
    obtain ⟨⟨inside, m⟩, hinside, heq⟩ := Option.map_eq_some_iff.1 h
    cases heq
    obtain ⟨tail, rfl, rfl⟩ := ih hinside
    have hc : quoteChar c = [c] := if_neg (by simpa using hquote)
    refine ⟨tail, ?_, ?_⟩
    · rw [List.flatMap_cons, hc]
      rfl
    · rw [List.flatMap_cons, hc]
      rfl

theorem toList_render_text {α : Type} [Numeral α] (s : String) :
    ((Literal.text s : Literal α).render).toList = quotedChars s.toList := by
  simp only [Literal.render, quoted, doubleQuotes, String.toList_append, String.toList_ofList]
  rfl

theorem readQuoted_append (s : List Char) {tail : List Char}
    (htail : ∀ c ∈ tail.head?, (c == '"') = false) (offset : Nat) :
    readQuoted ⟨quotedChars s ++ tail, offset⟩ =
      .ok (s, ⟨tail, offset + (quotedChars s).length⟩) := by
  -- The opening quote is dropped, and the scan takes all up to the closing one.
  have hscan : scanQuoted ((quotedChars s ++ tail).drop 1) =
      some (s, (s.flatMap quoteChar).length + 1) := by
    rw [quotedChars, List.cons_append, List.drop_one, List.tail_cons, List.append_assoc,
      List.singleton_append]
    exact scanQuoted_append s htail
  have hlength : (s.flatMap quoteChar).length + 1 + 1 = (quotedChars s).length := by
    rw [quotedChars, List.length_cons, List.length_append, List.length_singleton]
  unfold readQuoted
  dsimp only
  rw [hscan]
  dsimp only
  rw [hlength, Cursor.advance_append]

theorem passes_of_readQuoted {c c' : Cursor} {cs value : List Char} (hc : c.rest = '"' :: cs)
    (h : readQuoted c = .ok (value, c')) : c.Passes (quotedChars value) c' := by
  unfold readQuoted at h
  rw [hc, List.drop_one, List.tail_cons] at h
  split at h
  · next inside n hscan =>
    cases h
    obtain ⟨tail, rfl, rfl⟩ := eq_append_of_scanQuoted hscan
    exact Cursor.passes_advance (quotedChars value) (hc.trans List.cons_append.symm)
  · cases h

/-! ## Numbers -/

/-- An optional sign. -/
def IsSignToken (cs : List Char) : Prop := cs = [] ∨ ∃ c, cs = [c] ∧ isSign c = true

/-- An optional exponent: its mark, an optional sign and digits, of which there may be none. -/
def IsPowerToken (cs : List Char) : Prop :=
  cs = [] ∨ ∃ mark sign digits, cs = mark :: (sign ++ digits) ∧ isExponentChar mark = true ∧
    IsSignToken sign ∧ ∀ c ∈ digits, c.isDigit = true

/-- A sign, digits and points, and an exponent. The sign and the exponent are optional; a token
that has no sign must have a digit or a point, since it would start with a letter otherwise. -/
def IsNumberToken (cs : List Char) : Prop :=
  ∃ sign mantissa power, cs = sign ++ mantissa ++ power ∧ IsSignToken sign ∧
    (∀ c ∈ mantissa, isMantissaChar c = true) ∧ IsPowerToken power ∧ sign ++ mantissa ≠ []

theorem isSign_eq_false {c : Char} (h : isMantissaChar c = true) : isSign c = false := by
  have hnat := toNat_of_isMantissaChar h
  rw [isSign, Bool.or_eq_false_iff, beq_eq_false_iff_ne, beq_eq_false_iff_ne]
  constructor
  · rintro rfl
    revert hnat
    decide
  · rintro rfl
    revert hnat
    decide

/-- The first character of a number starts a number. -/
theorem IsNumberToken.head {cs : List Char} (h : IsNumberToken cs) :
    ∃ d ds, cs = d :: ds ∧ startsNumber d = true := by
  obtain ⟨sign, mantissa, power, rfl, hsign, hmantissa, -, hne⟩ := h
  obtain rfl | ⟨c, rfl, hc⟩ := hsign
  · obtain ⟨d, ds, rfl⟩ := List.exists_cons_of_ne_nil hne
    have hd := hmantissa d List.mem_cons_self
    refine ⟨d, ds ++ power, rfl, ?_⟩
    rw [isMantissaChar, Bool.or_eq_true] at hd
    rw [startsNumber]
    rcases hd with hd | hd <;> simp [hd]
  · refine ⟨c, mantissa ++ power, rfl, ?_⟩
    rw [isSign, Bool.or_eq_true] at hc
    rw [startsNumber]
    rcases hc with hc | hc <;> simp [hc]

/-- Either the character stands here, or nothing is taken. -/
theorem optional_cases (p : Char → Bool) (cs : List Char) :
    (optional p cs = [] ∧ ∀ c ∈ cs.head?, p c = false) ∨
      ∃ c rest, cs = c :: rest ∧ p c = true ∧ optional p cs = [c] := by
  cases cs with
  | nil => exact .inl ⟨rfl, fun _ h => nomatch h⟩
  | cons c rest =>
    by_cases hc : p c = true
    · exact .inr ⟨c, rest, rfl, hc, by simp [optional, hc]⟩
    · refine .inl ⟨by simp [optional, hc], ?_⟩
      rintro _ ⟨⟩
      exact Bool.not_eq_true _ ▸ hc

theorem optional_eq_nil {p : Char → Bool} {cs : List Char} (h : ∀ c ∈ cs.head?, p c = false) :
    optional p cs = [] := by
  obtain ⟨hnil, -⟩ | ⟨c, rest, rfl, hc, -⟩ := optional_cases p cs
  · exact hnil
  · rw [h c rfl] at hc
    cases hc

theorem optional_isSign_append {sign tail : List Char} (hsign : IsSignToken sign)
    (htail : ∀ c ∈ tail.head?, isSign c = false) : optional isSign (sign ++ tail) = sign := by
  obtain rfl | ⟨c, rfl, hc⟩ := hsign
  · exact optional_eq_nil htail
  · simp [optional, hc]

theorem isSignToken_optional (cs : List Char) : IsSignToken (optional isSign cs) := by
  obtain ⟨hnil, -⟩ | ⟨c, rest, -, hc, hone⟩ := optional_cases isSign cs
  · exact .inl hnil
  · exact .inr ⟨c, hone, hc⟩

theorem optional_append_drop (p : Char → Bool) (cs : List Char) :
    optional p cs ++ cs.drop (optional p cs).length = cs := by
  obtain ⟨hnil, -⟩ | ⟨c, rest, rfl, -, hone⟩ := optional_cases p cs
  · rw [hnil]
    rfl
  · rw [hone]
    rfl

theorem takeWhile_append_drop (p : Char → Bool) (cs : List Char) :
    cs.takeWhile p ++ cs.drop (cs.takeWhile p).length = cs :=
  List.prefix_iff_eq_append.1 (List.takeWhile_prefix p)

/-- A separator goes on no part of a number. -/
theorem AtSeparator.number_head {cs : List Char} (h : AtSeparator cs) : ∀ c ∈ cs.head?,
    isMantissaChar c = false ∧ isSign c = false ∧ isExponentChar c = false := by
  have hend : ∀ c ∈ cs.head?, (isMantissaChar c || (isSign c || isExponentChar c)) = false := by
    refine h.head ?_ ?_
    · intro c hc
      simp only [isSign, isExponentChar, Bool.or_eq_true, beq_iff_eq] at hc
      rcases hc with hc | (rfl | rfl) | rfl | rfl
      · have := toNat_of_isMantissaChar hc
        omega
      all_goals decide
    · intro c hc
      simp only [isSeparator, Bool.or_eq_true, beq_iff_eq] at hc
      rcases hc with (rfl | rfl) | rfl <;> decide
  intro c hc
  simpa only [Bool.or_eq_false_iff] using hend c hc

theorem isDigit_eq_false {c : Char} (h : isMantissaChar c = false) : c.isDigit = false := by
  rw [isMantissaChar, Bool.or_eq_false_iff] at h
  exact h.1

/-- The mark of an exponent stands behind the mantissa. -/
theorem isExponentChar_class {c : Char} (h : isExponentChar c = true) :
    isMantissaChar c = false ∧ isSign c = false := by
  rw [isExponentChar, Bool.or_eq_true, beq_iff_eq, beq_iff_eq] at h
  rcases h with rfl | rfl <;> decide

/-- The head of two texts in a row. -/
theorem forall_head_append {p : Char → Bool} {cs tail : List Char}
    (hcs : ∀ c ∈ cs.head?, p c = false) (htail : ∀ c ∈ tail.head?, p c = false) :
    ∀ c ∈ (cs ++ tail).head?, p c = false := by
  cases cs with
  | nil => exact htail
  | cons d ds => exact hcs

/-- The token of a number ends in front of a separator. -/
theorem numberToken_append {token tail : List Char} (htoken : IsNumberToken token)
    (htail : AtSeparator tail) : numberToken (token ++ tail) = token := by
  obtain ⟨sign, mantissa, power, rfl, hsign, hmantissa, hpower, hne⟩ := htoken
  have hpower_head : ∀ c ∈ power.head?, isMantissaChar c = false ∧ isSign c = false := by
    obtain rfl | ⟨mark, _, _, rfl, hmark, -⟩ := hpower
    · exact fun _ h => nomatch h
    · rintro _ ⟨⟩
      exact isExponentChar_class hmark
  -- First the sign and the mantissa, each of which ends where the next part starts.
  have hmantissa_take : (mantissa ++ (power ++ tail)).takeWhile isMantissaChar = mantissa :=
    takeWhile_append_of_head hmantissa (forall_head_append (fun c hc => (hpower_head c hc).1)
      fun c hc => (htail.number_head c hc).1)
  have hsign_take : optional isSign (sign ++ (mantissa ++ (power ++ tail))) = sign := by
    refine optional_isSign_append hsign (forall_head_append ?_
      (forall_head_append (fun c hc => (hpower_head c hc).2)
        fun c hc => (htail.number_head c hc).2.1))
    exact fun c hc => isSign_eq_false (hmantissa c (List.mem_of_mem_head? hc))
  have hregroup : sign ++ mantissa ++ power ++ tail = sign ++ (mantissa ++ (power ++ tail)) := by
    simp only [List.append_assoc]
  rw [hregroup]
  unfold numberToken
  simp only [hsign_take, List.drop_left, hmantissa_take]
  obtain rfl | ⟨mark, sign', digits, rfl, hmark, hsign', hdigits⟩ := hpower
  · -- There is no exponent, and the tail does not start with the mark of one.
    rw [List.nil_append, optional_eq_nil fun c hc => (htail.number_head c hc).2.2]
    simp
  · have hdigits_take : (digits ++ tail).takeWhile Char.isDigit = digits :=
      takeWhile_append_of_head hdigits fun c hc => isDigit_eq_false (htail.number_head c hc).1
    have hsign'_take : optional isSign (sign' ++ (digits ++ tail)) = sign' := by
      refine optional_isSign_append hsign' (forall_head_append ?_
        fun c hc => (htail.number_head c hc).2.1)
      intro c hc
      refine isSign_eq_false ?_
      rw [isMantissaChar, hdigits c (List.mem_of_mem_head? hc), Bool.true_or]
    have hmark_take : optional isExponentChar (mark :: (sign' ++ (digits ++ tail))) = [mark] := by
      simp [optional, hmark]
    simp only [List.cons_append, List.append_assoc, List.drop_one, List.tail_cons, hmark_take,
      hsign'_take, List.drop_left, hdigits_take]
    simp

/-- A number that starts with no sign starts with a digit or a point. -/
theorem sign_append_mantissa_ne_nil {d : Char} {ds : List Char} (hd : startsNumber d = true) :
    optional isSign (d :: ds) ++
      ((d :: ds).drop (optional isSign (d :: ds)).length).takeWhile isMantissaChar ≠ [] := by
  obtain ⟨hnil, hhead⟩ | ⟨c, rest, -, -, hone⟩ := optional_cases isSign (d :: ds)
  · have hmantissa : isMantissaChar d = true := by
      have hsign := hhead d rfl
      rw [isSign, Bool.or_eq_false_iff] at hsign
      rw [startsNumber, hsign.1, hsign.2, Bool.or_false, Bool.or_false] at hd
      exact hd
    rw [hnil]
    simp [hmantissa]
  · rw [hone]
    simp

/-- What is taken for the token of a number is one, when its first character starts a number. -/
theorem isNumberToken_numberToken {d : Char} {ds : List Char} (hd : startsNumber d = true) :
    IsNumberToken (numberToken (d :: ds)) ∧ ∃ tail, d :: ds = numberToken (d :: ds) ++ tail := by
  have hne := @sign_append_mantissa_ne_nil d ds hd
  have hsign := isSignToken_optional (d :: ds)
  have hsplit := optional_append_drop isSign (d :: ds)
  unfold numberToken
  dsimp only
  -- The parts are taken off the text one after the other.
  generalize optional isSign (d :: ds) = sign at hne hsign hsplit ⊢
  generalize (d :: ds).drop sign.length = afterSign at hne hsplit ⊢
  have hmantissa : ∀ c ∈ afterSign.takeWhile isMantissaChar, isMantissaChar c = true :=
    fun c hc => List.mem_takeWhile_imp hc
  have hsplit' := takeWhile_append_drop isMantissaChar afterSign
  generalize afterSign.takeWhile isMantissaChar = mantissa at hne hmantissa hsplit' ⊢
  generalize afterSign.drop mantissa.length = afterMantissa at hsplit' ⊢
  subst hsplit'
  obtain ⟨hnil, -⟩ | ⟨mark, afterMark, rfl, hmark, hone⟩ :=
    optional_cases isExponentChar afterMantissa
  · rw [hnil, List.isEmpty_nil, if_pos rfl]
    exact ⟨⟨sign, mantissa, [], (List.append_nil _).symm, hsign, hmantissa, .inl rfl, hne⟩,
      afterMantissa, by rw [← hsplit, List.append_assoc]⟩
  · rw [hone, List.isEmpty_cons, if_neg (by decide), List.drop_one, List.tail_cons]
    have hpower := isSignToken_optional afterMark
    have hsplit'' := optional_append_drop isSign afterMark
    generalize optional isSign afterMark = power at hpower hsplit'' ⊢
    generalize afterMark.drop power.length = afterPower at hsplit'' ⊢
    subst hsplit''
    have hdigits : ∀ c ∈ afterPower.takeWhile Char.isDigit, c.isDigit = true :=
      fun c hc => List.mem_takeWhile_imp hc
    refine ⟨⟨sign, mantissa, mark :: (power ++ afterPower.takeWhile Char.isDigit), ?_, hsign,
      hmantissa, .inr ⟨mark, power, _, rfl, hmark, hpower, hdigits⟩, hne⟩,
      afterPower.dropWhile Char.isDigit, ?_⟩
    · simp only [List.append_assoc, List.cons_append, List.nil_append]
    · rw [← hsplit]
      simp only [List.append_assoc, List.cons_append, List.nil_append,
        List.takeWhile_append_dropWhile]

theorem readNumber_append {α : Type} [Numeral α] {token tail : List Char} {x : α}
    (htoken : IsNumberToken token) (hread : Numeral.read? token = some x)
    (hfinite : Scalar.isFinite x = true) (htail : AtSeparator tail) (offset : Nat) :
    readNumber ⟨token ++ tail, offset⟩ = .ok (x, ⟨tail, offset + token.length⟩) := by
  unfold readNumber
  dsimp only
  rw [numberToken_append htoken htail, hread]
  dsimp only
  rw [if_pos hfinite, Cursor.advance_append]

theorem passes_of_readNumber {α : Type} [Numeral α] {c c' : Cursor} {d : Char} {ds : List Char}
    {x : α} (hc : c.rest = d :: ds) (hd : startsNumber d = true)
    (h : readNumber c = .ok (x, c')) : ∃ token, IsNumberToken token ∧
      Numeral.read? token = some x ∧ Scalar.isFinite x = true ∧ c.Passes token c' := by
  obtain ⟨htoken, tail, htail⟩ := hc ▸ @isNumberToken_numberToken d ds hd
  unfold readNumber at h
  dsimp only at h
  split at h
  · next v hread =>
    split at h
    · next hfinite =>
      cases h
      exact ⟨_, htoken, hread, hfinite, Cursor.passes_advance _ htail⟩
    · cases h
  · cases h

end CoordTransform.Element

/-! ## Legible numbers -/

namespace CoordTransform.Numeral

/-- A number whose text is a plain decimal, digits and points behind an optional minus, and reads
back as the number, which is finite. -/
structure Legible {α : Type} [Numeral α] (x : α) : Prop where
  finite : Scalar.isFinite x = true
  plain : ∃ sign digits, (Numeral.text x).toList = sign ++ digits ∧ (sign = [] ∨ sign = ['-']) ∧
    digits ≠ [] ∧ ∀ c ∈ digits, Element.isMantissaChar c = true
  reads : Numeral.read? (Numeral.text x).toList = some x

/-- The text of a legible number is the token of a number. -/
theorem Legible.isNumberToken {α : Type} [Numeral α] {x : α} (hx : Legible x) :
    Element.IsNumberToken (Numeral.text x).toList := by
  obtain ⟨sign, digits, htext, hsign, hne, hdigits⟩ := hx.plain
  refine ⟨sign, digits, [], ?_, ?_, hdigits, .inl rfl, ?_⟩
  · rw [htext, List.append_nil]
  · rcases hsign with rfl | rfl
    · exact .inl rfl
    · exact .inr ⟨'-', rfl, rfl⟩
  · simp [hne]

end CoordTransform.Numeral
