import CoordTransform.Proofs.Element.Recognition

/-!
# Closing Brackets

The bracket that closes an element is found without the reader, by looking at brackets and quotes
alone: every opening bracket is closed by one of its own kind, and what stands in quotes does not
count. In every layout the brackets are closed in this way, which is proved over the grammar.
-/

namespace CoordTransform.Element

variable {α : Type}

/-! ## Finding a closing bracket -/

/-- The brackets that close. -/
def isClose (c : Char) : Bool := c == ']' || c == ')'

/-- The number of characters up to and with the bracket that closes the outermost open one. The
open brackets are given, the innermost first, and whether the text starts inside of quotes. A quote
that is written twice ends a quoted text and starts it again. -/
def closing : List Char → Bool → List Char → Option Nat
  | _, _, [] => none
  | opened, true, c :: cs => (closing opened (c != '"') cs).map (· + 1)
  | opened, false, c :: cs =>
    if c == '"' then (closing opened true cs).map (· + 1)
    else if isOpen c then (closing (c :: opened) false cs).map (· + 1)
    else if isClose c then
      if opened.head?.map closeOf == some c then
        if opened.tail.isEmpty then some 1 else (closing opened.tail false cs).map (· + 1)
      else none
    else (closing opened false cs).map (· + 1)

/-- The number of characters up to and with the bracket that closes the first one. -/
def closingBracket (cs : List Char) : Option Nat := closing [] false cs

/-- Neither a quote nor a bracket. -/
def isPlain (c : Char) : Bool := !(c == '"') && !isOpen c && !isClose c

theorem isPlain_of_toNat {c : Char} (hquote : c.toNat ≠ 34)
    (hround : c.toNat < 40 ∨ 41 < c.toNat) (hsquare : c.toNat < 91 ∨ 93 < c.toNat) :
    isPlain c = true := by
  have hne : ∀ {d : Char}, c.toNat ≠ d.toNat → (c == d) = false := by
    intro d hd
    rw [beq_eq_false_iff_ne]
    rintro rfl
    exact hd rfl
  -- Brackets have other codes than those that are left.
  have hopen : isOpen c = false := by
    rw [isOpen, hne (d := '[') (by change c.toNat ≠ 91; omega),
      hne (d := '(') (by change c.toNat ≠ 40; omega)]
    rfl
  have hclose : isClose c = false := by
    rw [isClose, hne (d := ']') (by change c.toNat ≠ 93; omega),
      hne (d := ')') (by change c.toNat ≠ 41; omega)]
    rfl
  rw [isPlain, hne (d := '"') hquote, hopen, hclose]
  rfl

/-- Two stretches of characters are counted as one. -/
theorem map_add_add (found : Option Nat) {m n k : Nat} (h : m + n = k) :
    (found.map (· + m)).map (· + n) = found.map (· + k) := by
  subst h
  cases found <;> simp [Nat.add_assoc]

/-- Characters that are neither quotes nor brackets are counted. -/
theorem closing_plain {cs : List Char} (h : ∀ c ∈ cs, isPlain c = true) (opened rest : List Char) :
    closing opened false (cs ++ rest) = (closing opened false rest).map (· + cs.length) := by
  induction cs with
  | nil => simp
  | cons c cs ih =>
    have hc := h c List.mem_cons_self
    simp only [isPlain, Bool.and_eq_true, Bool.not_eq_true'] at hc
    obtain ⟨⟨hquote, hopen⟩, hclose⟩ := hc
    rw [List.cons_append, closing, hquote, hopen, hclose,
      ih fun d hd => h d (List.mem_cons_of_mem c hd)]
    exact map_add_add _ rfl

/-- Inside of a bracket, the characters are passed over as a whole. -/
def Neutral (cs : List Char) : Prop := ∀ bracket outer rest,
  closing (bracket :: outer) false (cs ++ rest) =
    (closing (bracket :: outer) false rest).map (· + cs.length)

variable {cs ds : List Char}

theorem neutral_plain (h : ∀ c ∈ cs, isPlain c = true) : Neutral cs :=
  fun bracket outer rest => closing_plain h (bracket :: outer) rest

theorem Neutral.append (h : Neutral cs) (h' : Neutral ds) : Neutral (cs ++ ds) := by
  intro bracket outer rest
  rw [List.append_assoc, h, h']
  exact map_add_add _ (by rw [List.length_append, Nat.add_comm])

/-- The inside of a quoted text is passed over up to the quote behind it. -/
theorem closing_quoted (value opened rest : List Char) :
    closing opened true (value.flatMap quoteChar ++ '"' :: rest) =
      (closing opened false rest).map (· + ((value.flatMap quoteChar).length + 1)) := by
  -- The induction is on the value; a quotation mark in it is written twice.
  induction value with
  | nil => simp [closing]
  | cons c value ih =>
    by_cases hc : c = '"'
    · -- A quote of the value ends the quoted text and starts it again.
      subst hc
      change ((closing opened true (value.flatMap quoteChar ++ '"' :: rest)).map (· + 1)).map
        (· + 1) = _
      rw [ih]
      exact (map_add_add _ rfl).trans (map_add_add _ rfl)
    · have hquote : quoteChar c = [c] := if_neg (by simpa using hc)
      have hstays : (c != '"') = true := by simpa using hc
      rw [List.flatMap_cons, hquote, List.singleton_append, List.cons_append, closing, hstays, ih]
      exact map_add_add _ rfl

theorem neutral_quoted (value : List Char) : Neutral (quotedChars value) := by
  intro bracket outer rest
  have hstep : closing (bracket :: outer) false (quotedChars value ++ rest) =
      (closing (bracket :: outer) true (value.flatMap quoteChar ++ '"' :: rest)).map (· + 1) := by
    simp [quotedChars, closing]
  rw [hstep, closing_quoted]
  exact map_add_add _ (by simp [quotedChars])

theorem closeOf_class {bracket : Char} (h : isOpen bracket = true) :
    (bracket == '"') = false ∧ (closeOf bracket == '"') = false ∧
      isOpen (closeOf bracket) = false ∧ isClose (closeOf bracket) = true := by
  rw [isOpen, Bool.or_eq_true, beq_iff_eq, beq_iff_eq] at h
  rcases h with rfl | rfl <;> decide

/-- Behind a bracket and what is neutral inside of it, the bracket of its kind closes it. -/
theorem closing_bracketed {bracket : Char} (hopen : isOpen bracket = true) (h : Neutral cs)
    (opened rest : List Char) :
    closing opened false (bracket :: (cs ++ closeOf bracket :: rest)) =
      if opened.isEmpty then some (cs.length + 2)
      else (closing opened false rest).map (· + (cs.length + 2)) := by
  obtain ⟨hquote, hquote', hopen', hclose⟩ := closeOf_class hopen
  rw [closing, hquote, if_neg (by decide), if_pos hopen, h, closing, hquote', hopen', hclose,
    if_neg (by decide), if_neg (by decide), if_pos rfl, if_pos (by simp), List.tail_cons]
  -- With nothing opened before, this bracket is the one that is looked for.
  split
  · simp only [Option.map_some, Option.some.injEq]
    omega
  · rw [map_add_add _ rfl]
    exact map_add_add _ (by omega)

theorem Neutral.bracketed {bracket : Char} (hopen : isOpen bracket = true) (h : Neutral cs) :
    Neutral ([bracket] ++ cs ++ [closeOf bracket]) := by
  intro outermost outer rest
  have hregroup : [bracket] ++ cs ++ [closeOf bracket] ++ rest =
      bracket :: (cs ++ closeOf bracket :: rest) := by simp
  rw [hregroup, closing_bracketed hopen h]
  simp

/-! ## Layouts and their brackets -/

theorem isPlain_of_isBlank {c : Char} (h : Text.isBlank c = true) : isPlain c = true := by
  -- All quotes and brackets are visible characters.
  have hvisible : ¬(0x21 ≤ c.toNat ∧ c.toNat ≤ 0x7E) := by
    intro hc
    rw [isBlank_eq_false hc] at h
    cases h
  exact isPlain_of_toNat (by omega) (by omega) (by omega)

theorem Blanks.neutral (h : Blanks cs) : Neutral cs :=
  neutral_plain fun c hc => isPlain_of_isBlank (h c hc)

theorem isPlain_of_startsWord {c : Char} (h : Text.startsWord c = true) : isPlain c = true := by
  have hnat := toNat_of_startsWord h
  exact isPlain_of_toNat (by omega) (by omega) (by omega)

theorem isPlain_of_isMantissaChar {c : Char} (h : isMantissaChar c = true) :
    isPlain c = true := by
  have hnat := toNat_of_isMantissaChar h
  exact isPlain_of_toNat (by omega) (by omega) (by omega)

theorem isPlain_of_isWord (h : Text.isWord cs = true) : ∀ c ∈ cs, isPlain c = true := by
  cases cs with
  | nil => cases h
  | cons d ds =>
    -- Letters, digits and the few other signs of a word are none of the brackets and no quote.
    simp only [Text.isWord, Bool.and_eq_true, List.all_eq_true] at h
    refine List.forall_mem_cons.2 ⟨isPlain_of_startsWord h.1, fun c hc => ?_⟩
    have hclass : Text.startsWord c = true ∨ c.isDigit = true := by
      have hc := h.2 c hc
      simp only [Text.continuesWord, Text.startsWord, Bool.or_eq_true] at hc ⊢
      exact hc.elim (fun h => h.imp_left .inl) fun h => .inl (.inr h)
    obtain hword | hdigit := hclass
    · exact isPlain_of_startsWord hword
    · exact isPlain_of_isMantissaChar (by rw [isMantissaChar, hdigit, Bool.true_or])

theorem IsSignToken.isPlain (h : IsSignToken cs) : ∀ c ∈ cs, isPlain c = true := by
  obtain rfl | ⟨c, rfl, hc⟩ := h
  · exact List.forall_mem_nil _
  · rw [isSign, Bool.or_eq_true, beq_iff_eq, beq_iff_eq] at hc
    rcases hc with rfl | rfl <;> simp [Element.isPlain, isOpen, isClose]

theorem IsNumberToken.isPlain (h : IsNumberToken cs) : ∀ c ∈ cs, isPlain c = true := by
  obtain ⟨sign, mantissa, power, rfl, hsign, hmantissa, hpower, -⟩ := h
  have hplain : ∀ c ∈ power, Element.isPlain c = true := by
    obtain rfl | ⟨mark, sign', digits, rfl, hmark, hsign', hdigits⟩ := hpower
    · exact List.forall_mem_nil _
    · refine List.forall_mem_cons.2 ⟨?_, List.forall_mem_append.2 ⟨hsign'.isPlain, ?_⟩⟩
      · rw [isExponentChar, Bool.or_eq_true, beq_iff_eq, beq_iff_eq] at hmark
        rcases hmark with rfl | rfl <;> simp [Element.isPlain, isOpen, isClose]
      · exact fun c hc =>
          isPlain_of_isMantissaChar (by rw [isMantissaChar, hdigits c hc, Bool.true_or])
  exact List.forall_mem_append.2 ⟨List.forall_mem_append.2 ⟨hsign.isPlain,
    fun c hc => isPlain_of_isMantissaChar (hmantissa c hc)⟩, hplain⟩

namespace Spelling

variable [Numeral α]

mutual

/-- Every bracket of a layout is closed in it by its own kind. -/
theorem Layout.neutral : ∀ {s : Spelling} {cs : List Char} {item : Item α}, s.Layout cs →
    s.Denotes item → Neutral cs
  | _, _, _, .quoted value, _ => neutral_quoted value
  | _, _, _, .number _, .number htoken _ _ => neutral_plain htoken.isPlain
  | _, _, _, .word _, .word hword => neutral_plain (isPlain_of_isWord hword)
  -- The keyword and the blanks are plain, and what stands between the brackets is neutral.
  | _, _, _, .empty hbefore hopen hinside, .element _ hword _ => by
    have hbracketed := hinside.neutral.bracketed hopen
    have hall := ((neutral_plain (isPlain_of_isWord hword)).append hbefore.neutral).append
      hbracketed
    simpa only [List.append_assoc] using hall
  | _, _, _, .element hbefore hopen hleft hmiddle hright, .element _ hword hits => by
    have hbracketed := ((hleft.neutral.append (hmiddle.neutral hits)).append
      hright.neutral).bracketed hopen
    have hall := ((neutral_plain (isPlain_of_isWord hword)).append hbefore.neutral).append
      hbracketed
    simpa only [List.append_assoc] using hall

theorem LayoutAll.neutral : ∀ {items : List Spelling} {cs : List Char} {its : List (Item α)},
    LayoutAll items cs → List.Forall₂ Denotes items its → Neutral cs
  | _, _, _, .last hlayout, .cons hs _ => hlayout.neutral hs
  | _, _, _, .cons hlayout hleft hright hrest, .cons hs hits => by
    have hcomma : Neutral [','] := neutral_plain (by simp [isPlain, isOpen, isClose])
    exact ((((hlayout.neutral hs).append hleft.neutral).append hcomma).append
      hright.neutral).append (hrest.neutral hits)

end

end Spelling

end CoordTransform.Element
