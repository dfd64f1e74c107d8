import CoordTransform.Proofs.Element.Completion

/-!
# Reading by Byte Positions

A text is stored as the bytes of its characters, of which each takes one to four. Here the reader
runs on byte positions: it looks at a character by cutting the text at a position, moves on by the
bytes of the character, and turns a position into an offset by counting the characters in front of
it. A cut outside of the text or inside of a character gives no result.

Its loops and its recursion have no bound of their own. They are run for a number of rounds, and
when that is not enough there is no result either. `read_eq` says that one round more than the text
has characters is always enough, and that the result is the one of `Element.parse`. The proof runs
both readers side by side: a position and a cursor that stand at one place of the text still do so
after every step.
-/

namespace CoordTransform.Element.Positional

/-! ## Cutting a text -/

/-- The characters in front of a byte position and behind it. There is no cut behind the end of the
text or between the bytes of one character. -/
def cut? : List Char → Nat → Option (List Char × List Char)
  | cs, 0 => some ([], cs)
  | [], _ + 1 => none
  | c :: cs, n + 1 =>
    if c.utf8Size ≤ n + 1 then
      (cut? cs (n + 1 - c.utf8Size)).map fun r => (c :: r.1, r.2)
    else none

theorem cut?_append (front rest : List Char) :
    cut? (front ++ rest) (String.utf8Len front) = some (front, rest) := by
  induction front with
  | nil => cases rest <;> simp [cut?]
  | cons c front ih =>
    have hpos := c.utf8Size_pos
    obtain ⟨n, hn⟩ : ∃ n, String.utf8Len front + c.utf8Size = n + 1 :=
      ⟨String.utf8Len front + c.utf8Size - 1, by omega⟩
    have hle : c.utf8Size ≤ n + 1 := by omega
    have hsub : n + 1 - c.utf8Size = String.utf8Len front := by omega
    rw [String.utf8Len_cons, hn, List.cons_append, cut?, if_pos hle, hsub, ih, Option.map_some]

theorem cut?_eq_some_iff {cs front rest : List Char} {pos : Nat} :
    cut? cs pos = some (front, rest) ↔ cs = front ++ rest ∧ pos = String.utf8Len front := by
  constructor
  · intro h
    -- The induction follows the cut, character by character.
    fun_induction cut? cs pos generalizing front rest with
    | case1 cs =>
      cases h
      simp
    | case2 => cases h
    | case3 c cs n hle ih =>
      obtain ⟨⟨front', rest'⟩, hcut, heq⟩ := Option.map_eq_some_iff.1 h
      cases heq
      obtain ⟨rfl, hpos⟩ := ih hcut
      refine ⟨List.cons_append.symm, ?_⟩
      rw [String.utf8Len_cons, ← hpos]
      omega
    | case4 => cases h
  · rintro ⟨rfl, rfl⟩
    exact cut?_append front rest

/-- A text can be cut at its valid positions and nowhere else. -/
theorem isSome_cut?_iff (text : String) (pos : Nat) :
    (cut? text.toList pos).isSome = true ↔ String.Pos.Raw.IsValid text ⟨pos⟩ := by
  rw [Option.isSome_iff_exists, String.Pos.Raw.isValid_iff_exists_append]
  constructor
  · rintro ⟨⟨front, rest⟩, h⟩
    obtain ⟨htext, rfl⟩ := cut?_eq_some_iff.1 h
    -- The parts of the list are the parts of the text.
    refine ⟨String.ofList front, String.ofList rest, ?_, ?_⟩
    · rw [← String.ofList_append, ← htext, String.ofList_toList]
    · simp [String.rawEndPos, String.utf8ByteSize_ofList]
  · rintro ⟨front, rest, rfl, hpos⟩
    refine ⟨(front.toList, rest.toList), cut?_eq_some_iff.2 ⟨String.toList_append, ?_⟩⟩
    have hsize := String.utf8ByteSize_ofList front.toList
    rw [String.ofList_toList] at hsize
    rw [← hsize]
    exact congrArg String.Pos.Raw.byteIdx hpos

/-! ## Steps -/

/-- Steps of the reader: a value or a fault, or no result at all. -/
abbrev Steps := ExceptT (Nat × SyntaxFault) Option

/-- The result of steps that would have to go on. -/
def unfinished {β : Type} : Steps β := ExceptT.mk none

section

variable (text : String)

/-- The characters in front of a position and behind it. -/
def cut (pos : Nat) : Steps (List Char × List Char) := ExceptT.lift (cut? text.toList pos)

/-- The characters between two positions. -/
def between (start stop : Nat) : Steps (List Char) := do
  let (front, _) ← cut text stop
  let (_, inside) ← ExceptT.lift (cut? front start)
  return inside

/-- The character at a position. -/
def peek (pos : Nat) : Steps (Option Char) := do
  let (_, rest) ← cut text pos
  return rest.head?

/-- The character at a position, and the position behind it. -/
def bump (pos : Nat) : Steps (Option Char × Nat) := do
  match ← peek text pos with
  | some c => return (some c, pos + c.utf8Size)
  | none => return (none, pos)

/-- A fault at a position; it is reported by its offset. -/
def fault {β : Type} (pos : Nat) (reason : SyntaxFault) : Steps β := do
  let (front, _) ← cut text pos
  throw (front.length, reason)

/-- The position behind the character that stands here, if it is of a class. -/
def skipOne (p : Char → Bool) (pos : Nat) : Steps Nat := do
  if (← peek text pos).any p then
    let (_, pos) ← bump text pos
    return pos
  else return pos

/-- The position behind all characters of a class that stand here. -/
def skipWhile (p : Char → Bool) : (rounds pos : Nat) → Steps Nat
  | 0, _ => unfinished
  | rounds + 1, pos => do
    if (← peek text pos).any p then
      let (_, pos) ← bump text pos
      skipWhile p rounds pos
    else return pos

/-! ## Tokens -/

/-- A word. -/
def word (rounds start : Nat) : Steps (List Char × Nat) := do
  match ← peek text start with
  | none => fault text start (.keywordExpected none)
  | some c =>
    if Text.startsWord c then
      let stop ← skipWhile text Text.continuesWord rounds start
      return (← between text start stop, stop)
    else fault text start (.keywordExpected (some c))

/-- The rest of a quoted text that starts elsewhere, behind what was read of it so far. -/
def quotedRest (start : Nat) :
    (rounds : Nat) → (value : List Char) → (pos : Nat) → Steps (List Char × Nat)
  | 0, _, _ => unfinished
  | rounds + 1, value, pos => do
    let (c, pos) ← bump text pos
    match c with
    | none => fault text start .unterminated
    | some c =>
      if c == '"' then
        if (← peek text pos) == some '"' then
          let (_, pos) ← bump text pos
          quotedRest start rounds (value ++ ['"']) pos
        else return (value, pos)
      else quotedRest start rounds (value ++ [c]) pos

/-- A quoted text. -/
def quoted (rounds start : Nat) : Steps (List Char × Nat) := do
  let (_, pos) ← bump text start
  quotedRest text start rounds [] pos

/-- The position behind the characters of a number. -/
def numberEnd (rounds start : Nat) : Steps Nat := do
  let pos ← skipOne text isSign start
  let pos ← skipWhile text isMantissaChar rounds pos
  if (← peek text pos).any isExponentChar then
    let (_, pos) ← bump text pos
    let pos ← skipOne text isSign pos
    skipWhile text Char.isDigit rounds pos
  else return pos

variable {α : Type} [Numeral α]

/-- A finite number. -/
def number (rounds start : Nat) : Steps (α × Nat) := do
  let stop ← numberEnd text rounds start
  let token ← between text start stop
  match Numeral.read? token with
  | some v =>
    if Scalar.isFinite v then return (v, stop)
    else fault text start (.badNumber (String.ofList token))
  | none => fault text start (.badNumber (String.ofList token))

/-! ## Elements -/

/-- An element with one item more. -/
def push : Element α → Item α → Element α
  | .node keyword offset literals children, .inl l =>
    .node keyword offset (literals ++ [l]) children
  | .node keyword offset literals children, .inr e =>
    .node keyword offset literals (children ++ [e])

/-- One item; `child` reads an element. -/
def item (child : Nat → Steps (Element α × Nat)) (close : Char) (rounds start : Nat) :
    Steps (Item α × Nat) := do
  match ← peek text start with
  | none => fault text start (.unclosed close)
  | some c =>
    if c == '"' then
      let (value, pos) ← quoted text rounds start
      return (.inl (.text (String.ofList value)), pos)
    else if startsNumber c then
      let (value, pos) ← number text rounds start
      return (.inl (.number value), pos)
    else if Text.startsWord c then
      let (letters, pos) ← word text rounds start
      let pos ← skipWhile text Text.isBlank rounds pos
      if (← peek text pos).any isOpen then
        -- Back to the start of the word, which the child reads again.
        let (e, pos) ← child start
        return (.inr e, pos)
      else return (.inl (.word (String.ofList letters)), pos)
    else fault text start (.unexpected c)

/-- The items up to the closing bracket, put into their element one after the other. -/
def items (child : Nat → Steps (Element α × Nat)) (close : Char) :
    (rounds : Nat) → (e : Element α) → (pos : Nat) → Steps (Element α × Nat)
  | 0, _, _ => unfinished
  | rounds + 1, e, pos => do
    let pos ← skipWhile text Text.isBlank (rounds + 1) pos
    let (item, pos) ← item text child close (rounds + 1) pos
    let pos ← skipWhile text Text.isBlank (rounds + 1) pos
    let (d, next) ← bump text pos
    match d with
    | none => fault text pos (.unclosed close)
    | some d =>
      if d == ',' then items child close rounds (push e item) next
      else if d == close then return (push e item, next)
      else fault text pos (.separatorExpected close d)

/-- An element inside of `depth` others. -/
def element : (rounds depth start : Nat) → Steps (Element α × Nat)
  | 0, _, _ => unfinished
  | rounds + 1, depth, start => do
    if depth ≥ largestDepth then fault text start .tooDeep
    else
      let (keyword, pos) ← word text (rounds + 1) start
      let pos ← skipWhile text Text.isBlank (rounds + 1) pos
      let (d, pos) ← bump text pos
      match d with
      | none => fault text start (.bracketExpected (String.ofList keyword))
      | some d =>
        if isOpen d then
          let (front, _) ← cut text start
          let e := .node (String.ofList keyword) front.length [] []
          let pos ← skipWhile text Text.isBlank (rounds + 1) pos
          if (← peek text pos) == some (closeOf d) then
            let (_, pos) ← bump text pos
            return (e, pos)
          else items text (element rounds (depth + 1)) (closeOf d) (rounds + 1) e pos
        else fault text start (.bracketExpected (String.ofList keyword))

/-- The whole text as one element. -/
def wholeText (rounds : Nat) : Steps (Element α × Nat) := do
  let pos ← skipWhile text Text.isBlank rounds 0
  let (e, pos) ← element text rounds 0 pos
  let pos ← skipWhile text Text.isBlank rounds pos
  if pos < text.utf8ByteSize then fault text pos .trailing
  else return (e, pos)

/-- The answer for a text, if the reader comes to one. -/
def read (rounds : Nat) : Option (Except (ElementError α) (Element α)) :=
  (wholeText text rounds).run.map fun result =>
    (result.map Prod.fst).mapError fun (offset, reason) => .badSyntax offset reason

end

/-! ## Places -/

/-- The position and the cursor are one place of the text. -/
def Stands (text : String) (pos : Nat) (c : Cursor) : Prop :=
  ∃ front, text.toList = front ++ c.rest ∧ pos = String.utf8Len front ∧ c.offset = front.length

variable {text : String} {pos start rounds : Nat} {c c' : Cursor}

theorem stands_zero (text : String) : Stands text 0 ⟨text.toList, 0⟩ := ⟨[], by simp⟩

/-- Behind what was passed, the position has grown by its bytes. -/
theorem Stands.pass {cs : List Char} (h : Stands text pos c) (hpasses : c.Passes cs c') :
    Stands text (pos + String.utf8Len cs) c' := by
  obtain ⟨front, htext, rfl, hoffset⟩ := h
  refine ⟨front ++ cs, ?_, (String.utf8Len_append front cs).symm, ?_⟩
  · rw [htext, hpasses.rest, List.append_assoc]
  · rw [hpasses.offset, hoffset, List.length_append]

theorem Stands.one {d : Char} {ds : List Char} (h : Stands text pos c) (hc : c.rest = d :: ds) :
    Stands text (pos + d.utf8Size) (c.advance 1) := by
  simpa using h.pass (Cursor.passes_one hc)

/-- The position is at the end of the text when nothing is left of it. -/
theorem Stands.lt_iff (h : Stands text pos c) : pos < text.utf8ByteSize ↔ c.rest ≠ [] := by
  obtain ⟨front, htext, rfl, -⟩ := h
  have hsize := String.utf8ByteSize_ofList text.toList
  rw [String.ofList_toList, htext, String.utf8Len_append] at hsize
  rw [hsize, Ne, ← String.utf8Len_eq_zero]
  omega

theorem cut_eq (h : Stands text pos c) :
    ∃ front, cut text pos = pure (front, c.rest) ∧ front.length = c.offset := by
  obtain ⟨front, htext, rfl, hoffset⟩ := h
  refine ⟨front, ?_, hoffset.symm⟩
  rw [cut, htext, cut?_append]
  rfl

theorem peek_eq (h : Stands text pos c) : peek text pos = pure c.rest.head? := by
  obtain ⟨front, hcut, -⟩ := cut_eq h
  rw [peek, hcut]
  rfl

theorem bump_eq {d : Char} {ds : List Char} (h : Stands text pos c) (hc : c.rest = d :: ds) :
    bump text pos = pure (some d, pos + d.utf8Size) := by
  rw [bump, peek_eq h, hc]
  rfl

theorem bump_eq_none (h : Stands text pos c) (hc : c.rest = []) :
    bump text pos = pure (none, pos) := by
  rw [bump, peek_eq h, hc]
  rfl

theorem fault_eq {β : Type} (h : Stands text pos c) (reason : SyntaxFault) :
    fault text pos reason = (throw (c.offset, reason) : Steps β) := by
  obtain ⟨front, hcut, hlength⟩ := cut_eq h
  rw [fault, hcut, ← hlength]
  rfl

/-- Between two places stands what was passed on the way. -/
theorem between_eq {cs : List Char} (h : Stands text pos c) (hpasses : c.Passes cs c') :
    between text pos (pos + String.utf8Len cs) = pure cs := by
  obtain ⟨front, htext, rfl, -⟩ := h
  have hcut : cut text (String.utf8Len front + String.utf8Len cs) =
      pure (front ++ cs, c'.rest) := by
    rw [cut, htext, hpasses.rest, ← List.append_assoc, ← String.utf8Len_append, cut?_append]
    rfl
  rw [between, hcut, pure_bind]
  dsimp only
  rw [cut?_append]
  rfl

/-! ## Loops over characters -/

/-- What is passed is not left. -/
theorem length_of_passes {cs : List Char} (h : c.Passes cs c') :
    c.rest.length = cs.length + c'.rest.length := by
  rw [h.rest, List.length_append]

theorem passes_optional (p : Char → Bool) (c : Cursor) :
    c.Passes (optional p c.rest) (c.advance (optional p c.rest).length) :=
  Cursor.passes_advance _ (optional_append_drop p c.rest).symm

theorem passes_takeWhile (p : Char → Bool) (c : Cursor) :
    c.Passes (c.rest.takeWhile p) (c.advance (c.rest.takeWhile p).length) :=
  Cursor.passes_advance _ (takeWhile_append_drop p c.rest).symm

theorem skipOne_eq (h : Stands text pos c) (p : Char → Bool) :
    skipOne text p pos = pure (pos + String.utf8Len (optional p c.rest)) := by
  rw [skipOne, peek_eq h, pure_bind]
  obtain ⟨hnil, hhead⟩ | ⟨d, ds, hc, hd, hone⟩ := optional_cases p c.rest
  · have hany : ¬c.rest.head?.any p = true := by
      cases hc : c.rest.head? with
      | none => simp
      | some d => simp [hhead d hc]
    rw [if_neg hany, hnil]
    rfl
  · rw [if_pos (by simp [hc, hd]), bump_eq h hc, hone]
    simp

/-- The loop ends, since every round but the last takes a character. -/
theorem skipWhile_eq {cs : List Char} {offset : Nat} (h : Stands text pos ⟨cs, offset⟩)
    (hrounds : cs.length < rounds) (p : Char → Bool) :
    skipWhile text p rounds pos = pure (pos + String.utf8Len (cs.takeWhile p)) := by
  -- The rounds are bounded by the characters, one of which is taken in each round.
  induction rounds generalizing cs pos offset with
  | zero => exact absurd hrounds (Nat.not_lt_zero _)
  | succ rounds ih =>
    rw [skipWhile, peek_eq h, pure_bind]
    cases cs with
    | nil => rfl
    | cons d ds =>
      by_cases hd : p d = true
      · have hnext : Stands text (pos + d.utf8Size) ⟨ds, offset + 1⟩ := h.one rfl
        rw [if_pos (by simp [hd]), bump_eq h rfl, pure_bind]
        dsimp only
        rw [ih hnext (Nat.lt_of_succ_lt_succ hrounds), List.takeWhile_cons_of_pos hd,
          String.utf8Len_cons]
        congr 1
        omega
      · rw [if_neg (by simp [hd]), List.takeWhile_cons_of_neg hd]
        rfl

theorem skipBlanks_eq (h : Stands text pos c) (hrounds : c.rest.length < rounds) :
    ∃ pos', skipWhile text Text.isBlank rounds pos = pure pos' ∧
      Stands text pos' c.skipBlanks ∧ c.skipBlanks.rest.length ≤ c.rest.length := by
  refine ⟨_, skipWhile_eq h hrounds Text.isBlank, h.pass (passes_takeWhile Text.isBlank c), ?_⟩
  obtain ⟨b, -, hpasses⟩ := c.passes_skipBlanks
  have hlength := length_of_passes hpasses
  omega

/-! ## Agreement -/

/-- The same fault, or the same value with related places behind it. -/
inductive Agrees (place : Nat → Cursor → Prop) {β : Type} :
    Steps (β × Nat) → Reading (β × Cursor) → Prop where
  | ok {v : β} {pos : Nat} {c : Cursor} : place pos c → Agrees place (pure (v, pos)) (.ok (v, c))
  | error (e : Nat × SyntaxFault) : Agrees place (throw e) (.error e)

variable {β γ : Type} {place place' : Nat → Cursor → Prop}

/-- Agreement goes on when it does for every value that the first reading can have. -/
theorem Agrees.bind {m : Steps (β × Nat)} {r : Reading (β × Cursor)}
    {f : β × Nat → Steps (γ × Nat)} {g : β × Cursor → Reading (γ × Cursor)}
    (h : Agrees place m r)
    (hfg : ∀ v pos c, r = .ok (v, c) → place pos c → Agrees place' (f (v, pos)) (g (v, c))) :
    Agrees place' (m >>= f) (r >>= g) := by
  cases h with
  | ok hplace => exact hfg _ _ _ rfl hplace
  | error e => exact .error e

/-- The same answer, without the places. -/
theorem Agrees.answer {m : Steps (β × Nat)} {r : Reading (β × Cursor)} (h : Agrees place m r) :
    m.run.map (Except.map Prod.fst) = some (r.map Prod.fst) := by
  cases h <;> rfl

theorem agrees_fault (h : Stands text pos c) (reason : SyntaxFault) :
    Agrees place (fault text pos reason : Steps (β × Nat)) (.error (c.offset, reason)) := by
  rw [fault_eq h]
  exact .error _

/-! ### Tokens -/

theorem agrees_word (h : Stands text pos c) (hrounds : c.rest.length < rounds) :
    Agrees (Stands text) (word text rounds pos) (readWord c) := by
  rw [word, peek_eq h, pure_bind]
  unfold readWord
  cases hc : c.rest with
  | nil => exact agrees_fault h _
  | cons d ds =>
    dsimp only [List.head?_cons]
    by_cases hd : Text.startsWord d = true
    · rw [if_pos hd, if_pos hd, skipWhile_eq h hrounds, pure_bind]
      -- The first character of a word goes on a word, too, so that the loop takes it.
      have hcontinues : Text.continuesWord d = true := by
        simp only [Text.startsWord, Text.continuesWord, Bool.or_eq_true] at hd ⊢
        exact hd.imp_left .inl
      have hpasses := passes_takeWhile Text.continuesWord c
      rw [between_eq h hpasses, pure_bind]
      rw [hc, List.takeWhile_cons_of_pos hcontinues] at hpasses ⊢
      exact .ok (h.pass hpasses)
    · rw [if_neg hd, if_neg hd]
      exact agrees_fault h _

/-- What is read of a quoted text from a cursor on, behind the given part of its value. -/
def quotedReading (place : Nat) (value : List Char) (c : Cursor) : Reading (List Char × Cursor) :=
  match scanQuoted c.rest with
  | some (inside, length) => .ok (value ++ inside, c.advance length)
  | none => .error (place, .unterminated)

/-- One more character of the value stands for one or two characters of the text. -/
theorem quotedReading_append {cs : List Char} {d : Char} (taken : List Char)
    (hscan : scanQuoted (taken ++ cs) =
      (scanQuoted cs).map fun r => (d :: r.1, r.2 + taken.length))
    (place : Nat) (value : List Char) (offset : Nat) :
    quotedReading place value ⟨taken ++ cs, offset⟩ =
      quotedReading place (value ++ [d]) ⟨cs, offset + taken.length⟩ := by
  unfold quotedReading
  dsimp only
  rw [hscan]
  cases scanQuoted cs with
  | none => rfl
  | some r => simp [Cursor.advance, Nat.add_assoc, Nat.add_comm r.2]

/-- A quoted text is read character by character, and its value grows with them. -/
theorem agrees_quotedRest {c₀ : Cursor} (h₀ : Stands text start c₀) {cs : List Char}
    {offset : Nat} {value : List Char} (h : Stands text pos ⟨cs, offset⟩)
    (hrounds : cs.length < rounds) :
    Agrees (Stands text) (quotedRest text start rounds value pos)
      (quotedReading c₀.offset value ⟨cs, offset⟩) := by
  obtain ⟨rounds, rfl⟩ : ∃ k, rounds = k + 1 := ⟨rounds - 1, by omega⟩
  fun_induction scanQuoted cs generalizing pos offset value rounds with
  | case1 =>
    rw [quotedRest, bump_eq_none h rfl, pure_bind]
    exact agrees_fault h₀ _
  | case2 cs ih =>
    -- A doubled quote.
    simp only [List.length_cons] at hrounds
    obtain ⟨rounds, rfl⟩ : ∃ k, rounds = k + 1 := ⟨rounds - 1, by omega⟩
    have hnext := h.one rfl
    have hpeek : peek text (pos + '"'.utf8Size) = pure (some '"') := peek_eq hnext
    rw [quotedRest, bump_eq h rfl, pure_bind]
    dsimp only
    have htaken : quotedReading c₀.offset value ⟨'"' :: '"' :: cs, offset⟩ = _ :=
      quotedReading_append ['"', '"'] (scanQuoted.eq_2 cs) c₀.offset value offset
    rw [if_pos (by decide), hpeek, pure_bind, if_pos (by decide), bump_eq hnext rfl, pure_bind,
      htaken]
    exact ih (hnext.one rfl) rounds (by omega)
  | case3 cs hsingle =>
    -- The closing quote.
    have hnext := h.one rfl
    have hpeek : peek text (pos + '"'.utf8Size) = pure cs.head? := peek_eq hnext
    have hhead : ¬(cs.head? == some '"') = true := by
      cases cs with
      | nil => decide
      | cons d ds => simpa using fun hd => hsingle ds (by rw [hd])
    rw [quotedRest, bump_eq h rfl, pure_bind]
    dsimp only
    rw [if_pos (by decide), hpeek, pure_bind, if_neg hhead]
    have hreading : quotedReading c₀.offset value ⟨'"' :: cs, offset⟩ =
        .ok (value, ⟨cs, offset + 1⟩) := by
      unfold quotedReading
      rw [scanQuoted.eq_3 cs hsingle]
      simp [Cursor.advance]
    rw [hreading]
    exact .ok hnext
  | case4 d cs hdouble hquote ih =>
    simp only [List.length_cons] at hrounds
    obtain ⟨rounds, rfl⟩ : ∃ k, rounds = k + 1 := ⟨rounds - 1, by omega⟩
    have hd : ¬(d == '"') = true := by simpa using hquote
    rw [quotedRest, bump_eq h rfl, pure_bind]
    dsimp only
    have htaken : quotedReading c₀.offset value ⟨d :: cs, offset⟩ = _ :=
      quotedReading_append [d] (scanQuoted.eq_4 d cs hdouble hquote) c₀.offset value offset
    rw [if_neg hd, htaken]
    exact ih (h.one rfl) rounds (by omega)

theorem agrees_quoted {ds : List Char} (h : Stands text pos c) (hrounds : c.rest.length < rounds)
    (hc : c.rest = '"' :: ds) :
    Agrees (Stands text) (quoted text rounds pos) (readQuoted c) := by
  have hreading : readQuoted c = quotedReading c.offset [] (c.advance 1) := by
    unfold readQuoted quotedReading
    rw [Cursor.advance]
    cases scanQuoted (c.rest.drop 1) with
    | none => rfl
    | some r => simp [Cursor.advance, Nat.add_comm, Nat.add_left_comm]
  rw [quoted, bump_eq h hc, pure_bind, hreading]
  refine agrees_quotedRest h (h.one hc) ?_
  simp only [List.length_drop]
  omega

/-- The parts of a number are passed one after the other. -/
theorem numberEnd_eq (h : Stands text pos c) (hrounds : c.rest.length < rounds) :
    numberEnd text rounds pos = pure (pos + String.utf8Len (numberToken c.rest)) := by
  -- Sign and mantissa are passed in turn, and what each passes shortens the rest.
  have hsign := h.pass (passes_optional isSign c)
  have hmantissa := hsign.pass (passes_takeWhile isMantissaChar _)
  have hlength := length_of_passes (passes_optional isSign c)
  have hlength' := length_of_passes (passes_takeWhile isMantissaChar
    (c.advance (optional isSign c.rest).length))
  dsimp only [Cursor.advance] at hmantissa hlength hlength'
  rw [numberEnd, skipOne_eq h, pure_bind, skipWhile_eq hsign (by omega), pure_bind,
    peek_eq hmantissa, pure_bind]
  unfold numberToken
  dsimp only
  generalize optional isSign c.rest = sign at hmantissa hlength hlength' ⊢
  generalize c.rest.drop sign.length = afterSign at hmantissa hlength hlength' ⊢
  generalize afterSign.takeWhile isMantissaChar = mantissa at hmantissa hlength' ⊢
  generalize afterSign.drop mantissa.length = afterMantissa at hmantissa hlength' ⊢
  obtain ⟨hnil, hhead⟩ | ⟨mark, afterMark, rfl, hmark, hone⟩ :=
    optional_cases isExponentChar afterMantissa
  · -- There is no exponent.
    have hany : ¬afterMantissa.head?.any isExponentChar = true := by
      cases hc : afterMantissa.head? with
      | none => simp
      | some d => simp [hhead d hc]
    rw [if_neg hany, hnil]
    simp [String.utf8Len_append, Nat.add_assoc]
  · -- The exponent has a mark, and behind it a sign and digits.
    have hafter := hmantissa.one rfl
    have hpower := hafter.pass (passes_optional isSign _)
    have hlength'' := length_of_passes (passes_optional isSign
      (Cursor.advance ⟨mark :: afterMark, c.offset + sign.length + mantissa.length⟩ 1))
    simp only [Cursor.advance, List.drop_succ_cons, List.drop_zero, List.length_cons]
      at hlength' hlength''
    rw [if_pos (by simp [hmark]), bump_eq hmantissa rfl, pure_bind]
    dsimp only
    rw [skipOne_eq hafter, pure_bind, skipWhile_eq hpower (by simp [Cursor.advance]; omega), hone]
    congr 1
    simp [Cursor.advance, String.utf8Len_append]
    omega

variable {α : Type} [Numeral α]

theorem agrees_number {d : Char} {ds : List Char} (h : Stands text pos c)
    (hrounds : c.rest.length < rounds) (hc : c.rest = d :: ds) (hd : startsNumber d = true) :
    Agrees (Stands text) (number text rounds pos : Steps (α × Nat)) (readNumber c) := by
  obtain ⟨-, tail, htail⟩ := hc ▸ @isNumberToken_numberToken d ds hd
  have hpasses := Cursor.passes_advance _ htail
  rw [number, numberEnd_eq h hrounds, pure_bind, between_eq h hpasses, pure_bind]
  unfold readNumber
  dsimp only
  -- The token is the same, and so what is made of it.
  cases hread : (Numeral.read? (numberToken c.rest) : Option α) with
  | none => exact agrees_fault h _
  | some v =>
    dsimp only
    by_cases hfinite : Scalar.isFinite v = true
    · rw [if_pos hfinite, if_pos hfinite]
      exact .ok (h.pass hpasses)
    · rw [if_neg hfinite, if_neg hfinite]
      exact agrees_fault h _

/-! ### Items -/

/-- The position is at the cursor or behind the blanks there. -/
def Near (text : String) (pos : Nat) (c : Cursor) : Prop :=
  Stands text pos c ∨ Stands text pos c.skipBlanks

theorem Near.skipBlanks (h : Near text pos c) (hrounds : c.rest.length < rounds) :
    ∃ pos', skipWhile text Text.isBlank rounds pos = pure pos' ∧
      Stands text pos' c.skipBlanks ∧ c.skipBlanks.rest.length ≤ c.rest.length := by
  obtain hstands | hstands := h
  · exact skipBlanks_eq hstands hrounds
  · obtain ⟨b, -, hpasses⟩ := c.passes_skipBlanks
    have hlength := length_of_passes hpasses
    have hagain := skipBlanks_eq hstands (by omega : c.skipBlanks.rest.length < rounds)
    rw [Cursor.skipBlanks_skipBlanks] at hagain
    obtain ⟨pos', hskip, hbehind, -⟩ := hagain
    exact ⟨pos', hskip, hbehind, by omega⟩

omit [Numeral α] in
/-- The items are put into their element in the order of the text. -/
theorem foldl_push (its : List (Item α)) (keyword : String) (offset : Nat)
    (literals : List (Literal α)) (children : List (Element α)) :
    its.foldl push (.node keyword offset literals children) =
      .node keyword offset (literals ++ its.filterMap Sum.getLeft?)
        (children ++ its.filterMap Sum.getRight?) := by
  induction its generalizing literals children with
  | nil => simp
  | cons item its ih => cases item <;> simp [push, ih, List.filterMap_cons]

variable {n limit : Nat} {close : Char} {reader : Nat → Steps (Element α × Nat)}
  {child : Cursor → Reading (Element α × Cursor)}

/-- The readers of elements agree wherever fewer characters than that are left. -/
def AgreesBelow (text : String) (limit : Nat) (reader : Nat → Steps (Element α × Nat))
    (child : Cursor → Reading (Element α × Cursor)) : Prop :=
  ∀ {pos c}, Stands text pos c → c.rest.length < limit →
    Agrees (Stands text) (reader pos) (child c)

/-- An item is read alike when children are. A word is a literal only after a look behind the
blanks that follow it. -/
theorem agrees_item (hchild : AgreesBelow text limit reader child) (h : Stands text pos c)
    (hlimit : c.rest.length < limit) (hrounds : c.rest.length < rounds) :
    Agrees (Near text) (item text reader close rounds pos) (readItem child close c) := by
  rw [item, peek_eq h, pure_bind]
  unfold readItem
  -- The first character decides, and both readers ask the same questions in the same order.
  cases hc : c.rest with
  | nil => exact agrees_fault h _
  | cons d ds =>
    dsimp only [List.head?_cons]
    by_cases hquote : (d == '"') = true
    · rw [if_pos hquote, if_pos hquote]
      rw [eq_of_beq hquote] at hc
      exact (agrees_quoted h hrounds hc).bind fun _ _ _ _ hnext => .ok (.inl hnext)
    rw [if_neg hquote, if_neg hquote]
    by_cases hnumber : startsNumber d = true
    · rw [if_pos hnumber, if_pos hnumber]
      exact (agrees_number h hrounds hc hnumber).bind fun _ _ _ _ hnext => .ok (.inl hnext)
    rw [if_neg hnumber, if_neg hnumber]
    by_cases hword : Text.startsWord d = true
    · rw [if_pos hword, if_pos hword]
      -- A word is followed by a look at the first character behind the blanks.
      refine (agrees_word h hrounds).bind fun letters pos' next hread hnext => ?_
      have hlength := length_of_passes (passes_of_readWord hread).2
      obtain ⟨pos'', hskip, hbehind, -⟩ :=
        skipBlanks_eq hnext (by omega : next.rest.length < rounds)
      dsimp only
      rw [hskip, pure_bind, peek_eq hbehind, pure_bind]
      have hany : next.skipBlanks.rest.head?.any isOpen =
          (next.skipBlanks.rest.head?.map isOpen).getD false := by
        cases next.skipBlanks.rest.head? <;> rfl
      rw [hany]
      split
      · exact (hchild h hlimit).bind fun _ _ _ _ hlast => .ok (.inl hlast)
      · exact .ok (.inr hbehind)
    · rw [if_neg hword, if_neg hword]
      exact agrees_fault h _

/-- The loop over the items ends, since each of them but the last is followed by a comma. -/
theorem agrees_items (hchild : AgreesBelow text limit reader child)
    (hrecognizes : ∀ {c e c'}, child c = .ok (e, c') → Recognizes n c (.inr e) c') {fuel : Nat}
    (hfuel : c.rest.length < fuel) (hlimit : c.rest.length < limit)
    (hrounds : c.rest.length < rounds) (h : Stands text pos c) (close : Char) (e : Element α) :
    Agrees (Stands text) (items text reader close rounds e pos)
      (readItems child close fuel c >>= fun r => .ok (r.1.foldl push e, r.2)) := by
  -- A round takes an item, so that the fuel of one reader bounds the rounds of the other.
  induction fuel generalizing pos c e rounds with
  | zero => exact absurd hfuel (Nat.not_lt_zero _)
  | succ fuel ih =>
    obtain ⟨rounds, rfl⟩ : ∃ k, rounds = k + 1 := ⟨rounds - 1, by omega⟩
    obtain ⟨pos', hskip, hstart, hle⟩ := skipBlanks_eq h hrounds
    rw [items, readItems, hskip, pure_bind, bind_assoc]
    refine (agrees_item hchild hstart (by omega) (by omega)).bind
      fun it pos'' next hread hnear => ?_
    obtain ⟨-, s, cs, hcs, -, -⟩ := recognizes_of_readItem hrecognizes hread
    have hlength := length_of_passes hcs
    obtain ⟨last, hskip', hbehind, hle'⟩ :=
      hnear.skipBlanks (by omega : next.rest.length < rounds + 1)
    dsimp only
    rw [hskip', pure_bind]
    cases hrest : next.skipBlanks.rest with
    | nil =>
      rw [bump_eq_none hbehind hrest, pure_bind]
      exact agrees_fault hbehind _
    -- Behind the item stands a comma, the closing bracket or a fault, for both readers.
    | cons d ds =>
      rw [bump_eq hbehind hrest, pure_bind]
      dsimp only
      have hnext := hbehind.one hrest
      have hone := length_of_passes (Cursor.passes_one hrest)
      simp only [List.length_singleton] at hone
      by_cases hcomma : (d == ',') = true
      · rw [if_pos hcomma, if_pos hcomma, bind_assoc]
        exact ih (by omega) (by omega) (by omega) hnext (push e it)
      rw [if_neg hcomma, if_neg hcomma]
      by_cases hclose : (d == close) = true
      · rw [if_pos hclose, if_pos hclose]
        exact .ok hnext
      · rw [if_neg hclose, if_neg hclose]
        exact agrees_fault hbehind _

/-- Elements are read alike, with as many levels as are left. -/
theorem agrees_element (n : Nat) : ∀ {depth rounds : Nat}, depth + n = largestDepth →
    AgreesBelow text rounds (element (α := α) text rounds depth) (readElement n) := by
  induction n with
  | zero =>
    intro depth rounds hdepth pos c h hrounds
    obtain ⟨rounds, rfl⟩ : ∃ k, rounds = k + 1 := ⟨rounds - 1, by omega⟩
    rw [element, if_pos (by omega)]
    exact agrees_fault h _
  | succ n ih =>
    intro depth rounds hdepth pos c h hrounds
    obtain ⟨rounds, rfl⟩ : ∃ k, rounds = k + 1 := ⟨rounds - 1, by omega⟩
    rw [element, if_neg (by omega), readElement]
    refine (agrees_word h hrounds).bind fun letters pos' next hread hnext => ?_
    have hlength := length_of_passes (passes_of_readWord hread).2
    obtain ⟨pos'', hskip, hbehind, hle⟩ :=
      skipBlanks_eq hnext (by omega : next.rest.length < rounds + 1)
    dsimp only
    rw [hskip, pure_bind]
    cases hrest : next.skipBlanks.rest with
    | nil =>
      rw [bump_eq_none hbehind hrest, pure_bind]
      exact agrees_fault h _
    | cons d ds =>
      rw [bump_eq hbehind hrest, pure_bind]
      dsimp only
      have hone := length_of_passes (Cursor.passes_one hrest)
      simp only [List.length_singleton] at hone
      by_cases hopen : isOpen d = true
      · rw [if_pos hopen, if_pos hopen]
        obtain ⟨front, hcut, hfront⟩ := cut_eq h
        obtain ⟨start, hskip', hstart, hle'⟩ := skipBlanks_eq (hbehind.one hrest)
          (by omega : (next.skipBlanks.advance 1).rest.length < rounds + 1)
        rw [hcut, pure_bind]
        dsimp only
        rw [hskip', pure_bind, peek_eq hstart, pure_bind]
        unfold readBody
        dsimp only
        by_cases hclose : ((next.skipBlanks.advance 1).skipBlanks.rest.head? ==
            some (closeOf d)) = true
        · rw [if_pos hclose, if_pos hclose]
          obtain ⟨ds', hc⟩ := List.head?_eq_some_iff.1 (eq_of_beq hclose)
          rw [bump_eq hstart hc, hfront]
          exact .ok (hstart.one hc)
        · rw [if_neg hclose, if_neg hclose]
          -- One level less is left, and fewer characters than rounds.
          have hchild := @ih (depth + 1) rounds (by omega)
          have hitems := agrees_items hchild recognizes_of_readElement (Nat.lt_succ_self _)
            (by omega) (by omega : _ < rounds + 1) hstart (closeOf d)
            (.node (String.ofList letters) front.length [] [])
          simp only [foldl_push, List.nil_append, hfront] at hitems ⊢
          exact hitems
      · rw [if_neg hopen, if_neg hopen]
        exact agrees_fault h _

/-! ## Whole texts -/

/-- Behind the element, only blanks may stand up to the end of the text. -/
theorem agrees_wholeText (hrounds : text.length < rounds) : Agrees (Stands text)
    (wholeText text rounds : Steps (Element α × Nat))
    (readElement largestDepth (Cursor.mk text.toList 0).skipBlanks >>= fun r =>
      if r.2.skipBlanks.rest.isEmpty then .ok (r.1, r.2.skipBlanks)
      else .error (r.2.skipBlanks.offset, .trailing)) := by
  rw [← String.length_toList] at hrounds
  -- The blanks in front of the element, the element, and the blanks behind it.
  obtain ⟨start, hskip, hstart, hle⟩ := skipBlanks_eq (stands_zero text) hrounds
  dsimp only at hle
  rw [wholeText, hskip, pure_bind]
  refine (agrees_element largestDepth (Nat.zero_add _) hstart (by omega)).bind
    fun e pos last hread hlast => ?_
  obtain ⟨-, s, cs, hcs, -, -⟩ := recognizes_of_readElement hread
  have hlength := length_of_passes hcs
  obtain ⟨pos', hskip', hend, -⟩ := skipBlanks_eq hlast (by omega : last.rest.length < rounds)
  dsimp only
  rw [hskip', pure_bind]
  by_cases hrest : last.skipBlanks.rest.isEmpty = true
  · rw [if_pos hrest, if_neg (by rw [hend.lt_iff]; simpa using hrest)]
    exact .ok hend
  · rw [if_neg hrest, if_pos (by rw [hend.lt_iff]; simpa using hrest)]
    exact agrees_fault hend _

/-- The reader on byte positions cuts the text at characters only, ends after as many rounds as the
text has characters and one more, and gives the answer of `Element.parse`. -/
theorem read_eq (hrounds : text.length < rounds) :
    read (α := α) text rounds = some (Element.parse text) := by
  -- Both readers agree, and only the position of the last character is dropped.
  have hanswer := (agrees_wholeText (α := α) hrounds).answer
  have hread : read (α := α) text rounds =
      ((wholeText text rounds).run.map (Except.map Prod.fst)).map fun r =>
        r.mapError fun (offset, reason) => .badSyntax offset reason := by
    rw [Option.map_map]
    rfl
  rw [hread, hanswer, Option.map_some]
  unfold Element.parse
  cases readElement (α := α) largestDepth (Cursor.mk text.toList 0).skipBlanks with
  | error e => rfl
  | ok r =>
    dsimp only [bind, Except.bind]
    split <;> rfl

end CoordTransform.Element.Positional

namespace CoordTransform.Element

/-- A refused text is refused at a place that is counted in characters and lies in the text or at
its end, and what stands in front of the place begins an accepted text. Read by its bytes, no text
is cut outside of it or inside of a character, and none keeps the reader busy for more rounds than
it has characters and one. -/
theorem parse_faults {α : Type} [Numeral α] (text : String) :
    (∀ error : ElementError α, Element.parse text = .error error → ∃ place fault,
      error = .badSyntax place fault ∧ place ≤ text.length ∧
        ∃ (suffix : String) (e : Element α),
          Element.parse (String.ofList (text.toList.take place) ++ suffix) = .ok e) ∧
      ∀ rounds, text.length < rounds →
        Positional.read (α := α) text rounds = some (Element.parse text) :=
  ⟨fun _ h => beginsAccepted_of_parse h, fun _ hrounds => Positional.read_eq hrounds⟩

/-- The fault stands behind seven characters that take eight bytes. -/
theorem parse_faults_accent :
    Element.parse (α := Float) "A[\"é\", ?]" = .error (.badSyntax 7 (.unexpected '?')) ∧
      Positional.read (α := Float) "A[\"é\", ?]" 10 =
        some (.error (.badSyntax 7 (.unexpected '?'))) ∧
      ∃ (suffix : String) (e : Element Float),
        Element.parse ("A[\"é\", " ++ suffix) = .ok e := by
  obtain ⟨hplace, hread⟩ := parse_faults (α := Float) "A[\"é\", ?]"
  have herror : Element.parse (α := Float) "A[\"é\", ?]" =
      .error (.badSyntax 7 (.unexpected '?')) := rfl
  obtain ⟨place, fault, heq, -, hbegins⟩ := hplace _ herror
  cases heq
  exact ⟨herror, (hread 10 (by decide)).trans (congrArg some herror), hbegins⟩

end CoordTransform.Element
