import CoordTransform.Proofs.Element.RoundTrip
import CoordTransform.Proofs.Rational

/-!
# What a Text Must Be to be Read

The text of an element may hold numbers that the reader refuses. Here each token is settled: it is
one that the reader takes, or one on which it fails, whatever follows. Then a text with such tokens
is only read when there is no refused token in it and it is not nested too deeply, that is, when it
is in the grammar.
-/

namespace CoordTransform.Element

variable {α : Type} [Numeral α]

/-- A token that starts a number and is none, whatever follows it. -/
structure Refused (α : Type) [Numeral α] (token : List Char) : Prop where
  starts : ∃ d ds, token = d :: ds ∧ startsNumber d = true
  fails : ∀ tail offset (r : α × Cursor), readNumber ⟨token ++ tail, offset⟩ ≠ .ok r

/-- Words are words, and tokens of numbers are taken or refused. -/
inductive Spelling.Settled (α : Type) [Numeral α] : Spelling → Prop where
  | quoted (value : List Char) : Settled α (.quoted value)
  | number {token : List Char} {x : α} : Denotes (.number token) (.inl (.number x)) →
      Settled α (.number token)
  | refused {token : List Char} : Refused α token → Settled α (.number token)
  | word {letters : List Char} : Text.isWord letters = true → Settled α (.word letters)
  | element {keyword : List Char} {items : List Spelling} : Text.isWord keyword = true →
      (∀ s ∈ items, Settled α s) → Settled α (.element keyword items)

/-- What is refused denotes no number. -/
theorem Refused.not_denotes {token : List Char} (h : Refused α token) (item : Item α) :
    ¬(Spelling.number token).Denotes item := by
  rintro (_ | ⟨htoken, hread, hfinite⟩)
  have hend : AtSeparator [']'] := ⟨[], ']', [], rfl, blanks_nil, by decide⟩
  exact h.fails [']'] 0 _ (readNumber_append htoken hread hfinite hend 0)

theorem Spelling.Settled.started {s : Spelling} (h : s.Settled α) : s.Started := by
  cases h with
  | quoted value => exact trivial
  | number hdenotes => exact hdenotes.started
  | refused hrefused => exact hrefused.starts
  | word hword => exact hword
  | element hword _ => exact hword

variable {child : Cursor → Reading (Element α × Cursor)} {close : Char} {n : Nat} {c : Cursor}

/-- From a layout of settled tokens, a reader of elements reads only what the tokens denote, with
bounded depth. -/
def ReadsOnly (n : Nat) (child : Cursor → Reading (Element α × Cursor)) : Prop :=
  ∀ {keyword : List Char} {items : List Spelling} {cs : List Char},
    (Spelling.element keyword items).Settled α → (Spelling.element keyword items).Layout cs →
    ∀ {tail offset r}, child ⟨cs ++ tail, offset⟩ = .ok r →
      ∃ e : Element α, (Spelling.element keyword items).Denotes (.inr e) ∧ e.depth ≤ n

/-- What is read as an item from settled tokens is denoted by them. -/
theorem denotes_of_readItem (hchild : ReadsOnly n child) {s : Spelling} (hs : s.Settled α)
    {cs tail : List Char} (hcs : s.Layout cs) {offset : Nat} {r : Item α × Cursor}
    (h : readItem child close ⟨cs ++ tail, offset⟩ = .ok r) :
    ∃ item : Item α, s.Denotes item ∧ itemDepth item ≤ n := by
  -- All tokens but a refused number denote something whatever is read.
  cases hs with
  | quoted value => exact ⟨_, .quoted value, Nat.zero_le n⟩
  | number hdenotes => exact ⟨_, hdenotes, Nat.zero_le n⟩
  | @refused token hrefused =>
    obtain rfl : token = cs := by cases hcs; rfl
    obtain ⟨d, ds, rfl, hd⟩ := hrefused.starts
    unfold readItem at h
    dsimp only [List.cons_append] at h
    rw [(startsNumber_class hd).1, if_neg (by decide), if_pos hd] at h
    obtain ⟨x, hx, -⟩ := bind_eq_ok.1 h
    exact absurd hx (hrefused.fails tail offset x)
  | word hword => exact ⟨_, .word hword, Nat.zero_le n⟩
  | @element keyword items hword hitems =>
    obtain ⟨before, bracket, rest, rfl, hbefore, hopen⟩ := hcs.opens
    rw [List.append_assoc, List.append_assoc, List.cons_append,
      readItem_of_isWord hword (readWord_keyword hword hbefore hopen _ offset),
      Cursor.skipBlanks_cons hbefore (isOpen_class hopen).1, if_pos (by simp [hopen])] at h
    obtain ⟨r', hr', -⟩ := bind_eq_ok.1 h
    rw [← List.cons_append, ← List.append_assoc, ← List.append_assoc,
      List.append_assoc keyword] at hr'
    obtain ⟨e, he, hdepth⟩ := hchild (.element hword hitems) hcs hr'
    exact ⟨.inr e, he, hdepth⟩

/-- Items are read one after the other, each of them up to its end. -/
theorem denotes_of_readItems (hreads : ReadsLayouts n child) (honly : ReadsOnly n child)
    {items : List Spelling} (hitems : ∀ s ∈ items, s.Settled α) {middle tail : List Char}
    (hmiddle : Spelling.LayoutAll items middle) {fuel offset : Nat}
    (hc : c.skipBlanks = ⟨middle ++ tail, offset⟩)
    {r : List (Item α) × Cursor} (h : readItems child close fuel c = .ok r) :
    ∃ its : List (Item α), List.Forall₂ Spelling.Denotes items its ∧
      ∀ item ∈ its, itemDepth item ≤ n := by
  induction items generalizing middle fuel c offset r with
  | nil => cases hmiddle
  | cons s items ih =>
    cases fuel with
    | zero => cases h
    | succ fuel =>
    have hs := hitems s List.mem_cons_self
    rw [readItems, hc] at h
    obtain ⟨⟨item, next⟩, hitem, h⟩ := bind_eq_ok.1 h
    cases hmiddle with
    | last hlayout =>
      obtain ⟨item', hdenotes, hdepth⟩ := denotes_of_readItem honly hs hlayout hitem
      exact ⟨[item'], .cons hdenotes .nil, List.forall_mem_singleton.2 hdepth⟩
    | @cons _ _ cs left before rest hlayout hleft hbefore hrest =>
      have hregroup : cs ++ left ++ [','] ++ before ++ rest ++ tail =
          cs ++ (left ++ ',' :: (before ++ (rest ++ tail))) := by
        simp only [List.append_assoc, List.cons_append, List.nil_append]
      rw [hregroup] at hitem
      obtain ⟨item', hdenotes, hdepth⟩ := denotes_of_readItem honly hs hlayout hitem
      -- The item is one that is read up to the comma, so that the others are read behind it.
      obtain ⟨item'', offset', hread, -⟩ : ∃ item'' offset',
          readItem child close ⟨cs ++ (left ++ ',' :: (before ++ (rest ++ tail))), offset⟩ =
            .ok (item'', ⟨left ++ ',' :: (before ++ (rest ++ tail)), offset'⟩) ∧
          SimilarItem item' item'' :=
        readItem_append hreads hdenotes hdepth hlayout
          ⟨left, ',', before ++ (rest ++ tail), rfl, hleft, by decide⟩ offset
      cases hread.symm.trans hitem
      dsimp only at h
      rw [Cursor.skipBlanks_cons hleft (by decide)] at h
      obtain ⟨⟨its, last⟩, hothers, -⟩ := bind_eq_ok.1 ((if_pos rfl).symm.trans h)
      have hstarted : ∀ s' ∈ items, s'.Started :=
        fun s' hs' => (hitems s' (List.mem_cons_of_mem s hs')).started
      obtain ⟨its', hits, hdepths⟩ := ih (fun s' hs' => hitems s' (List.mem_cons_of_mem s hs'))
        hrest (hrest.skipBlanks hstarted hbefore _ _) hothers
      exact ⟨item' :: its', .cons hdenotes hits, List.forall_mem_cons.2 ⟨hdepth, hdepths⟩⟩

theorem readsOnly_readElement (n : Nat) : ReadsOnly n (readElement n (α := α)) := by
  -- The induction is on the levels, which bound the depth of what is denoted.
  induction n with
  | zero =>
    intro keyword items cs _ _ tail offset r h
    cases h
  | succ n ih =>
    intro keyword items cs hs hcs tail offset r h
    cases hs with
    | element hword hitems =>
    cases hcs with
    | empty =>
      exact ⟨_, .element 0 hword .nil, (depth_ofItems_le_iff _ 0).2 (List.forall_mem_nil _)⟩
    | @element _ before left middle right bracket _ hbefore hopen hleft hmiddle hright =>
      -- The layout is regrouped into the keyword, the bracket and what the body reads.
      have hregroup : keyword ++ before ++ [bracket] ++ left ++ middle ++ right ++
          [closeOf bracket] ++ tail = keyword ++ (before ++ bracket ::
            (left ++ (middle ++ (right ++ closeOf bracket :: tail)))) := by
        simp only [List.append_assoc, List.cons_append, List.nil_append]
      have hstarted : ∀ s ∈ items, s.Started := fun s hs => (hitems s hs).started
      rw [hregroup, readElement_eq hword hbefore hopen,
        readBody_eq_readItems (isOpen_class hopen).2.2.1 hstarted hleft hmiddle] at h
      obtain ⟨_, hread, -⟩ := bind_eq_ok.1 h
      obtain ⟨its, hits, hdepths⟩ := denotes_of_readItems (readsLayouts_readElement n) ih hitems
        hmiddle (hmiddle.skipBlanks hstarted blanks_nil _ _) hread
      exact ⟨_, .element 0 hword hits, (depth_ofItems_le_iff _ 0).2 hdepths⟩

/-- A text of settled tokens is accepted only when they denote an element, which then is similar to
what is read. -/
theorem denotes_of_parse {keyword : List Char} {items : List Spelling}
    (hs : (Spelling.element keyword items).Settled α) {text : String}
    (htext : (Spelling.element keyword items).IsText text) {e : Element α}
    (h : Element.parse text = .ok e) :
    ∃ e' : Element α, (Spelling.element keyword items).Denotes (.inr e') ∧ e'.Similar e := by
  obtain ⟨-, s', hs', htext'⟩ := isText_of_parse h
  -- The blanks in front are skipped, and what is left is the element with the blanks behind it.
  obtain ⟨e', he'⟩ : ∃ e' : Element α, (Spelling.element keyword items).Denotes (.inr e') := by
    obtain ⟨before, cs, after, hbefore, hcs, -, hsplit⟩ := htext
    obtain ⟨d, ds, rfl, hblank, -⟩ := hcs.head hs.started
    unfold Element.parse at h
    rw [hsplit, List.append_assoc, List.cons_append, Cursor.skipBlanks_cons hbefore hblank] at h
    split at h
    · cases h
    · next r _ hread =>
      obtain ⟨e', he', -⟩ := readsOnly_readElement largestDepth hs hcs hread
      exact ⟨e', he'⟩
  exact ⟨e', he', Spelling.similar_of_isText he' hs' htext htext'⟩

end CoordTransform.Element

namespace CoordTransform

variable {α : Type} [Numeral α]

/-! ## Numbers that are not finite -/

/-- Numbers that are not finite are written as one of three words, one of them behind a minus, and
a minus alone is no number. -/
class Numeral.Marked (α : Type) [Numeral α] : Prop where
  words : ∀ x : α, Scalar.isFinite x = false →
    Numeral.text x = "NaN" ∨ Numeral.text x = "inf" ∨ Numeral.text x = "-inf"
  minus : (Numeral.read? ['-'] : Option α) = none

/-- Finite numbers are legible, and words are words. -/
def Literal.Regular : Literal α → Prop
  | .number x => Scalar.isFinite x = true → Numeral.Legible x
  | .text _ => True
  | .word w => Text.isWord w.toList = true

/-- What the text of a literal looks like to the reader: a number that is not finite looks like a
word, if its text is one. -/
def Literal.seen : Literal α → Literal α
  | .number x =>
    if Scalar.isFinite x = false ∧ Text.isWord (Numeral.text x).toList = true then
      .word (Numeral.text x)
    else .number x
  | l => l

theorem Literal.render_seen (l : Literal α) : l.seen.render = l.render := by
  unfold seen
  split
  · split
    · rfl
    · rfl
  · rfl

theorem Literal.seen_of_finite {l : Literal α}
    (hl : ∀ x, l = .number x → Scalar.isFinite x = true) : l.seen = l := by
  cases l with
  | number x => exact if_neg fun h => by rw [hl x rfl] at h; cases h.1
  | _ => rfl

/-- The minus in front of infinity is taken for a number, and it is none. -/
theorem Element.refused_of_not_finite [Numeral.Marked α] {x : α} (hx : Scalar.isFinite x = false)
    (hword : Text.isWord (Numeral.text x).toList ≠ true) :
    Refused α (Numeral.text x).toList := by
  -- The texts of infinity and of what is no number are words, unless a minus stands in front.
  rcases Numeral.Marked.words x hx with htext | htext | htext
  · rw [htext] at hword
    exact absurd (by decide) hword
  · rw [htext] at hword
    exact absurd (by decide) hword
  · rw [htext]
    refine ⟨⟨'-', ['i', 'n', 'f'], rfl, by decide⟩, fun tail offset r h => ?_⟩
    have htoken : numberToken ("-inf".toList ++ tail) = ['-'] := rfl
    unfold readNumber at h
    dsimp only at h
    rw [htoken, Numeral.Marked.minus] at h
    cases h

namespace Element

/-! ## Literals of an element -/

/-- An element that comes from no text, with words for keywords, and literals that satisfy `P`. -/
inductive Consists (P : Literal α → Prop) : Element α → Prop where
  | make {keyword : String} {literals : List (Literal α)} {children : List (Element α)} :
      Text.isWord keyword.toList = true → (∀ l ∈ literals, P l) → (∀ c ∈ children, Consists P c) →
      Consists P (.make keyword literals children)

mutual

/-- What the text of an element looks like to the reader. -/
def seen : Element α → Element α
  | node keyword offset literals children =>
    node keyword offset (literals.map Literal.seen) (seenAll children)

/-- What the texts of elements look like to the reader. -/
def seenAll : List (Element α) → List (Element α)
  | [] => []
  | e :: es => seen e :: seenAll es

end

theorem seenAll_eq_map (es : List (Element α)) : seenAll es = es.map seen := by
  induction es with
  | nil => rfl
  | cons e es ih => rw [seenAll, ih, List.map_cons]

theorem seen_make (keyword : String) (literals : List (Literal α)) (children : List (Element α)) :
    (Element.make keyword literals children).seen =
      .make keyword (literals.map Literal.seen) (children.map seen) := by
  rw [make, seen, seenAll_eq_map]
  rfl

theorem render_seen (e : Element α) : e.seen.render = e.render := by
  induction e using Element.childInduction with
  | _ e ih =>
  obtain ⟨keyword, offset, literals, children⟩ := e
  have hliterals : (literals.map Literal.seen).map Literal.render =
      literals.map Literal.render := by
    rw [List.map_map]
    exact List.map_congr_left fun l _ => l.render_seen
  have hchildren : (children.map seen).map render = children.map render := by
    rw [List.map_map]
    exact List.map_congr_left ih
  rw [seen, render, render, renderAll_eq_map, renderAll_eq_map, seenAll_eq_map, hliterals,
    hchildren]

/-! ## Reading what is seen -/

theorem exists_item_of_mem {items : List Spelling} {its : List (Item α)}
    (h : List.Forall₂ Spelling.Denotes items its) :
    ∀ s ∈ items, ∃ item : Item α, s.Denotes item := by
  induction h with
  | nil => exact List.forall_mem_nil _
  | cons hs _ ih => exact List.forall_mem_cons.2 ⟨⟨_, hs⟩, ih⟩

variable [Numeral.Marked α]

theorem settled_literal {l : Literal α} (hl : l.Regular) : l.seen.spelling.Settled α := by
  cases l with
  | number x =>
    unfold Literal.seen
    dsimp only
    split
    · next h => exact .word h.2
    · next h =>
      cases hfinite : Scalar.isFinite x with
      | false => exact .refused (refused_of_not_finite hfinite fun hword => h ⟨hfinite, hword⟩)
      | true => exact .number (denotes_literal (l := .number x) (hl hfinite))
  | text s => exact .quoted _
  | word w => exact .word hl

theorem settled_seen (e : Element α) (he : e.Consists Literal.Regular) :
    e.seen.spelling.Settled α := by
  induction he with
  | @make keyword literals children hword hliterals _ ih =>
  rw [seen_make, make, spelling, spellingAll_eq_map]
  refine .element hword fun s hs => ?_
  rcases List.mem_append.1 hs with hs | hs
  · rw [List.map_map] at hs
    obtain ⟨l, hl, rfl⟩ := List.mem_map.1 hs
    exact settled_literal (hliterals l hl)
  · rw [List.map_map] at hs
    obtain ⟨c, hc, rfl⟩ := List.mem_map.1 hs
    exact ih c hc

theorem writable_literal {l : Literal α} (hl : l.Regular) {item : Item α}
    (hitem : l.seen.spelling.Denotes item) : l.seen.Writable := by
  cases l with
  | number x =>
    -- A number is seen as a word only when it is not finite; any other such number would be
    -- refused.
    unfold Literal.seen at hitem ⊢
    dsimp only at hitem ⊢
    split
    · next h => exact h.2
    · next h =>
      cases hfinite : Scalar.isFinite x with
      | false =>
        rw [if_neg h] at hitem
        exact absurd hitem
          ((refused_of_not_finite hfinite fun hword => h ⟨hfinite, hword⟩).not_denotes item)
      | true => exact hl hfinite
  | text s => exact trivial
  | word w => exact hl

/-- What is seen and denotes an element can be written. -/
theorem writable_of_denotes (e : Element α) (he : e.Consists Literal.Regular) :
    ∀ {item : Item α}, e.seen.spelling.Denotes item → e.seen.Writable := by
  induction he with
  | @make keyword literals children hword hliterals _ ih =>
  intro item hitem
  rw [seen_make, make, spelling, spellingAll_eq_map] at hitem
  cases hitem with
  | element _ _ hits =>
  have hdenotes := exists_item_of_mem hits
  rw [seen_make]
  -- Each literal and each child has a spelling among those of the items, which denotes something.
  refine .node hword (List.forall_mem_map.2 fun l hl => ?_) (List.forall_mem_map.2 fun c hc => ?_)
  · obtain ⟨item, hitem⟩ := hdenotes l.seen.spelling (List.mem_append_left _
      (List.mem_map_of_mem (List.mem_map_of_mem hl)))
    exact writable_literal (hliterals l hl) hitem
  · obtain ⟨item, hitem⟩ := hdenotes c.seen.spelling (List.mem_append_right _
      (List.mem_map_of_mem (List.mem_map_of_mem hc)))
    exact ih c hc hitem

/-- When the text of an element is read, what is read is what is seen, and there was nothing in it
that the reader refuses. -/
theorem parse_seen {e e' : Element α} (he : e.Consists Literal.Regular)
    (h : Element.parse e.render = .ok e') :
    e.seen.Writable ∧ e.seen.depth ≤ largestDepth ∧ e.seen.Similar e' := by
  have hsettled := settled_seen e he
  have htext := e.seen.isText_render
  rw [render_seen] at htext
  obtain ⟨hdepth, s, hs, hstext⟩ := isText_of_parse h
  have hwritable : e.seen.Writable := by
    -- The tokens of the element are settled, so that its text is only read when they denote
    -- something.
    obtain ⟨keyword, offset, literals, children⟩ := e
    rw [seen, spelling] at hsettled htext
    obtain ⟨e'', hdenotes, -⟩ := denotes_of_parse hsettled htext h
    have hspelling : (seen (.node keyword offset literals children)).spelling.Denotes
        (.inr e'') := by
      rw [seen, spelling]
      exact hdenotes
    exact writable_of_denotes _ he hspelling
  have hsimilar := Spelling.similar_of_isText (denotes_spelling _ hwritable) hs htext hstext
  exact ⟨hwritable, (Similar.depth_eq _ hsimilar).trans_le hdepth, hsimilar⟩

end Element

/-! ## Doubles and rationals -/

namespace Double

/-- All bits of the exponent are set in a double that is not finite. -/
theorem exponent_of_not_finite {x : Float} (h : x.isFinite = false) :
    (x.toBits.toNat >>> 52) % 2048 = 2047 := by
  have hunpack : (x.toModel.unpack).isFinite = false := h
  unfold Float.Model.unpack Float.Model.UnpackedFloat.unpack at hunpack
  dsimp only at hunpack
  -- The remaining cases of unpacking give finite doubles.
  split at hunpack
  · next hexponent =>
    have hbits := congrArg BitVec.toNat hexponent
    unfold Float.Model.UnpackedFloat.unpackExponent at hbits
    rw [BitVec.toNat_cast, BitVec.extractLsb_toNat] at hbits
    exact hbits
  · split at hunpack
    · split at hunpack <;> cases hunpack
    · cases hunpack

theorem plain_of_not_finite {x : Float} (h : x.isFinite = false) :
    Decimal.plain x = "NaN" ∨ Decimal.plain x = "inf" ∨ Decimal.plain x = "-inf" := by
  unfold Decimal.plain Decimal.Parts.ofFloat Decimal.Parts.ofBits
  rw [exponent_of_not_finite h]
  dsimp only
  rw [if_pos (by decide)]
  split
  · cases (x.toBits.toNat >>> 63) % 2 == 1
    · exact .inr (.inl rfl)
    · exact .inr (.inr rfl)
  · exact .inl rfl

instance : Numeral.Marked Float where
  words _ := plain_of_not_finite
  minus := by decide

end Double

instance : Numeral.Marked ℚ where
  words _ h := nomatch h
  minus := by decide

end CoordTransform
