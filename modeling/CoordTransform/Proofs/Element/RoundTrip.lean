import CoordTransform.Proofs.Double
import CoordTransform.Proofs.Element.Recognition

/-!
# Reading Written Elements

The text of an element is a layout of a spelling that denotes it, so it reads as a similar element:
the keyword, the literals and the children are the same, only the offsets are those of the text.

An element can be written when its keyword and its bare words are words and its numbers are
legible. It can be read back when it is not nested more deeply than the reader allows. All elements
that the reader gives are such elements, as far as finite numbers are legible. So no accepted text
loses anything when it is written again.
-/

namespace CoordTransform

variable {α : Type} [Numeral α]

/-! ## Elements that can be written -/

/-- Numbers are legible and words are words; any text can stand in quotes. -/
def Literal.Writable : Literal α → Prop
  | .number x => Numeral.Legible x
  | .text _ => True
  | .word w => Text.isWord w.toList = true

/-- Keywords are words, and all literals can be written. -/
inductive Element.Writable : Element α → Prop where
  | node {keyword : String} {offset : Nat} {literals : List (Literal α)}
      {children : List (Element α)} : Text.isWord keyword.toList = true →
      (∀ l ∈ literals, l.Writable) → (∀ c ∈ children, c.Writable) →
      Writable (.node keyword offset literals children)

/-! ## The spelling of an element -/

/-- The token of a literal. -/
def Literal.spelling : Literal α → Element.Spelling
  | .number x => .number (Numeral.text x).toList
  | .text s => .quoted s.toList
  | .word w => .word w.toList

namespace Element

mutual

/-- The tokens of an element: its literals, then its children. -/
def spelling : Element α → Spelling
  | node keyword _ literals children =>
    .element keyword.toList (literals.map Literal.spelling ++ spellingAll children)

/-- The tokens of a list of elements. -/
def spellingAll : List (Element α) → List Spelling
  | [] => []
  | e :: es => spelling e :: spellingAll es

end

theorem spellingAll_eq_map (es : List (Element α)) : spellingAll es = es.map spelling := by
  induction es with
  | nil => rfl
  | cons e es ih => rw [spellingAll, ih, List.map_cons]

theorem renderAll_eq_map (es : List (Element α)) : renderAll es = es.map render := by
  induction es with
  | nil => rfl
  | cons e es ih => rw [renderAll, ih, List.map_cons]

/-! ## Items -/

/-- The items of an element: its literals, then its children. -/
def items (literals : List (Literal α)) (children : List (Element α)) : List (Item α) :=
  literals.map .inl ++ children.map .inr

omit [Numeral α] in
theorem ofItems_items (keyword : String) (offset : Nat) (literals : List (Literal α))
    (children : List (Element α)) :
    ofItems keyword offset (items literals children) = .node keyword offset literals children := by
  simp [ofItems, items, List.filterMap_append, List.filterMap_map, Function.comp_def]

/-- The token of a literal, or the tokens of an element. -/
def itemSpelling : Item α → Spelling
  | .inl l => l.spelling
  | .inr e => e.spelling

/-- The text of an item. -/
def itemText : Item α → List Char
  | .inl l => l.render.toList
  | .inr e => e.render.toList

/-- The texts of items with a comma and a space between them. -/
def itemsText (its : List (Item α)) : List Char := [',', ' '].intercalate (its.map itemText)

theorem itemsText_cons_cons (item item₂ : Item α) (its : List (Item α)) :
    itemsText (item :: item₂ :: its) =
      itemText item ++ [] ++ [','] ++ [' '] ++ itemsText (item₂ :: its) := by
  rw [itemsText, List.map_cons, List.map_cons, List.intercalate_cons_cons, List.append_nil,
    List.append_assoc (itemText item) [',']]
  rfl

theorem spelling_node (keyword : String) (offset : Nat) (literals : List (Literal α))
    (children : List (Element α)) :
    spelling (.node keyword offset literals children) =
      .element keyword.toList ((items literals children).map itemSpelling) := by
  rw [spelling, spellingAll_eq_map, items, List.map_append, List.map_map, List.map_map]
  rfl

theorem toList_render (keyword : String) (offset : Nat) (literals : List (Literal α))
    (children : List (Element α)) :
    (render (.node keyword offset literals children)).toList =
      keyword.toList ++ ['['] ++ itemsText (items literals children) ++ [']'] := by
  rw [render, renderAll_eq_map]
  -- Literals and children are one list of items, and each item has its own text.
  have hliterals : (literals.map Sum.inl).map itemText =
      (literals.map Literal.render).map String.toList := by
    rw [List.map_map, List.map_map]
    rfl
  have hchildren : (children.map Sum.inr).map itemText =
      (children.map render).map String.toList := by
    rw [List.map_map, List.map_map]
    rfl
  rw [itemsText, items, List.map_append, hliterals, hchildren, ← List.map_append]
  simp only [String.toList_append, String.toList_intercalate]
  rfl

/-! ## The text is a layout of the spelling -/

theorem layout_literal (l : Literal α) : l.spelling.Layout l.render.toList := by
  cases l with
  | number x => exact .number _
  | text s =>
    rw [toList_render_text]
    exact .quoted _
  | word w => exact .word _

theorem layoutAll_itemsText {item : Item α} {its : List (Item α)}
    (h : ∀ i ∈ item :: its, (itemSpelling i).Layout (itemText i)) :
    Spelling.LayoutAll ((item :: its).map itemSpelling) (itemsText (item :: its)) := by
  induction its generalizing item with
  | nil =>
    rw [itemsText, List.map_singleton, List.map_singleton, List.intercalate_singleton]
    exact .last (h item List.mem_cons_self)
  | cons item₂ its ih =>
    rw [itemsText_cons_cons]
    exact .cons (h item List.mem_cons_self) blanks_nil (blanks_singleton (by decide))
      (ih fun i hi => h i (List.mem_cons_of_mem _ hi))

theorem layout_render (e : Element α) : e.spelling.Layout e.render.toList := by
  induction e using Element.childInduction with
  | _ e ih =>
  obtain ⟨keyword, offset, literals, children⟩ := e
  have hits : ∀ item ∈ items literals children, (itemSpelling item).Layout (itemText item) := by
    intro item hitem
    rcases List.mem_append.1 hitem with hitem | hitem
    · obtain ⟨l, -, rfl⟩ := List.mem_map.1 hitem
      exact layout_literal l
    · obtain ⟨c, hc, rfl⟩ := List.mem_map.1 hitem
      exact ih c hc
  rw [spelling_node, toList_render]
  cases hitems : items literals children with
  -- There are no items, and nothing stands between the brackets.
  | nil =>
    have h : Spelling.Layout (.element keyword.toList [])
        (keyword.toList ++ [] ++ ['['] ++ [] ++ [']']) := .empty blanks_nil rfl blanks_nil
    rw [List.append_nil, List.append_nil] at h
    rw [itemsText, List.map_nil, List.map_nil, List.intercalate_nil, List.append_nil]
    exact h
  | cons item its =>
    -- Every comma stands between two items, and there are no blanks.
    rw [hitems] at hits
    have h : Spelling.Layout (.element keyword.toList ((item :: its).map itemSpelling))
        (keyword.toList ++ [] ++ ['['] ++ [] ++ itemsText (item :: its) ++ [] ++ [']']) :=
      .element blanks_nil rfl blanks_nil (layoutAll_itemsText hits) blanks_nil
    rw [List.append_nil, List.append_nil, List.append_nil] at h
    exact h

theorem isText_render (e : Element α) : e.spelling.IsText e.render :=
  ⟨[], _, [], blanks_nil, e.layout_render, blanks_nil, (List.append_nil _).symm⟩

/-! ## The spelling denotes the element -/

theorem denotes_literal {l : Literal α} (hl : l.Writable) : l.spelling.Denotes (.inl l) := by
  cases l with
  | number x => exact .number (Numeral.Legible.isNumberToken hl) hl.reads hl.finite
  | text s =>
    have h := Spelling.Denotes.quoted (α := α) s.toList
    rw [String.ofList_toList] at h
    exact h
  | word w =>
    have h := Spelling.Denotes.word (α := α) hl
    rw [String.ofList_toList] at h
    exact h

theorem denotes_spelling (e : Element α) : e.Writable → e.spelling.Denotes (.inr e) := by
  induction e using Element.childInduction with
  | _ e ih =>
  intro he
  cases he with
  | @node keyword offset literals children hword hliterals hchildren =>
  have hits : List.Forall₂ Spelling.Denotes ((items literals children).map itemSpelling)
      (items literals children) := by
    -- Items are literals in front of children. The hypothesis of the induction is about children.
    refine List.forall₂_map_left_iff.2 (List.forall₂_same.2 fun item hitem => ?_)
    rcases List.mem_append.1 hitem with hitem | hitem
    · obtain ⟨l, hl, rfl⟩ := List.mem_map.1 hitem
      exact denotes_literal (hliterals l hl)
    · obtain ⟨c, hc, rfl⟩ := List.mem_map.1 hitem
      exact ih c hc (hchildren c hc)
  have h := Spelling.Denotes.element offset hword hits
  rw [ofItems_items, String.ofList_toList] at h
  rw [spelling_node]
  exact h

/-- The text of an element that can be written reads as a similar element. -/
theorem parse_render {e : Element α} (he : e.Writable) (hdepth : e.depth ≤ largestDepth) :
    ∃ e', Element.parse e.render = .ok e' ∧ e.Similar e' :=
  parse_of_isText (e.denotes_spelling he) e.isText_render hdepth

/-- Offsets are not written. -/
theorem Similar.render_eq (e : Element α) : ∀ {e'}, e.Similar e' → e.render = e'.render := by
  induction e using Element.childInduction with
  | _ e ih =>
  intro e' h
  cases h with
  | node hchildren =>
    rw [render, render, renderAll_eq_map, renderAll_eq_map, map_eq_of_similar hchildren ih]

end Element

/-! ## Elements that are read -/

/-- Numbers are finite and words are words. -/
def Literal.Printable : Literal α → Prop
  | .number x => Scalar.isFinite x = true
  | .text _ => True
  | .word w => Text.isWord w.toList = true

namespace Element

/-- Keywords are words, and all literals are printable. -/
inductive Printable : Element α → Prop where
  | node {keyword : String} {offset : Nat} {literals : List (Literal α)}
      {children : List (Element α)} : Text.isWord keyword.toList = true →
      (∀ l ∈ literals, l.Printable) → (∀ c ∈ children, c.Printable) →
      Printable (.node keyword offset literals children)

/-- The number is a literal of the element or of an element inside it. -/
inductive Mentions (x : α) : Element α → Prop where
  | literal {keyword : String} {offset : Nat} {literals : List (Literal α)}
      {children : List (Element α)} : .number x ∈ literals →
      Mentions x (.node keyword offset literals children)
  | child {keyword : String} {offset : Nat} {literals : List (Literal α)}
      {children : List (Element α)} {c : Element α} : c ∈ children → Mentions x c →
      Mentions x (.node keyword offset literals children)

/-- Printable elements can be written, as far as their numbers are legible. -/
theorem writable_of_printable {e : Element α} (he : e.Printable) :
    (∀ x, Mentions x e → Scalar.isFinite x = true → Numeral.Legible x) → e.Writable := by
  induction he with
  | @node keyword offset literals children hword hliterals hchildren ih =>
  intro hlegible
  refine .node hword (fun l hl => ?_) fun c hc => ih c hc fun x hx => hlegible x (.child hc hx)
  have hprintable := hliterals l hl
  cases l with
  | number x => exact hlegible x (.literal hl) hprintable
  | text s => exact trivial
  | word w => exact hprintable

theorem exists_denotes_of_mem {items : List Spelling} {its : List (Item α)}
    (h : List.Forall₂ Spelling.Denotes items its) :
    ∀ item ∈ its, ∃ s : Spelling, s.Denotes item := by
  induction h with
  | nil => exact fun _ h => nomatch h
  | cons hs _ ih => exact List.forall_mem_cons.2 ⟨⟨_, hs⟩, ih⟩

theorem printable_of_denotes (e : Element α) :
    ∀ {s : Spelling}, s.Denotes (.inr e) → e.Printable := by
  induction e using Element.childInduction with
  | _ e ih =>
  intro s hs
  cases hs with
  | @element keyword items its offset hword hits =>
  have hdenotes := exists_denotes_of_mem hits
  refine .node (by rwa [String.toList_ofList]) (fun l hl => ?_) fun c hc => ?_
  · -- A literal of the element is one of the items, and its spelling says what it denotes.
    obtain ⟨item, hitem, hleft⟩ := List.mem_filterMap.1 hl
    obtain rfl : item = .inl l := by simpa using hleft
    obtain ⟨s, hs⟩ := hdenotes _ hitem
    cases hs with
    | quoted value => exact trivial
    | number _ _ hfinite => exact hfinite
    | word hletters =>
      change Text.isWord (String.toList _) = true
      rwa [String.toList_ofList]
  · obtain ⟨item, hitem, hright⟩ := List.mem_filterMap.1 hc
    -- A child of the element is one of the items too.
    obtain rfl : item = .inr c := by simpa using hright
    obtain ⟨s, hs⟩ := hdenotes _ hitem
    exact ih c hc hs

/-- Printable elements are read back from their texts, and every element that is read is printable
and not too deep. So what is read from a text is read again from the text that is written for it,
which is then written the same. Numbers must be legible, as far as they are finite and occur. -/
theorem render_round_trip :
    (∀ e : Element α, e.Printable → e.depth ≤ largestDepth →
      (∀ x, Mentions x e → Scalar.isFinite x = true → Numeral.Legible x) →
      ∃ e', Element.parse e.render = .ok e' ∧ e.Similar e') ∧
    ∀ (text : String) (e : Element α), Element.parse text = .ok e →
      e.Printable ∧ e.depth ≤ largestDepth ∧
      ((∀ x, Mentions x e → Scalar.isFinite x = true → Numeral.Legible x) →
        ∃ e', Element.parse e.render = .ok e' ∧ e.Similar e' ∧ e'.render = e.render) := by
  have hback : ∀ e : Element α, e.Printable → e.depth ≤ largestDepth →
      (∀ x, Mentions x e → Scalar.isFinite x = true → Numeral.Legible x) →
      ∃ e', Element.parse e.render = .ok e' ∧ e.Similar e' :=
    fun e he hdepth hlegible => parse_render (writable_of_printable he hlegible) hdepth
  refine ⟨hback, fun text e h => ?_⟩
  -- What is read has a spelling, and what is denoted by a spelling is printable.
  obtain ⟨hdepth, s, hs, -⟩ := isText_of_parse h
  have hprintable := e.printable_of_denotes hs
  refine ⟨hprintable, hdepth, fun hlegible => ?_⟩
  obtain ⟨e', h', hsimilar⟩ := hback e hprintable hdepth hlegible
  exact ⟨e', h', hsimilar, (Similar.render_eq e hsimilar).symm⟩

/-- A keyword with an underscore, a text with quotes at both ends, a bracket and a line break, and
a negative zero. -/
def signedElement : Element Float :=
  .node "A_1" 7 [.number (-0), .text "\"x]\n\"", .word "b"] [.node "B" 0 [.number 0.5] []]

theorem render_round_trip_signed :
    ∃ e', Element.parse signedElement.render = .ok e' ∧ signedElement.Similar e' := by
  have hzero : Numeral.Legible (-0 : Float) :=
    ⟨rfl, ⟨['-'], ['0'], rfl, .inr rfl, by decide, List.forall_mem_singleton.2 rfl⟩, rfl⟩
  have hhalf : Numeral.Legible (0.5 : Float) :=
    ⟨rfl, ⟨[], ['0', '.', '5'], rfl, .inl rfl, by decide, List.all_eq_true.1 rfl⟩, rfl⟩
  have hlegible : ∀ x, Mentions x signedElement → Numeral.Legible x := by
    -- The numbers of this element are the two above, in the element and in its child.
    rintro x (hx | ⟨hc, hx⟩)
    · obtain rfl : x = -0 := by simpa using hx
      exact hzero
    · obtain rfl := List.mem_singleton.1 hc
      obtain hx | ⟨hc, -⟩ := hx
      · obtain rfl : x = 0.5 := by simpa using hx
        exact hhalf
      · cases hc
  refine render_round_trip.1 signedElement ?_ (by decide) fun x hx _ => hlegible x hx
  refine .node (by decide) ?_ (List.forall_mem_singleton.2 (.node (by decide)
    (List.forall_mem_singleton.2 rfl) (List.forall_mem_nil _)))
  simp only [List.forall_mem_cons]
  exact ⟨rfl, trivial, rfl, List.forall_mem_nil _⟩

end Element

end CoordTransform
