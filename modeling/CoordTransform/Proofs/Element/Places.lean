import CoordTransform.Proofs.Element.Brackets
import CoordTransform.Proofs.Element.Locality

/-!
# Where the Elements of a Text Stand

Every element carries the place of its keyword. The places increase from each element to its
children and from each child to the next one, and at its place an element stands in the text up to
the bracket that closes it. That piece of the text, read alone, is the element again.
-/

namespace CoordTransform.Element

variable {α : Type}

/-! ## All elements of a tree -/

mutual

/-- An element and all elements inside of it, each in front of its children. -/
def preorder : Element α → List (Element α)
  | node keyword offset literals children =>
    node keyword offset literals children :: preorderAll children

/-- Several elements and all elements inside of them. -/
def preorderAll : List (Element α) → List (Element α)
  | [] => []
  | e :: es => preorder e ++ preorderAll es

end

/-- The elements inside of an item; a literal has none. -/
def elementsOf : Item α → List (Element α)
  | .inl _ => []
  | .inr e => e.preorder

theorem preorder_ofItems (keyword : String) (offset : Nat) (its : List (Item α)) :
    (ofItems keyword offset its).preorder =
      ofItems keyword offset its :: its.flatMap elementsOf := by
  have hchildren : preorderAll (its.filterMap Sum.getRight?) = its.flatMap elementsOf := by
    induction its with
    | nil => rfl
    | cons item its ih =>
      cases item <;> simp [List.filterMap_cons, elementsOf, preorderAll, ih]
  rw [ofItems, preorder, hchildren]

/-! ## Elements between two cursors -/

variable [Numeral α] {n : Nat} {c c₁ c₂ c' : Cursor} {cs ds : List Char} {e x : Element α}

/-- Somewhere between the cursors, the element is read. -/
def Found (c : Cursor) (x : Element α) (c' : Cursor) : Prop :=
  ∃ (front back : List Char) (n : Nat) (start stop : Cursor), n ≤ largestDepth ∧
    c.Passes front start ∧ readElement n start = .ok (x, stop) ∧ stop.Passes back c'

/-- The elements stand between the cursors, each behind the start of the one before it. -/
structure InOrder (c : Cursor) (xs : List (Element α)) (c' : Cursor) : Prop where
  found : ∀ x ∈ xs, Found c x c'
  increasing : (xs.map Element.offset).Pairwise (· < ·)

/-- An element has the place where the reader started, and takes at least one character. -/
theorem offset_of_readElement (h : readElement n c = .ok (e, c')) :
    e.offset = c.offset ∧ c.offset < c'.offset := by
  obtain ⟨-, s, cs, hcs, hlayout, hdenotes⟩ := recognizes_of_readElement h
  obtain ⟨d, ds, rfl, -⟩ := hlayout.head hdenotes.started
  constructor
  · -- The place is what the reader of elements puts in, on every level.
    cases n with
    | zero => cases h
    | succ n =>
      rw [readElement] at h
      obtain ⟨⟨word, next⟩, -, h⟩ := bind_eq_ok.1 h
      dsimp only at h
      split at h
      · cases h
      split at h
      · obtain ⟨_, -, he⟩ := bind_eq_ok.1 h
        cases he
        rfl
      · cases h
  · -- At least the first character of the keyword is passed.
    rw [hcs.offset, List.length_cons]
    omega

theorem Found.offset_lt (h : Found c x c') : c.offset ≤ x.offset ∧ x.offset < c'.offset := by
  obtain ⟨front, back, n, start, stop, -, hfront, hread, hback⟩ := h
  obtain ⟨hoffset, hlt⟩ := offset_of_readElement hread
  have hstart := hfront.offset
  have hstop := hback.offset
  omega

/-- What is found between two cursors is found between two others around them. -/
theorem Found.widen (hcs : c.Passes cs c₁) (h : Found c₁ x c₂) (hds : c₂.Passes ds c') :
    Found c x c' := by
  obtain ⟨front, back, n, start, stop, hn, hfront, hread, hback⟩ := h
  exact ⟨cs ++ front, back ++ ds, n, start, stop, hn, hcs.append hfront, hread, hback.append hds⟩

theorem InOrder.widen {xs : List (Element α)} (hcs : c.Passes cs c₁) (h : InOrder c₁ xs c₂)
    (hds : c₂.Passes ds c') : InOrder c xs c' :=
  ⟨fun x hx => (h.found x hx).widen hcs hds, h.increasing⟩

theorem inOrder_nil (c c' : Cursor) : InOrder c ([] : List (Element α)) c' :=
  ⟨List.forall_mem_nil _, .nil⟩

theorem Cursor.passes_refl (c : Cursor) : c.Passes [] c := ⟨rfl, rfl⟩

/-- Elements in order in front of a cursor, and elements in order behind it. -/
theorem InOrder.append {xs ys : List (Element α)} (h : InOrder c xs c₁) (h' : InOrder c₁ ys c')
    (hcs : c.Passes cs c₁) (hds : c₁.Passes ds c') : InOrder c (xs ++ ys) c' := by
  refine ⟨List.forall_mem_append.2 ⟨(h.widen c.passes_refl hds).found,
    (h'.widen hcs c'.passes_refl).found⟩, ?_⟩
  rw [List.map_append, List.pairwise_append]
  refine ⟨h.increasing, h'.increasing, ?_⟩
  -- The cursor in the middle separates the places.
  simp only [List.forall_mem_map]
  intro x hx y hy
  exact (h.found x hx).offset_lt.2.trans_le (h'.found y hy).offset_lt.1

variable {child : Cursor → Reading (Element α × Cursor)} {close : Char}

/-- The elements of an item are those of the child that was read for it. -/
theorem inOrder_of_readItem
    (hchild : ∀ {c e c'}, child c = .ok (e, c') → InOrder c e.preorder c') {item : Item α}
    (h : readItem child close c = .ok (item, c')) : InOrder c (elementsOf item) c' := by
  cases readsItem_of_readItem h with
  | child _ _ he => exact hchild he
  | _ => exact inOrder_nil c c'

theorem inOrder_of_readItems
    (hrecognizes : ∀ {c e c'}, child c = .ok (e, c') → Recognizes n c (.inr e) c')
    (hchild : ∀ {c e c'}, child c = .ok (e, c') → InOrder c e.preorder c') {fuel : Nat}
    {its : List (Item α)} (h : readItems child close fuel c = .ok (its, c')) :
    InOrder c (its.flatMap elementsOf) c' := by
  induction fuel generalizing c its with
  | zero => cases h
  | succ fuel ih =>
    rw [readItems] at h
    obtain ⟨⟨item, next⟩, hitem, h⟩ := bind_eq_ok.1 h
    obtain ⟨left, -, hleft⟩ := c.passes_skipBlanks
    obtain ⟨-, s, cs, hcs, -, -⟩ := recognizes_of_readItem hrecognizes hitem
    obtain ⟨right, -, hright⟩ := next.passes_skipBlanks
    have hfirst := inOrder_of_readItem hchild hitem
    dsimp only at h
    split at h
    · cases h
    next d ds hrest =>
    -- Between the item and what follows it stand blanks and one separator.
    have hbehind := hright.append (Cursor.passes_one hrest)
    split at h
    · -- The elements of the first item stand in front of the comma, the others behind it.
      obtain ⟨⟨others, last⟩, hothers, hits⟩ := bind_eq_ok.1 h
      cases hits
      obtain ⟨-, _, _, _, _, -, -, -, -, hpasses⟩ := recognizes_of_readItems hrecognizes hothers
      exact (hfirst.widen hleft hbehind).append (ih hothers) ((hleft.append hcs).append hbehind)
        hpasses
    split at h
    · cases h
      simpa using hfirst.widen hleft hbehind
    · cases h

theorem inOrder_of_readBody
    (hrecognizes : ∀ {c e c'}, child c = .ok (e, c') → Recognizes n c (.inr e) c')
    (hchild : ∀ {c e c'}, child c = .ok (e, c') → InOrder c e.preorder c')
    {its : List (Item α)} (h : readBody child close c = .ok (its, c')) :
    InOrder c (its.flatMap elementsOf) c' := by
  obtain ⟨skipped, -, hskip⟩ := c.passes_skipBlanks
  unfold readBody at h
  dsimp only at h
  split at h
  · cases h
    exact inOrder_nil _ _
  · exact (inOrder_of_readItems hrecognizes hchild h).widen hskip c'.passes_refl

/-- The elements of what is read as an element stand in the text in order. -/
theorem inOrder_of_readElement (hn : n ≤ largestDepth) (h : readElement n c = .ok (e, c')) :
    InOrder c e.preorder c' := by
  induction n generalizing c c' e with
  | zero => cases h
  | succ n ih =>
    -- The element itself is found, with the whole of what was passed.
    have hself : Found c e c' :=
      ⟨[], [], n + 1, c, c', hn, c.passes_refl, h, c'.passes_refl⟩
    rw [readElement] at h
    obtain ⟨⟨word, next⟩, hword, h⟩ := bind_eq_ok.1 h
    obtain ⟨hisWord, hpasses⟩ := passes_of_readWord hword
    obtain ⟨before, -, hskip⟩ := next.passes_skipBlanks
    dsimp only at h
    split at h
    · cases h
    next bracket ds hrest =>
    split at h
    · obtain ⟨⟨its, last⟩, hbody, he⟩ := bind_eq_ok.1 h
      cases he
      have hfront := (hpasses.append hskip).append (Cursor.passes_one hrest)
      have hinside := inOrder_of_readBody recognizes_of_readElement
        (ih (Nat.le_of_succ_le hn)) hbody
      have hitems := hinside.widen hfront last.passes_refl
      rw [preorder_ofItems]
      refine ⟨List.forall_mem_cons.2 ⟨hself, hitems.found⟩, List.pairwise_cons.2 ⟨?_, ?_⟩⟩
      · -- All other elements stand behind the keyword.
        simp only [List.forall_mem_map]
        intro x hx
        have hplace := (hinside.found x hx).offset_lt.1
        rw [hfront.offset] at hplace
        simp only [List.length_append, List.length_singleton] at hplace
        change c.offset < x.offset
        omega
      · exact hitems.increasing
    · cases h

/-! ## An element and its piece of the text -/

/-- What is read as an element is, alone, a text of the same element. -/
theorem parse_of_readElement (hn : n ≤ largestDepth) (h : readElement n c = .ok (x, c'))
    (hpasses : c.Passes cs c') :
    Element.parse (String.ofList cs) = .ok (x.mapOffset (· - c.offset)) := by
  obtain ⟨hdepth, s, cs', hcs', hlayout, hdenotes⟩ := recognizes_of_readElement h
  obtain rfl : cs = cs' := List.append_cancel_right (hpasses.rest.symm.trans hcs'.rest)
  obtain ⟨e, last, hread, -⟩ := readsLayouts_readElement n hdenotes hdepth hlayout [] 0
  have hx : x = e.mapOffset (· + c.offset) := by
    -- In its text, the piece is read with the same result.
    have hwithin := readElement_within c.offset c'.rest (Nat.le_refl n) hread
    have hstart : (Cursor.mk (cs ++ []) 0).within c.offset c'.rest = c := by
      unfold Cursor.within
      rw [List.append_nil, ← hpasses.rest, Nat.zero_add]
    rw [hstart, h] at hwithin
    exact (Prod.mk.inj (Except.ok.inj hwithin)).1
  have hback : x.mapOffset (· - c.offset) = e := by
    rw [hx, mapOffset_mapOffset]
    simp only [Nat.add_sub_cancel]
    exact e.mapOffset_self
  have halone : readElement largestDepth ⟨cs, 0⟩ = .ok (e, ⟨[], last⟩) := by
    have hwithin := readElement_within 0 [] hn hread
    simp only [Cursor.within, List.append_nil, Nat.add_zero] at hwithin
    rw [hwithin, mapOffset_self]
  obtain ⟨d, ds, rfl, hblank, -⟩ := hlayout.head hdenotes.started
  have hskip : Cursor.skipBlanks ⟨d :: ds, 0⟩ = ⟨d :: ds, 0⟩ :=
    Cursor.skipBlanks_cons blanks_nil hblank ds 0
  have hend : Cursor.skipBlanks ⟨[], last⟩ = ⟨[], last⟩ :=
    Cursor.skipBlanks_append blanks_nil [] (by simp) last
  unfold Element.parse
  rw [String.toList_ofList, hskip, halone, hback]
  dsimp only
  rw [hend]
  rfl

/-- An element ends with the bracket that closes the one behind its keyword. -/
theorem closingBracket_of_readElement (h : readElement n c = .ok (x, c')) :
    (∃ before bracket rest, c.rest = x.keyword.toList ++ before ++ bracket :: rest ∧
      Blanks before ∧ isOpen bracket = true) ∧
    ∃ cs, c.Passes cs c' ∧ closingBracket c.rest = some cs.length := by
  obtain ⟨-, s, cs, hcs, hlayout, hdenotes⟩ := recognizes_of_readElement h
  -- It is a keyword, a bracket, what stands inside, and the bracket of the same kind.
  obtain ⟨before, bracket, inside, hshape, hword, hbefore, hopen, hinside⟩ :
      ∃ before bracket inside, cs = x.keyword.toList ++ before ++ [bracket] ++ inside ++
        [closeOf bracket] ∧ Text.isWord x.keyword.toList = true ∧ Blanks before ∧
        isOpen bracket = true ∧ Neutral inside := by
    cases hdenotes with
    | @element keyword items its place hword hits =>
    have hkeyword : (ofItems (String.ofList keyword) place its).keyword.toList = keyword :=
      String.toList_ofList
    rw [hkeyword]
    cases hlayout with
    | empty hbefore hopen hinside => exact ⟨_, _, _, rfl, hword, hbefore, hopen, hinside.neutral⟩
    | @element _ _ left middle right _ _ hbefore hopen hleft hmiddle hright =>
      refine ⟨_, _, left ++ middle ++ right, ?_, hword, hbefore, hopen,
        (hleft.neutral.append (hmiddle.neutral hits)).append hright.neutral⟩
      simp only [List.append_assoc]
  have hrest : c.rest = x.keyword.toList ++ before ++
      (bracket :: (inside ++ closeOf bracket :: c'.rest)) := by
    rw [hcs.rest, hshape]
    simp
  refine ⟨⟨before, bracket, _, hrest, hbefore, hopen⟩, cs, hcs, ?_⟩
  have hplain : ∀ d ∈ x.keyword.toList ++ before, isPlain d = true :=
    List.forall_mem_append.2 ⟨isPlain_of_isWord hword,
      fun d hd => isPlain_of_isBlank (hbefore d hd)⟩
  rw [closingBracket, hrest, closing_plain hplain, closing_bracketed hopen hinside, hshape]
  simp
  omega

/-- In an accepted text, the places of all elements increase from each element to its children and
from each child to the next one. At its place stands the keyword of an element, then blanks and an
opening bracket, and the piece of the text up to the bracket that closes this one is accepted alone:
it gives the element, with its places counted from its own. -/
theorem parse_places {text : String} {e : Element α} (h : Element.parse text = .ok e) :
    (e.preorder.map Element.offset).Pairwise (· < ·) ∧
    ∀ x ∈ e.preorder,
      (∃ before bracket rest,
        text.toList.drop x.offset = x.keyword.toList ++ before ++ bracket :: rest ∧
          Blanks before ∧ isOpen bracket = true) ∧
      ∃ length, closingBracket (text.toList.drop x.offset) = some length ∧
        Element.parse (String.ofList ((text.toList.drop x.offset).take length)) =
          .ok (x.mapOffset (· - x.offset)) := by
  unfold Element.parse at h
  split at h
  · cases h
  next e' last hread =>
  dsimp only at h
  split at h
  · cases h
    have hinOrder := inOrder_of_readElement (Nat.le_refl _) hread
    refine ⟨hinOrder.increasing, fun x hx => ?_⟩
    obtain ⟨before, -, hskip⟩ := (Cursor.mk text.toList 0).passes_skipBlanks
    obtain ⟨front, back, n, start, stop, hn, hfront, hx, -⟩ := hinOrder.found x hx
    -- Dropping as many characters as stand in front of the element leads to its cursor.
    have hall := hskip.append hfront
    have hoffset : x.offset = start.offset := (offset_of_readElement hx).1
    have hdrop : text.toList.drop x.offset = start.rest := by
      rw [hoffset, hall.offset, Nat.zero_add]
      exact (congrArg _ hall.rest).trans List.drop_left
    obtain ⟨hkeyword, cs, hcs, hclosing⟩ := closingBracket_of_readElement hx
    rw [hdrop]
    refine ⟨hkeyword, cs.length, hclosing, ?_⟩
    rw [hcs.rest, List.take_left, hoffset]
    exact parse_of_readElement hn hx hcs
  · cases h

/-- The child stands behind a text with an accent and a bracket inside of its quotes. -/
theorem parse_places_accent :
    closingBracket "B(c ), 1]".toList = some 5 ∧
      Element.parse (α := Float) "B(c )" = .ok (.node "B" 0 [.word "c"] []) := by
  have htext : Element.parse (α := Float) "A[\"é]\", B(c ), 1]" =
      .ok (.node "A" 0 [.text "é]", .number 1] [.node "B" 8 [.word "c"] []]) := rfl
  have hclosing : closingBracket "B(c ), 1]".toList = some 5 := by decide
  obtain ⟨-, hpieces⟩ := parse_places htext
  obtain ⟨-, length, hlength, hpiece⟩ := hpieces (.node "B" 8 [.word "c"] [])
    (by simp [preorder, preorderAll])
  obtain rfl : 5 = length := Option.some.inj (hclosing.symm.trans hlength)
  exact ⟨hclosing, hpiece⟩

end CoordTransform.Element
