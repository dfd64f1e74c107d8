import CoordTransform.Proofs.Element.Recognition

/-!
# The Text in Front of a Fault

A fault is reported at a place up to which the text is in order: what stands in front of the place
is the beginning of some layout. The reader stops at the first fault, so everything it has passed is
made of whole items, and the place of a fault is the end of one of them or the start of the next
one. From there a word and the closing brackets complete the element.
-/

namespace CoordTransform.Element

variable {α : Type} [Numeral α]

/-! ## Beginnings -/

/-- Something can be put behind the characters so that they become a layout of an item of bounded
depth. -/
def BeginsItem (α : Type) [Numeral α] (n : Nat) (cs : List Char) : Prop :=
  ∃ (suffix : List Char) (s : Spelling) (item : Item α),
    s.Layout (cs ++ suffix) ∧ s.Denotes item ∧ itemDepth item ≤ n

/-- The same for elements alone. -/
def BeginsElement (α : Type) [Numeral α] (n : Nat) (cs : List Char) : Prop :=
  ∃ (suffix : List Char) (s : Spelling) (e : Element α),
    s.Layout (cs ++ suffix) ∧ s.Denotes (.inr e) ∧ e.depth ≤ n

/-- The same for the items between two brackets. -/
def BeginsItems (α : Type) [Numeral α] (n : Nat) (cs : List Char) : Prop :=
  ∃ (suffix : List Char) (items : List Spelling) (its : List (Item α))
    (left middle right : List Char), cs ++ suffix = left ++ middle ++ right ∧ Blanks left ∧
      Spelling.LayoutAll items middle ∧ Blanks right ∧ List.Forall₂ Spelling.Denotes items its ∧
      ∀ item ∈ its, itemDepth item ≤ n

variable {n : Nat} {cs : List Char}

/-- A word is an item of its own. -/
theorem beginsItem_nil : BeginsItem α n [] :=
  ⟨['x'], .word ['x'], _, .word _, .word (by decide), Nat.zero_le n⟩

theorem BeginsElement.item (h : BeginsElement α n cs) : BeginsItem α n cs := by
  obtain ⟨suffix, s, e, hlayout, hdenotes, hdepth⟩ := h
  exact ⟨suffix, s, .inr e, hlayout, hdenotes, hdepth⟩

/-- The beginning of an item begins a list with that item alone. -/
theorem BeginsItem.items {left : List Char} (hleft : Blanks left) (h : BeginsItem α n cs) :
    BeginsItems α n (left ++ cs) := by
  obtain ⟨suffix, s, item, hlayout, hdenotes, hdepth⟩ := h
  refine ⟨suffix, [s], [item], left, cs ++ suffix, [], ?_, hleft, .last hlayout, blanks_nil,
    .cons hdenotes .nil, List.forall_mem_singleton.2 hdepth⟩
  simp

/-- Nothing at all, or only blanks, begin a list of items. -/
theorem beginsItems_blanks {left : List Char} (hleft : Blanks left) : BeginsItems α n left := by
  simpa using (beginsItem_nil (α := α) (n := n)).items hleft

/-- A whole item with blanks around it begins a list of items. -/
theorem beginsItems_item {left right : List Char} {s : Spelling} {item : Item α}
    (hleft : Blanks left) (hlayout : s.Layout cs) (hright : Blanks right)
    (hdenotes : s.Denotes item) (hdepth : itemDepth item ≤ n) :
    BeginsItems α n (left ++ cs ++ right) :=
  ⟨[], [s], [item], left, cs, right, by simp, hleft, .last hlayout, hright,
    .cons hdenotes .nil, List.forall_mem_singleton.2 hdepth⟩

/-- A whole item and a comma in front of what begins a list of items begin a longer one. -/
theorem BeginsItems.cons {left right : List Char} {s : Spelling} {item : Item α} {cs' : List Char}
    (hleft : Blanks left) (hlayout : s.Layout cs) (hright : Blanks right)
    (hdenotes : s.Denotes item) (hdepth : itemDepth item ≤ n) (h : BeginsItems α n cs') :
    BeginsItems α n (left ++ cs ++ right ++ [','] ++ cs') := by
  obtain ⟨suffix, items, its, left', middle, right', hsplit, hleft', hmiddle, hright', hits,
    hdepths⟩ := h
  refine ⟨suffix, s :: items, item :: its, left, cs ++ right ++ [','] ++ left' ++ middle, right',
    ?_, hleft, .cons hlayout hright hleft' hmiddle, hright', .cons hdenotes hits,
    List.forall_mem_cons.2 ⟨hdepth, hdepths⟩⟩
  simp only [List.append_assoc, hsplit]

/-- A keyword, a bracket and the beginning of its items begin an element, which is one level
deeper. -/
theorem BeginsItems.element {keyword before : List Char} {bracket : Char}
    (hword : Text.isWord keyword = true) (hbefore : Blanks before) (hopen : isOpen bracket = true)
    (h : BeginsItems α n cs) :
    BeginsElement α (n + 1) (keyword ++ before ++ [bracket] ++ cs) := by
  obtain ⟨suffix, items, its, left, middle, right, hsplit, hleft, hmiddle, hright, hits,
    hdepths⟩ := h
  refine ⟨suffix ++ [closeOf bracket], .element keyword items, _, ?_, .element 0 hword hits,
    (depth_ofItems_le_iff (String.ofList keyword) 0).2 hdepths⟩
  have hlayout : (Spelling.element keyword items).Layout _ :=
    .element hbefore hopen hleft hmiddle hright
  simpa only [List.append_assoc, ← hsplit] using hlayout

/-! ## Faults -/

/-- The place is that many characters behind the cursor as the text in front of it has. -/
def Cursor.Reaches (c : Cursor) (cs : List Char) (place : Nat) : Prop :=
  cs <+: c.rest ∧ place = c.offset + cs.length

namespace Cursor

variable {c c' : Cursor} {ds : List Char} {place : Nat}

theorem reaches_nil (c : Cursor) : c.Reaches [] c.offset := ⟨List.nil_prefix, rfl⟩

/-- The cursor behind what was passed is a place of the text. -/
theorem Passes.reaches (h : c.Passes cs c') : c.Reaches cs c'.offset :=
  ⟨⟨c'.rest, h.rest.symm⟩, h.offset⟩

theorem Passes.reaches_append (h : c.Passes cs c') (h' : c'.Reaches ds place) :
    c.Reaches (cs ++ ds) place := by
  obtain ⟨⟨tail, htail⟩, rfl⟩ := h'
  refine ⟨⟨tail, ?_⟩, ?_⟩
  · rw [h.rest, ← htail, List.append_assoc]
  · rw [h.offset, List.length_append, Nat.add_assoc]

end Cursor

variable {child : Cursor → Reading (Element α × Cursor)} {close : Char} {c : Cursor}
  {place : Nat} {fault : SyntaxFault}

/-- Tokens are refused where they start. -/
theorem place_of_readWord (h : readWord c = .error (place, fault)) : place = c.offset := by
  unfold readWord at h
  split at h
  · cases h; rfl
  · split at h <;> cases h
    rfl

theorem place_of_readQuoted (h : readQuoted c = .error (place, fault)) : place = c.offset := by
  unfold readQuoted at h
  split at h <;> cases h
  rfl

theorem place_of_readNumber (h : readNumber (α := α) c = .error (place, fault)) :
    place = c.offset := by
  unfold readNumber at h
  dsimp only at h
  split at h
  · split at h <;> cases h
    rfl
  · cases h
    rfl

/-- A reader of elements stops at the start of an element or inside of one. -/
def StopsInside (n : Nat) (child : Cursor → Reading (Element α × Cursor)) : Prop :=
  ∀ {c place fault}, child c = .error (place, fault) →
    ∃ cs, c.Reaches cs place ∧ (cs = [] ∨ BeginsElement α n cs)

/-- An item is refused at its start, unless it is a child that is refused further on. -/
theorem beginsItem_of_readItem (hchild : StopsInside n child)
    (h : readItem child close c = .error (place, fault)) :
    ∃ cs, c.Reaches cs place ∧ BeginsItem α n cs := by
  -- All faults but those of children are reported at the start of the item.
  have hstart : place = c.offset → ∃ cs, c.Reaches cs place ∧ BeginsItem α n cs := by
    rintro rfl
    exact ⟨[], c.reaches_nil, beginsItem_nil⟩
  unfold readItem at h
  split at h
  · cases h
    exact hstart rfl
  split at h
  · obtain hquoted | ⟨_, _, h⟩ := bind_eq_error.1 h
    · exact hstart (place_of_readQuoted hquoted)
    · cases h
  split at h
  · obtain hnumber | ⟨_, _, h⟩ := bind_eq_error.1 h
    · exact hstart (place_of_readNumber hnumber)
    · cases h
  split at h
  · obtain hword | ⟨⟨word, next⟩, _, h⟩ := bind_eq_error.1 h
    · exact hstart (place_of_readWord hword)
    dsimp only at h
    split at h
    · obtain hfault | ⟨_, _, h⟩ := bind_eq_error.1 h
      · obtain ⟨cs, hcs, rfl | hbegins⟩ := hchild hfault
        · exact ⟨[], hcs, beginsItem_nil⟩
        · exact ⟨cs, hcs, hbegins.item⟩
      · cases h
    · cases h
  · cases h
    exact hstart rfl

/-- Among items, a fault is found in one of them or at the separator behind it. -/
theorem beginsItems_of_readItems (hchild : StopsInside n child)
    (hrecognizes : ∀ {c e c'}, child c = .ok (e, c') → Recognizes n c (.inr e) c') {fuel : Nat}
    (h : readItems child close fuel c = .error (place, fault)) :
    ∃ cs, c.Reaches cs place ∧ BeginsItems α n cs := by
  induction fuel generalizing c with
  | zero =>
    cases h
    exact ⟨[], c.reaches_nil, beginsItems_blanks blanks_nil⟩
  | succ fuel ih =>
    rw [readItems] at h
    obtain ⟨left, hleft, hskip⟩ := c.passes_skipBlanks
    obtain hitem | ⟨⟨item, next⟩, hitem, h⟩ := bind_eq_error.1 h
    · -- The item itself is refused.
      obtain ⟨cs, hcs, hbegins⟩ := beginsItem_of_readItem hchild hitem
      exact ⟨left ++ cs, hskip.reaches_append hcs, hbegins.items hleft⟩
    obtain ⟨hdepth, s, cs, hcs, hlayout, hdenotes⟩ := recognizes_of_readItem hrecognizes hitem
    obtain ⟨right, hright, hskip'⟩ := next.passes_skipBlanks
    have hfront := (hskip.append hcs).append hskip'
    dsimp only at h
    split at h
    · -- The text ends behind the item.
      cases h
      exact ⟨_, hfront.reaches, beginsItems_item hleft hlayout hright hdenotes hdepth⟩
    next d ds hrest =>
    split at h
    · next hcomma =>
      -- One of the items behind the comma is refused.
      obtain hothers | ⟨_, _, h⟩ := bind_eq_error.1 h
      · obtain ⟨cs', hcs', hbegins⟩ := ih hothers
        rw [eq_of_beq hcomma] at hrest
        exact ⟨_, (hfront.append (Cursor.passes_one hrest)).reaches_append hcs',
          hbegins.cons hleft hlayout hright hdenotes hdepth⟩
      · cases h
    split at h
    · cases h
    · -- Neither a comma nor the closing bracket stands behind the item.
      cases h
      exact ⟨_, hfront.reaches, beginsItems_item hleft hlayout hright hdenotes hdepth⟩

theorem beginsItems_of_readBody (hchild : StopsInside n child)
    (hrecognizes : ∀ {c e c'}, child c = .ok (e, c') → Recognizes n c (.inr e) c')
    (h : readBody child close c = .error (place, fault)) :
    ∃ cs, c.Reaches cs place ∧ BeginsItems α n cs := by
  obtain ⟨skipped, hskipped, hskip⟩ := c.passes_skipBlanks
  unfold readBody at h
  dsimp only at h
  split at h
  · -- A body without items has no fault.
    cases h
  · -- The blanks that were skipped are blanks in front of the first item.
    obtain ⟨cs, hcs, suffix, items, its, left, middle, right, hsplit, hleft, hrest⟩ :=
      beginsItems_of_readItems hchild hrecognizes h
    refine ⟨skipped ++ cs, hskip.reaches_append hcs, suffix, items, its, skipped ++ left, middle,
      right, ?_, hskipped.append hleft, hrest⟩
    simp only [List.append_assoc, hsplit]

/-- An element is refused at its start or behind its opening bracket. -/
theorem stopsInside_readElement (n : Nat) : StopsInside n (readElement n (α := α)) := by
  induction n with
  | zero =>
    intro c place fault h
    cases h
    exact ⟨[], c.reaches_nil, .inl rfl⟩
  | succ n ih =>
    intro c place fault h
    -- A missing keyword or bracket is reported where the element starts.
    have hstart : place = c.offset →
        ∃ cs, c.Reaches cs place ∧ (cs = [] ∨ BeginsElement α (n + 1) cs) := by
      rintro rfl
      exact ⟨[], c.reaches_nil, .inl rfl⟩
    rw [readElement] at h
    obtain hword | ⟨⟨word, next⟩, hword, h⟩ := bind_eq_error.1 h
    · exact hstart (place_of_readWord hword)
    obtain ⟨hisWord, hpasses⟩ := passes_of_readWord hword
    obtain ⟨before, hbefore, hskip⟩ := next.passes_skipBlanks
    dsimp only at h
    split at h
    · cases h
      exact hstart rfl
    next bracket ds hrest =>
    split at h
    · next hopen =>
      -- Behind the bracket the fault is one of the items.
      obtain hbody | ⟨_, _, h⟩ := bind_eq_error.1 h
      · obtain ⟨cs, hcs, hbegins⟩ := beginsItems_of_readBody ih recognizes_of_readElement hbody
        have hfront := (hpasses.append hskip).append (Cursor.passes_one hrest)
        exact ⟨_, hfront.reaches_append hcs, .inr (hbegins.element hisWord hbefore hopen)⟩
      · cases h
    · cases h
      exact hstart rfl

/-! ## Whole texts -/

/-- Some text that starts with the given characters is accepted. -/
def BeginsAccepted (α : Type) [Numeral α] (cs : List Char) : Prop :=
  ∃ (suffix : String) (e : Element α), Element.parse (String.ofList cs ++ suffix) = .ok e

/-- Layouts with blanks around them are accepted if they are not too deep. -/
theorem beginsAccepted_of_layout {before suffix after : List Char} (hbefore : Blanks before)
    (hafter : Blanks after) {s : Spelling} {e : Element α}
    (hlayout : s.Layout (cs ++ suffix)) (hdenotes : s.Denotes (.inr e))
    (hdepth : e.depth ≤ largestDepth) {front : List Char}
    (hfront : front <+: before ++ (cs ++ suffix) ++ after) : BeginsAccepted α front := by
  obtain ⟨tail, htail⟩ := hfront
  have htext : s.IsText (String.ofList front ++ String.ofList tail) :=
    ⟨before, cs ++ suffix, after, hbefore, hlayout, hafter, by simp [htail]⟩
  obtain ⟨e', he', -⟩ := parse_of_isText hdenotes htext hdepth
  exact ⟨String.ofList tail, e', he'⟩

/-- The place of a fault is in the text, and what stands in front of it begins an accepted text. -/
theorem beginsAccepted_of_parse {text : String} {error : ElementError α}
    (h : Element.parse text = .error error) : ∃ place fault,
      error = .badSyntax place fault ∧ place ≤ text.length ∧
        BeginsAccepted α (text.toList.take place) := by
  obtain ⟨before, hbefore, hskip⟩ := (Cursor.mk text.toList 0).passes_skipBlanks
  -- It is enough to find the characters in front of the place.
  have hreach : ∀ {front : List Char} {place : Nat}, (Cursor.mk text.toList 0).Reaches front place →
      BeginsAccepted α front →
        place ≤ text.length ∧ BeginsAccepted α (text.toList.take place) := by
    rintro front place ⟨hfront, rfl⟩ haccepted
    rw [Nat.zero_add, ← List.prefix_iff_eq_take.1 hfront, ← String.length_toList]
    exact ⟨hfront.length_le, haccepted⟩
  unfold Element.parse at h
  split at h
  · next place fault hread =>
    cases h
    refine ⟨place, fault, rfl, ?_⟩
    obtain ⟨cs, hcs, rfl | ⟨suffix, s, e, hlayout, hdenotes, hdepth⟩⟩ :=
      stopsInside_readElement largestDepth hread
    · -- No element starts here, so any element will do.
      have hempty : (Spelling.element ['x'] []).Layout ([] ++ ['x', '[', ']']) :=
        .empty blanks_nil (by simp [isOpen]) blanks_nil
      have hdenotes : (Spelling.element ['x'] []).Denotes (α := α) _ :=
        .element 0 (by decide) .nil
      refine hreach (hskip.reaches_append hcs) (beginsAccepted_of_layout hbefore blanks_nil hempty
        hdenotes (by simp [ofItems, depth, depthAll, largestDepth]) ?_)
      exact ⟨['x', '[', ']'], by simp⟩
    · refine hreach (hskip.reaches_append hcs) (beginsAccepted_of_layout hbefore blanks_nil
        hlayout hdenotes hdepth ?_)
      exact ⟨suffix, by simp⟩
  · next e last hread =>
    dsimp only at h
    split at h
    · cases h
    · -- The text goes on behind an element, which is accepted alone.
      cases h
      refine ⟨_, _, rfl, ?_⟩
      obtain ⟨hdepth, s, cs, hcs, hlayout, hdenotes⟩ := recognizes_of_readElement hread
      obtain ⟨after, hafter, hskip'⟩ := last.passes_skipBlanks
      have hwhole : s.Layout (cs ++ []) := by simpa using hlayout
      refine hreach ((hskip.append hcs).append hskip').reaches
        (beginsAccepted_of_layout hbefore hafter hwhole hdenotes hdepth ?_)
      simp

end CoordTransform.Element
