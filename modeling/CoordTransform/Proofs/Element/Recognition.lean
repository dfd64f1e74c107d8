import CoordTransform.Proofs.Computation
import CoordTransform.Proofs.Element.Grammar
import CoordTransform.Scalar.Double

/-!
# The Reader Accepts the Grammar

What the reader takes for an element is a layout of a spelling of it, and every layout of every
spelling is read in full, whatever follows. So a text is accepted exactly when the grammar has it,
and what is read depends on its spelling alone.
-/

namespace CoordTransform.Element

variable {α : Type}

/-! ## Depth of items -/

/-- The depth of an item; literals have none. -/
def itemDepth : Item α → Nat
  | .inl _ => 0
  | .inr e => e.depth

theorem depth_ofItems_le_iff (keyword : String) (offset : Nat) {n : Nat} {its : List (Item α)} :
    (ofItems keyword offset its).depth ≤ n + 1 ↔ ∀ item ∈ its, itemDepth item ≤ n := by
  rw [ofItems, Element.depth, Nat.add_le_add_iff_right, depthAll_le_iff]
  constructor
  · -- Only children have a depth, and they are the items on the right.
    intro h item hitem
    cases item with
    | inl l => exact Nat.zero_le n
    | inr e => exact h e (List.mem_filterMap.2 ⟨.inr e, hitem, rfl⟩)
  · intro h c hc
    obtain ⟨item, hitem, hright⟩ := List.mem_filterMap.1 hc
    cases item with
    | inl l => cases hright
    | inr e =>
      cases hright
      exact h _ hitem

variable [Numeral α]

/-! ## Whatever is read is in the grammar -/

/-- Between two cursors stands a layout of an item of bounded depth. -/
def Recognizes (n : Nat) (c : Cursor) (item : Item α) (c' : Cursor) : Prop :=
  itemDepth item ≤ n ∧ ∃ (s : Spelling) (cs : List Char),
    c.Passes cs c' ∧ s.Layout cs ∧ s.Denotes item

variable {child : Cursor → Reading (Element α × Cursor)} {close : Char} {n : Nat}
  {c c' : Cursor}

/-- How an item is read: a quotation mark or the start of a number tells its kind, and a word is the
keyword of a child exactly when a bracket follows it. -/
inductive ReadsItem (child : Cursor → Reading (Element α × Cursor)) (c : Cursor) :
    Item α → Cursor → Prop where
  | quoted {value rest : List Char} {next : Cursor} : c.rest = '"' :: rest →
      readQuoted c = .ok (value, next) → ReadsItem child c (.inl (.text (String.ofList value))) next
  | number {d : Char} {ds : List Char} {x : α} {next : Cursor} : c.rest = d :: ds →
      startsNumber d = true → readNumber c = .ok (x, next) →
      ReadsItem child c (.inl (.number x)) next
  | word {word : List Char} {next : Cursor} : readWord c = .ok (word, next) →
      (next.skipBlanks.rest.head?.map isOpen).getD false = false →
      ReadsItem child c (.inl (.word (String.ofList word))) next
  | child {word : List Char} {next last : Cursor} {e : Element α} :
      readWord c = .ok (word, next) →
      (next.skipBlanks.rest.head?.map isOpen).getD false = true → child c = .ok (e, last) →
      ReadsItem child c (.inr e) last

theorem readsItem_of_readItem {item : Item α} (h : readItem child close c = .ok (item, c')) :
    ReadsItem child c item c' := by
  -- The first character tells the kind of the item.
  unfold readItem at h
  split at h
  · cases h
  next d ds hrest =>
  split at h
  · next hquote =>
    obtain ⟨⟨value, next⟩, hvalue, hitem⟩ := bind_eq_ok.1 h
    cases hitem
    rw [eq_of_beq hquote] at hrest
    exact .quoted hrest hvalue
  split at h
  · next hstart =>
    obtain ⟨⟨x, next⟩, hx, hitem⟩ := bind_eq_ok.1 h
    cases hitem
    exact .number hrest hstart hx
  split at h
  · -- A word is read first, and the character behind the blanks that follow it decides.
    obtain ⟨⟨word, next⟩, hword, h⟩ := bind_eq_ok.1 h
    dsimp only at h
    split at h
    · next hopen =>
      obtain ⟨⟨e, last⟩, he, hitem⟩ := bind_eq_ok.1 h
      cases hitem
      exact .child hword hopen he
    · next hopen =>
      cases h
      exact .word hword (Bool.not_eq_true _ ▸ hopen)
  · cases h

theorem recognizes_of_readItem
    (hchild : ∀ {c e c'}, child c = .ok (e, c') → Recognizes n c (.inr e) c')
    {item : Item α} (h : readItem child close c = .ok (item, c')) : Recognizes n c item c' := by
  cases readsItem_of_readItem h with
  | @quoted value _ _ hrest hvalue =>
    exact ⟨Nat.zero_le n, .quoted value, _, passes_of_readQuoted hrest hvalue, .quoted value,
      .quoted value⟩
  | number hrest hstart hx =>
    obtain ⟨token, htoken, hread, hfinite, hpasses⟩ := passes_of_readNumber hrest hstart hx
    exact ⟨Nat.zero_le n, .number token, token, hpasses, .number token,
      .number htoken hread hfinite⟩
  | @word word _ hword =>
    obtain ⟨hisWord, hpasses⟩ := passes_of_readWord hword
    exact ⟨Nat.zero_le n, .word word, word, hpasses, .word word, .word hisWord⟩
  | child _ _ he => exact hchild he

/-- Items with commas between them, and blanks before the first one and behind the last one. -/
theorem recognizes_of_readItems
    (hchild : ∀ {c e c'}, child c = .ok (e, c') → Recognizes n c (.inr e) c')
    {fuel : Nat} {its : List (Item α)} (h : readItems child close fuel c = .ok (its, c')) :
    (∀ item ∈ its, itemDepth item ≤ n) ∧
      ∃ (items : List Spelling) (left middle right : List Char), Blanks left ∧ Blanks right ∧
        Spelling.LayoutAll items middle ∧ List.Forall₂ Spelling.Denotes items its ∧
        c.Passes (left ++ middle ++ right ++ [close]) c' := by
  induction fuel generalizing c c' its with
  | zero => cases h
  | succ fuel ih =>
    rw [readItems] at h
    obtain ⟨⟨item, next⟩, hitem, h⟩ := bind_eq_ok.1 h
    obtain ⟨hdepth, s, cs, hcs, hlayout, hdenotes⟩ := recognizes_of_readItem hchild hitem
    obtain ⟨left, hleft, hskip⟩ := c.passes_skipBlanks
    obtain ⟨right, hright, hskip'⟩ := next.passes_skipBlanks
    dsimp only at h
    split at h
    · cases h
    next d ds hrest =>
    split at h
    · next hcomma =>
      -- Behind a comma come the other items.
      obtain ⟨⟨others, last⟩, hothers, hits⟩ := bind_eq_ok.1 h
      cases hits
      rw [eq_of_beq hcomma] at hrest
      obtain ⟨hdepths, items, left', middle, right', hleft', hright', hlayouts, hdenoted,
        hpasses⟩ := ih hothers
      refine ⟨List.forall_mem_cons.2 ⟨hdepth, hdepths⟩, s :: items, left,
        cs ++ right ++ [','] ++ left' ++ middle, right', hleft, hright',
        .cons hlayout hright hleft' hlayouts, .cons hdenotes hdenoted, ?_⟩
      have hall := (((hskip.append hcs).append hskip').append
        (Cursor.passes_one hrest)).append hpasses
      simpa only [List.append_assoc] using hall
    split at h
    · next hclose =>
      -- The closing bracket ends the items.
      cases h
      rw [eq_of_beq hclose] at hrest
      exact ⟨List.forall_mem_singleton.2 hdepth, [s], left, cs, right, hleft, hright,
        .last hlayout, .cons hdenotes .nil,
        ((hskip.append hcs).append hskip').append (Cursor.passes_one hrest)⟩
    · cases h

/-- Nothing but blanks between the brackets, or items. -/
theorem recognizes_of_readBody
    (hchild : ∀ {c e c'}, child c = .ok (e, c') → Recognizes n c (.inr e) c')
    {its : List (Item α)} (h : readBody child close c = .ok (its, c')) :
    (∀ item ∈ its, itemDepth item ≤ n) ∧
      ((its = [] ∧ ∃ inside, Blanks inside ∧ c.Passes (inside ++ [close]) c') ∨
      ∃ (items : List Spelling) (left middle right : List Char), Blanks left ∧ Blanks right ∧
        Spelling.LayoutAll items middle ∧ List.Forall₂ Spelling.Denotes items its ∧
        c.Passes (left ++ middle ++ right ++ [close]) c') := by
  obtain ⟨skipped, hskipped, hskip⟩ := c.passes_skipBlanks
  unfold readBody at h
  dsimp only at h
  split at h
  · -- The closing bracket stands behind nothing but blanks.
    next hclose =>
    cases h
    obtain ⟨ds, hrest⟩ := List.head?_eq_some_iff.1 (eq_of_beq hclose)
    exact ⟨List.forall_mem_nil _,
      .inl ⟨rfl, skipped, hskipped, hskip.append (Cursor.passes_one hrest)⟩⟩
  · -- Blanks that were skipped once more belong to those in front of the first item.
    obtain ⟨hdepths, items, left, middle, right, hleft, hright, hlayouts, hdenoted, hpasses⟩ :=
      recognizes_of_readItems hchild h
    refine ⟨hdepths, .inr ⟨items, skipped ++ left, middle, right, hskipped.append hleft, hright,
      hlayouts, hdenoted, ?_⟩⟩
    simpa only [List.append_assoc] using hskip.append hpasses

/-- What is read as an element is in the grammar. -/
theorem recognizes_of_readElement {e : Element α} (h : readElement n c = .ok (e, c')) :
    Recognizes n c (.inr e) c' := by
  induction n generalizing c c' e with
  | zero => cases h
  -- The levels that are left are those of the children.
  | succ n ih =>
    rw [readElement] at h
    obtain ⟨⟨word, next⟩, hword, h⟩ := bind_eq_ok.1 h
    obtain ⟨hisWord, hpasses⟩ := passes_of_readWord hword
    obtain ⟨before, hbefore, hskip⟩ := next.passes_skipBlanks
    dsimp only at h
    split at h
    · cases h
    next bracket ds hrest =>
    split at h
    · next hopen =>
      obtain ⟨⟨its, last⟩, hbody, he⟩ := bind_eq_ok.1 h
      cases he
      have hfront := (hpasses.append hskip).append (Cursor.passes_one hrest)
      obtain ⟨hdepths, hinner⟩ := recognizes_of_readBody ih hbody
      refine ⟨(depth_ofItems_le_iff (String.ofList word) c.offset).2 hdepths, ?_⟩
      -- The layout of the element is its keyword, the bracket, and the layout of what is inside.
      obtain ⟨rfl, inside, hinside, hback⟩ | ⟨items, left, middle, right, hleft, hright,
        hlayouts, hdenoted, hback⟩ := hinner
      · refine ⟨.element word [], _, ?_, .empty hbefore hopen hinside, .element _ hisWord .nil⟩
        simpa only [List.append_assoc] using hfront.append hback
      · refine ⟨.element word items, _, ?_, .element hbefore hopen hleft hlayouts hright,
          .element _ hisWord hdenoted⟩
        simpa only [List.append_assoc] using hfront.append hback
    · cases h

/-! ## Whatever is in the grammar is read -/

namespace Spelling

/-- The first token is of its kind, as far as its first characters go. -/
def Started : Spelling → Prop
  | quoted _ => True
  | number token => ∃ d ds, token = d :: ds ∧ startsNumber d = true
  | word letters => Text.isWord letters = true
  | element keyword _ => Text.isWord keyword = true

theorem Denotes.started {s : Spelling} {item : Item α} (h : s.Denotes item) : s.Started := by
  cases h with
  | quoted value => exact trivial
  | number htoken _ _ => exact htoken.head
  | word hword => exact hword
  | element _ hword _ => exact hword

/-- The layout of an item starts with neither a blank nor a separator. -/
theorem Layout.head {s : Spelling} {cs : List Char} (h : s.Layout cs) (hs : s.Started) :
    ∃ d ds, cs = d :: ds ∧ Text.isBlank d = false ∧ isSeparator d = false := by
  -- A separator starts no token at all.
  have hnot : ∀ {d : Char}, (d == '"') = true ∨ startsNumber d = true ∨
      Text.startsWord d = true → isSeparator d = false := by
    intro d hd
    rw [← Bool.not_eq_true]
    intro hseparator
    obtain ⟨-, -, hquote, hnumber, hword, -⟩ := isSeparator_class hseparator
    rw [hquote, hnumber, hword] at hd
    simp at hd
  cases s with
  | quoted value =>
    cases h
    exact ⟨'"', _, rfl, by decide, by decide⟩
  | number token =>
    cases h
    obtain ⟨d, ds, rfl, hd⟩ := hs
    exact ⟨d, ds, rfl, (startsNumber_class hd).2, hnot (.inr (.inl hd))⟩
  | word letters =>
    cases h
    obtain ⟨d, ds, rfl, hd⟩ := head_of_isWord hs
    exact ⟨d, ds, rfl, (startsWord_class hd).2.2, hnot (.inr (.inr hd))⟩
  | element keyword items =>
    obtain ⟨d, ds, rfl, hd⟩ := head_of_isWord hs
    cases h with
    | empty =>
      exact ⟨d, _, rfl, (startsWord_class hd).2.2, hnot (.inr (.inr hd))⟩
    | element =>
      exact ⟨d, _, rfl, (startsWord_class hd).2.2, hnot (.inr (.inr hd))⟩

theorem started_of_denotes {items : List Spelling} {its : List (Item α)}
    (hits : List.Forall₂ Denotes items its) : ∀ s ∈ items, s.Started := by
  induction hits with
  | nil => exact List.forall_mem_nil _
  | cons hs _ ih => exact List.forall_mem_cons.2 ⟨hs.started, ih⟩

theorem LayoutAll.head {items : List Spelling} {cs : List Char} (h : LayoutAll items cs)
    (hitems : ∀ s ∈ items, s.Started) :
    ∃ d ds, cs = d :: ds ∧ Text.isBlank d = false ∧ isSeparator d = false := by
  cases h with
  | last hlayout => exact hlayout.head (hitems _ List.mem_cons_self)
  | cons hlayout =>
    obtain ⟨d, ds, rfl, hd⟩ := hlayout.head (hitems _ List.mem_cons_self)
    exact ⟨d, _, rfl, hd⟩

/-- Every item takes at least one character. -/
theorem LayoutAll.length_le {items : List Spelling} {cs : List Char} (h : LayoutAll items cs)
    (hitems : ∀ s ∈ items, s.Started) : items.length ≤ cs.length := by
  induction items generalizing cs with
  | nil => exact Nat.zero_le _
  | cons s items ih =>
    obtain ⟨d, ds, hcs, -⟩ := h.head hitems
    -- The last item takes its first character, and every other one its comma, too.
    cases h with
    | last _ =>
      rw [hcs]
      simp
    | cons _ _ _ hrest =>
      have := ih hrest fun s' hs' => hitems s' (List.mem_cons_of_mem s hs')
      simp only [List.length_append, List.length_cons, List.length_nil]
      omega

/-- Items start where the blanks in front of them end. -/
theorem LayoutAll.skipBlanks {items : List Spelling} {cs left : List Char}
    (h : LayoutAll items cs) (hitems : ∀ s ∈ items, s.Started) (hleft : Blanks left)
    (rest : List Char) (offset : Nat) : Cursor.skipBlanks ⟨left ++ (cs ++ rest), offset⟩ =
      ⟨cs ++ rest, offset + left.length⟩ := by
  obtain ⟨d, ds, rfl, hblank, -⟩ := h.head hitems
  exact Cursor.skipBlanks_cons hleft hblank (ds ++ rest) offset

/-- An element starts with its keyword and an opening bracket. -/
theorem Layout.opens {keyword : List Char} {items : List Spelling} {cs : List Char}
    (h : (Spelling.element keyword items).Layout cs) :
    ∃ before bracket rest, cs = keyword ++ (before ++ bracket :: rest) ∧ Blanks before ∧
      isOpen bracket = true := by
  cases h with
  | empty hbefore hopen =>
    exact ⟨_, _, _, by simp only [List.append_assoc, List.singleton_append]; rfl, hbefore, hopen⟩
  | element hbefore hopen =>
    exact ⟨_, _, _, by simp only [List.append_assoc, List.singleton_append]; rfl, hbefore, hopen⟩

end Spelling

theorem isOpen_class {bracket : Char} (h : isOpen bracket = true) :
    Text.isBlank bracket = false ∧ Text.continuesWord bracket = false ∧
      isSeparator (closeOf bracket) = true ∧ (closeOf bracket == ',') = false := by
  rw [isOpen, Bool.or_eq_true, beq_iff_eq, beq_iff_eq] at h
  rcases h with rfl | rfl <;> decide

/-- A keyword is read up to the blanks in front of its bracket. -/
theorem readWord_keyword {keyword before : List Char} {bracket : Char}
    (hword : Text.isWord keyword = true) (hbefore : Blanks before) (hopen : isOpen bracket = true)
    (rest : List Char) (offset : Nat) :
    readWord ⟨keyword ++ (before ++ bracket :: rest), offset⟩ =
      .ok (keyword, ⟨before ++ bracket :: rest, offset + keyword.length⟩) :=
  readWord_append hword
    (head_blanks_append toNat_of_continuesWord hbefore (isOpen_class hopen).2.1 rest) offset

/-- An item that starts with a word is a child if a bracket follows the word, and else the word. -/
theorem readItem_of_isWord {w rest : List Char} {offset : Nat} {next : Cursor}
    (hword : Text.isWord w = true) (hread : readWord ⟨w ++ rest, offset⟩ = .ok (w, next)) :
    readItem child close ⟨w ++ rest, offset⟩ =
      if (next.skipBlanks.rest.head?.map isOpen).getD false = true then
        child ⟨w ++ rest, offset⟩ >>= fun r => .ok (.inr r.1, r.2)
      else .ok (.inl (.word (String.ofList w)), next) := by
  obtain ⟨d, ds, rfl, hd⟩ := head_of_isWord hword
  obtain ⟨hquote, hnumber, -⟩ := startsWord_class hd
  unfold readItem
  dsimp only [List.cons_append]
  rw [List.cons_append] at hread
  rw [hquote, hnumber, if_neg (by decide), if_neg (by decide), if_pos hd, hread]
  rfl

/-! Each kind of item is read in front of a separator, whatever follows that. -/

section

variable {tail : List Char}

theorem readItem_quoted (htail : AtSeparator tail) (value : List Char) (offset : Nat) :
    readItem child close ⟨quotedChars value ++ tail, offset⟩ =
      .ok (.inl (.text (String.ofList value)), ⟨tail, offset + (quotedChars value).length⟩) := by
  have hread := readQuoted_append value (htail.head (p := (· == '"'))
    (fun c hc => by rw [eq_of_beq hc]; decide) fun c hc => (isSeparator_class hc).2.2.1) offset
  unfold readItem
  exact (if_pos rfl).trans (bind_eq_ok.2 ⟨_, hread, rfl⟩)

theorem readItem_number (htail : AtSeparator tail) {token : List Char} {x : α}
    (htoken : IsNumberToken token) (hread : Numeral.read? token = some x)
    (hfinite : Scalar.isFinite x = true) (offset : Nat) :
    readItem child close ⟨token ++ tail, offset⟩ =
      .ok (.inl (.number x), ⟨tail, offset + token.length⟩) := by
  have hnumber := readNumber_append htoken hread hfinite htail offset
  obtain ⟨d, ds, hhead, hd⟩ := htoken.head
  rw [hhead] at hnumber ⊢
  unfold readItem
  dsimp only [List.cons_append]
  rw [(startsNumber_class hd).1, if_neg (by decide), if_pos hd]
  exact bind_eq_ok.2 ⟨_, hnumber, rfl⟩

/-- A word in front of a separator is a literal, because no bracket follows it. -/
theorem readItem_word (htail : AtSeparator tail) {w : List Char} (hword : Text.isWord w = true)
    (offset : Nat) :
    readItem child close ⟨w ++ tail, offset⟩ =
      .ok (.inl (.word (String.ofList w)), ⟨tail, offset + w.length⟩) := by
  have hread := readWord_append hword (htail.head toNat_of_continuesWord
    fun c hc => (isSeparator_class hc).2.2.2.2.2) offset
  obtain ⟨b, separator, rest, rfl, hb, hseparator⟩ := htail
  obtain ⟨hblank, hopen, -⟩ := isSeparator_class hseparator
  rw [readItem_of_isWord hword hread, Cursor.skipBlanks_cons hb hblank]
  exact if_neg (by simp [hopen])

/-- The keyword of a child is read once to see the bracket, and again by the reader of children. -/
theorem readItem_child {keyword before rest : List Char} {bracket : Char}
    (hword : Text.isWord keyword = true) (hbefore : Blanks before) (hopen : isOpen bracket = true)
    {offset : Nat} {e : Element α}
    (he : child ⟨keyword ++ (before ++ bracket :: rest), offset⟩ = .ok (e, c')) :
    readItem child close ⟨keyword ++ (before ++ bracket :: rest), offset⟩ = .ok (.inr e, c') := by
  rw [readItem_of_isWord hword (readWord_keyword hword hbefore hopen rest offset),
    Cursor.skipBlanks_cons hbefore (isOpen_class hopen).1, he]
  exact if_pos (by simp [hopen])

end

/-- Between brackets with nothing but blanks there are no items. -/
theorem readBody_blanks {inside : List Char} (hinside : Blanks inside)
    (hclose : isSeparator close = true) (tail : List Char) (offset : Nat) :
    readBody child close ⟨inside ++ close :: tail, offset⟩ =
      .ok ([], ⟨tail, offset + inside.length + 1⟩) := by
  unfold readBody
  rw [Cursor.skipBlanks_cons hinside (isSeparator_class hclose).1]
  exact if_pos (beq_self_eq_true _)

/-- Behind its keyword and its bracket, an element is what stands between the brackets. -/
theorem readElement_eq {keyword before : List Char} {bracket : Char}
    (hword : Text.isWord keyword = true) (hbefore : Blanks before) (hopen : isOpen bracket = true)
    (rest : List Char) (offset : Nat) :
    readElement (n + 1) ⟨keyword ++ (before ++ bracket :: rest), offset⟩ =
      (readBody (readElement n) (closeOf bracket)
        ⟨rest, offset + keyword.length + before.length + 1⟩ >>= fun r =>
          .ok (ofItems (α := α) (String.ofList keyword) offset r.1, r.2)) := by
  rw [readElement, readWord_keyword hword hbefore hopen rest offset]
  dsimp only [bind, Except.bind]
  rw [Cursor.skipBlanks_cons hbefore (isOpen_class hopen).1]
  exact if_pos hopen

/-- An element is read when what stands between its brackets is. -/
theorem readElement_of_readBody {keyword before rest : List Char} {bracket : Char}
    (hword : Text.isWord keyword = true) (hbefore : Blanks before) (hopen : isOpen bracket = true)
    {offset : Nat} {its : List (Item α)}
    (hbody : readBody (readElement n) (closeOf bracket)
      ⟨rest, offset + keyword.length + before.length + 1⟩ = .ok (its, c')) :
    readElement (n + 1) ⟨keyword ++ (before ++ bracket :: rest), offset⟩ =
      .ok (ofItems (String.ofList keyword) offset its, c') := by
  rw [readElement_eq hword hbefore hopen]
  exact bind_eq_ok.2 ⟨_, hbody, rfl⟩

/-- A reader of elements reads every layout of every spelling of bounded depth, whatever
follows. -/
def ReadsLayouts (n : Nat) (child : Cursor → Reading (Element α × Cursor)) : Prop :=
  ∀ {s : Spelling} {e : Element α} {cs : List Char}, s.Denotes (.inr e) → e.depth ≤ n →
    s.Layout cs → ∀ tail offset, ∃ e' offset',
      child ⟨cs ++ tail, offset⟩ = .ok (e', ⟨tail, offset'⟩) ∧ e.Similar e'

/-- An item is read in front of a separator. -/
theorem readItem_append (hchild : ReadsLayouts n child) {s : Spelling} {item : Item α}
    {cs tail : List Char} (hs : s.Denotes item) (hdepth : itemDepth item ≤ n) (hcs : s.Layout cs)
    (htail : AtSeparator tail) (offset : Nat) : ∃ item' offset',
      readItem child close ⟨cs ++ tail, offset⟩ = .ok (item', ⟨tail, offset'⟩) ∧
        SimilarItem item item' := by
  -- Each kind of token is read by its own lemma; only a child may come back with other places.
  cases hs with
  | quoted value =>
    cases hcs
    exact ⟨_, _, readItem_quoted htail value offset, .literal _⟩
  | number htoken hread hfinite =>
    cases hcs
    exact ⟨_, _, readItem_number htail htoken hread hfinite offset, .literal _⟩
  | word hword =>
    cases hcs
    exact ⟨_, _, readItem_word htail hword offset, .literal _⟩
  | element place hword hitems =>
    obtain ⟨e', offset', he', hsimilar⟩ :=
      hchild (.element place hword hitems) hdepth hcs tail offset
    obtain ⟨before, bracket, rest, rfl, hbefore, hopen⟩ := hcs.opens
    rw [List.append_assoc, List.append_assoc, List.cons_append] at he' ⊢
    exact ⟨.inr e', offset', readItem_child hword hbefore hopen he', .child hsimilar⟩

/-- Items are read up to the closing bracket. -/
theorem readItems_append (hchild : ReadsLayouts n child) (hclose : isSeparator close = true)
    (hcomma : (close == ',') = false) {items : List Spelling} {its : List (Item α)}
    (hits : List.Forall₂ Spelling.Denotes items its) (hdepth : ∀ item ∈ its, itemDepth item ≤ n)
    {middle right tail : List Char} (hmiddle : Spelling.LayoutAll items middle)
    (hright : Blanks right) {fuel : Nat} (hfuel : items.length ≤ fuel) {offset : Nat}
    (hc : c.skipBlanks = ⟨middle ++ (right ++ close :: tail), offset⟩) :
    ∃ its' offset', readItems child close fuel c = .ok (its', ⟨tail, offset'⟩) ∧
      List.Forall₂ SimilarItem its its' := by
  induction hits generalizing middle fuel c offset with
  | nil => cases hmiddle
  | @cons s item items its hs hits ih =>
    -- Every round takes one item, so as many rounds as items are enough.
    obtain ⟨fuel, rfl⟩ : ∃ k, fuel = k + 1 := ⟨fuel - 1, by rw [List.length_cons] at hfuel; omega⟩
    have hdepth_item := hdepth item List.mem_cons_self
    rw [readItems, hc]
    cases hmiddle with
    | last hlayout =>
      -- The last item stands in front of the bracket.
      cases hits
      obtain ⟨item', offset', hitem, hsimilar⟩ := readItem_append hchild hs hdepth_item hlayout
        ⟨right, close, tail, rfl, hright, hclose⟩ offset
      refine ⟨[item'], offset' + right.length + 1, bind_eq_ok.2 ⟨_, hitem, ?_⟩,
        .cons hsimilar .nil⟩
      dsimp only
      rw [Cursor.skipBlanks_cons hright (isSeparator_class hclose).1]
      dsimp only
      rw [hcomma, if_neg (by decide), if_pos (beq_self_eq_true close)]
      rfl
    | @cons _ _ cs left before rest hlayout hleft hbefore hrest =>
      -- Any other item stands in front of a comma.
      have hregroup : cs ++ left ++ [','] ++ before ++ rest ++ (right ++ close :: tail) =
          cs ++ (left ++ ',' :: (before ++ (rest ++ (right ++ close :: tail)))) := by
        simp only [List.append_assoc, List.cons_append, List.nil_append]
      obtain ⟨item', offset', hitem, hsimilar⟩ := readItem_append hchild hs hdepth_item hlayout
        ⟨left, ',', before ++ (rest ++ (right ++ close :: tail)), rfl, hleft, by decide⟩ offset
      have hnext : (Cursor.advance ⟨',' :: (before ++ (rest ++ (right ++ close :: tail))),
          offset' + left.length⟩ 1).skipBlanks =
          ⟨rest ++ (right ++ close :: tail), offset' + left.length + 1 + before.length⟩ :=
        hrest.skipBlanks (Spelling.started_of_denotes hits) hbefore _ _
      obtain ⟨its', last, hothers, hsimilars⟩ := ih
        (fun item hitem => hdepth item (List.mem_cons_of_mem _ hitem)) hrest
        (Nat.le_of_succ_le_succ hfuel) hnext
      refine ⟨item' :: its', last, ?_, .cons hsimilar hsimilars⟩
      rw [hregroup]
      refine bind_eq_ok.2 ⟨_, hitem, ?_⟩
      dsimp only
      rw [Cursor.skipBlanks_cons hleft (by decide)]
      exact (if_pos rfl).trans (bind_eq_ok.2 ⟨_, hothers, rfl⟩)

/-- With items between the brackets, the inside of an element is not empty. -/
theorem readBody_eq_readItems (hclose : isSeparator close = true) {items : List Spelling}
    (hitems : ∀ s ∈ items, s.Started) {left middle : List Char} (hleft : Blanks left)
    (hmiddle : Spelling.LayoutAll items middle) (rest : List Char) (offset : Nat) :
    readBody child close ⟨left ++ (middle ++ rest), offset⟩ =
      readItems child close ((middle ++ rest).length + 1)
        ⟨middle ++ rest, offset + left.length⟩ := by
  -- The first item does not start with the closing bracket.
  have hne : ((middle ++ rest).head? == some close) = false := by
    obtain ⟨d, ds, rfl, -, hseparator⟩ := hmiddle.head hitems
    rw [beq_eq_false_iff_ne]
    rintro ⟨⟩
    rw [hclose] at hseparator
    cases hseparator
  unfold readBody
  rw [hmiddle.skipBlanks hitems hleft]
  dsimp only
  rw [hne, if_neg (by decide)]

/-- The inside of an element is read up to the closing bracket. -/
theorem readBody_append (hchild : ReadsLayouts n child) (hclose : isSeparator close = true)
    (hcomma : (close == ',') = false) {items : List Spelling} {its : List (Item α)}
    (hits : List.Forall₂ Spelling.Denotes items its) (hdepth : ∀ item ∈ its, itemDepth item ≤ n)
    {left middle right : List Char} (hleft : Blanks left)
    (hmiddle : Spelling.LayoutAll items middle) (hright : Blanks right) (tail : List Char)
    (offset : Nat) : ∃ its' offset',
      readBody child close ⟨left ++ (middle ++ (right ++ close :: tail)), offset⟩ =
        .ok (its', ⟨tail, offset'⟩) ∧ List.Forall₂ SimilarItem its its' := by
  have hstarted := Spelling.started_of_denotes hits
  -- Every item but the last has a comma, so that the characters bound the items.
  have hfuel : items.length ≤ (middle ++ (right ++ close :: tail)).length + 1 := by
    have := hmiddle.length_le hstarted
    rw [List.length_append]
    omega
  rw [readBody_eq_readItems hclose hstarted hleft hmiddle]
  exact readItems_append hchild hclose hcomma hits hdepth hmiddle hright hfuel
    (hmiddle.skipBlanks hstarted blanks_nil _ _)

/-- An element is read from every layout of its spelling. -/
theorem readsLayouts_readElement (n : Nat) : ReadsLayouts n (readElement n (α := α)) := by
  induction n with
  | zero =>
    intro s e cs _ hdepth
    obtain ⟨keyword, place, literals, children⟩ := e
    cases hdepth
  | succ n ih =>
    intro s e cs hs hdepth hcs tail offset
    cases hs with
    | @element keyword items its place hword hits =>
    have hdepths := (depth_ofItems_le_iff (String.ofList keyword) place).1 hdepth
    cases hcs with
    | @empty _ before inside bracket hbefore hopen hinside =>
      have hregroup : keyword ++ before ++ [bracket] ++ inside ++ [closeOf bracket] ++ tail =
          keyword ++ (before ++ bracket :: (inside ++ closeOf bracket :: tail)) := by
        simp only [List.append_assoc, List.cons_append, List.nil_append]
      cases hits
      rw [hregroup]
      exact ⟨_, _, readElement_of_readBody hword hbefore hopen
        (readBody_blanks hinside (isOpen_class hopen).2.2.1 tail _),
        similar_ofItems .nil (String.ofList keyword) place offset⟩
    | @element _ before left middle right bracket _ hbefore hopen hleft hmiddle hright =>
      have hregroup : keyword ++ before ++ [bracket] ++ left ++ middle ++ right ++
          [closeOf bracket] ++ tail = keyword ++ (before ++ bracket ::
            (left ++ (middle ++ (right ++ closeOf bracket :: tail)))) := by
        simp only [List.append_assoc, List.cons_append, List.nil_append]
      obtain ⟨-, -, hclose, hcomma⟩ := isOpen_class hopen
      -- Children are read with one level less, which is what the induction is about.
      obtain ⟨its', offset', hbody, hsimilar⟩ := readBody_append ih hclose hcomma hits hdepths hleft
        hmiddle hright tail (offset + keyword.length + before.length + 1)
      rw [hregroup]
      exact ⟨_, offset', readElement_of_readBody hword hbefore hopen hbody,
        similar_ofItems hsimilar (String.ofList keyword) place offset⟩

/-! ## Whole texts -/

/-- A text of the grammar is read in full at every depth that its element has. -/
theorem readElement_of_isText {s : Spelling} {e : Element α} {text : String}
    (hs : s.Denotes (.inr e)) (htext : s.IsText text) (hdepth : e.depth ≤ n) :
    ∃ e' c', readElement n (Cursor.mk text.toList 0).skipBlanks = .ok (e', c') ∧
      c'.skipBlanks.rest = [] ∧ e.Similar e' := by
  obtain ⟨before, cs, after, hbefore, hcs, hafter, hsplit⟩ := htext
  obtain ⟨d, ds, rfl, hblank, -⟩ := hcs.head hs.started
  obtain ⟨e', offset', hread, hsimilar⟩ :=
    readsLayouts_readElement n hs hdepth hcs after (0 + before.length)
  refine ⟨e', ⟨after, offset'⟩, ?_, ?_, hsimilar⟩
  · -- The blanks in front of the element end where its keyword starts.
    rw [hsplit, List.append_assoc]
    exact (congrArg _ (Cursor.skipBlanks_cons hbefore hblank (ds ++ after) 0)).trans hread
  · have hskip := Cursor.skipBlanks_append hafter [] (fun _ h => nomatch h) offset'
    rw [List.append_nil] at hskip
    rw [hskip]

/-- No text has two spellings of different meaning. -/
theorem Spelling.similar_of_isText {s s' : Spelling} {e e' : Element α} {text : String}
    (hs : s.Denotes (.inr e)) (hs' : s'.Denotes (.inr e')) (h : s.IsText text)
    (h' : s'.IsText text) : e.Similar e' := by
  -- The reader has one answer, once it may go as deep as the deeper one of both.
  obtain ⟨e₁, c₁, hread, -, hsimilar⟩ :=
    readElement_of_isText hs h (Nat.le_max_left e.depth e'.depth)
  obtain ⟨e₂, c₂, hread', -, hsimilar'⟩ :=
    readElement_of_isText hs' h' (Nat.le_max_right e.depth e'.depth)
  cases hread.symm.trans hread'
  exact Similar.trans e hsimilar hsimilar'.symm

/-- A text of the grammar is accepted unless it is nested too deeply. -/
theorem parse_of_isText {s : Spelling} {e : Element α} {text : String}
    (hs : s.Denotes (.inr e)) (htext : s.IsText text) (hdepth : e.depth ≤ largestDepth) :
    ∃ e', Element.parse text = .ok e' ∧ e.Similar e' := by
  obtain ⟨e', c', hread, hend, hsimilar⟩ := readElement_of_isText hs htext hdepth
  refine ⟨e', ?_, hsimilar⟩
  unfold Element.parse
  rw [hread]
  dsimp only
  rw [hend]
  rfl

/-- An accepted text is in the grammar. -/
theorem isText_of_parse {text : String} {e : Element α} (h : Element.parse text = .ok e) :
    e.depth ≤ largestDepth ∧ ∃ s : Spelling, s.Denotes (.inr e) ∧ s.IsText text := by
  unfold Element.parse at h
  split at h
  · cases h
  next _ e' last hread =>
  dsimp only at h
  split at h
  · -- Blanks, the element and blanks are the whole text.
    next hend =>
    cases h
    obtain ⟨hdepth, s, cs, hpasses, hlayout, hdenotes⟩ := recognizes_of_readElement hread
    obtain ⟨before, hbefore, hskip⟩ := (Cursor.mk text.toList 0).passes_skipBlanks
    obtain ⟨after, hafter, hskip'⟩ := last.passes_skipBlanks
    have hall := ((hskip.append hpasses).append hskip').rest
    rw [List.isEmpty_iff.1 hend, List.append_nil] at hall
    exact ⟨hdepth, s, hdenotes, before, cs, after, hbefore, hlayout, hafter, hall⟩
  · cases h

/-- The reader accepts exactly the texts of the grammar with at most `largestDepth` levels. Its
answer is the element that the text spells, with the literals and the children in their order, and
texts that differ in blanks and kinds of brackets alone are accepted alike, with similar answers. -/
theorem parse_iff_grammar :
    (∀ text : String, (∃ e : Element α, Element.parse text = .ok e) ↔
      ∃ (s : Spelling) (e : Element α), s.IsText text ∧ s.Denotes (.inr e) ∧
        e.depth ≤ largestDepth) ∧
    (∀ (s : Spelling) (e e' : Element α) (text : String), s.IsText text → s.Denotes (.inr e) →
      Element.parse text = .ok e' → e.Similar e') ∧
    ∀ (s : Spelling) (e e' : Element α) (text text' : String), s.Denotes (.inr e) →
      s.IsText text → s.IsText text' → Element.parse text = .ok e' →
      ∃ e'', Element.parse text' = .ok e'' ∧ e'.Similar e'' := by
  have hanswer : ∀ {s : Spelling} {e e' : Element α} {text : String}, s.IsText text →
      s.Denotes (.inr e) → Element.parse text = .ok e' → e.Similar e' := by
    intro s e e' text htext hs h
    obtain ⟨-, s', hs', htext'⟩ := isText_of_parse h
    exact Spelling.similar_of_isText hs hs' htext htext'
  refine ⟨fun text => ⟨?_, ?_⟩, fun s e e' text => hanswer, ?_⟩
  · rintro ⟨e, h⟩
    obtain ⟨hdepth, s, hs, htext⟩ := isText_of_parse h
    exact ⟨s, e, htext, hs, hdepth⟩
  · rintro ⟨s, e, htext, hs, hdepth⟩
    obtain ⟨e', h, -⟩ := parse_of_isText hs htext hdepth
    exact ⟨e', h⟩
  · intro s e e' text text' hs htext htext' h
    -- What was read has the depth of what is spelled, so the other text is not too deep either.
    have hsimilar := hanswer htext hs h
    have hdepth : e.depth ≤ largestDepth :=
      (Similar.depth_eq e hsimilar).le.trans (isText_of_parse h).1
    obtain ⟨e'', h'', hsimilar'⟩ := parse_of_isText hs htext' hdepth
    exact ⟨e'', h'', Similar.trans e' hsimilar.symm hsimilar'⟩

/-- The tokens of `A(-0, "x""y", B[c])`. -/
def nestedTokens : Spelling :=
  .element ['A'] [.number ['-', '0'], .quoted ['x', '"', 'y'], .element ['B'] [.word ['c']]]

/-- Other brackets and more blanks in a text give a similar element. -/
theorem parse_iff_grammar_brackets :
    ∃ e : Element Float, Element.parse "\tA [-0 ,\"x\"\"y\",B( c )] " = .ok e ∧
      Similar (.node "A" 0 [.number (-0), .text "x\"y"] [.node "B" 14 [.word "c"] []]) e := by
  -- One list of tokens has both layouts, with other brackets and other blanks.
  have hb : Blanks [' '] := blanks_singleton (by decide)
  have hzero : IsNumberToken ['-', '0'] :=
    ⟨['-'], ['0'], [], rfl, .inr ⟨'-', rfl, rfl⟩, List.forall_mem_singleton.2 rfl, .inl rfl,
      by decide⟩
  have hdenotes : nestedTokens.Denotes (α := Float) (.inr (ofItems "A" 0
      [.inl (.number (-0)), .inl (.text "x\"y"), .inr (ofItems "B" 14 [.inl (.word "c")])])) :=
    .element 0 (by decide) (.cons (.number hzero rfl rfl) (.cons (.quoted _)
      (.cons (.element 14 (by decide) (.cons (.word (by decide)) .nil)) .nil)))
  have hround : nestedTokens.Layout "A(-0, \"x\"\"y\", B[c])".toList :=
    .element blanks_nil rfl blanks_nil (.cons (.number _) blanks_nil hb (.cons (.quoted _)
      blanks_nil hb (.last (.element blanks_nil rfl blanks_nil (.last (.word _)) blanks_nil))))
      blanks_nil
  have hsquare : nestedTokens.Layout "A [-0 ,\"x\"\"y\",B( c )]".toList :=
    .element hb rfl blanks_nil (.cons (.number _) hb blanks_nil (.cons (.quoted _) blanks_nil
      blanks_nil (.last (.element blanks_nil rfl hb (.last (.word _)) hb)))) blanks_nil
  exact parse_iff_grammar.2.2 nestedTokens _ _ "A(-0, \"x\"\"y\", B[c])" _ hdenotes
    ⟨[], _, [], blanks_nil, hround, blanks_nil, rfl⟩
    ⟨['\t'], _, [' '], blanks_singleton (by decide), hsquare, hb, rfl⟩ rfl

end CoordTransform.Element
