import CoordTransform.Proofs.Element.Recognition

/-!
# Reading an Element Anywhere

The reader looks at an element up to its closing bracket and no further. So an element that is read
from a text alone is read from every text in which it stands, with all places moved by the number of
characters in front of it, and it is read alike when more levels are allowed.
-/

namespace CoordTransform.Element

variable {α : Type}

/-! ## Places of elements -/

mutual

/-- An element with all its places changed. -/
def mapOffset (f : Nat → Nat) : Element α → Element α
  | node keyword offset literals children =>
    node keyword (f offset) literals (mapOffsetAll f children)

/-- Elements with all their places changed. -/
def mapOffsetAll (f : Nat → Nat) : List (Element α) → List (Element α)
  | [] => []
  | e :: es => mapOffset f e :: mapOffsetAll f es

end

theorem mapOffsetAll_eq_map (f : Nat → Nat) (es : List (Element α)) :
    mapOffsetAll f es = es.map (mapOffset f) := by
  induction es with
  | nil => rfl
  | cons e es ih => rw [mapOffsetAll, ih, List.map_cons]

@[simp]
theorem offset_mapOffset (f : Nat → Nat) (e : Element α) :
    (e.mapOffset f).offset = f e.offset := by
  cases e
  rfl

theorem mapOffset_mapOffset (f g : Nat → Nat) (e : Element α) :
    (e.mapOffset f).mapOffset g = e.mapOffset fun offset => g (f offset) := by
  induction e using Element.childInduction with
  | _ e ih =>
  obtain ⟨keyword, offset, literals, children⟩ := e
  have hchildren : (children.map (mapOffset f)).map (mapOffset g) =
      children.map (mapOffset fun offset => g (f offset)) := by
    rw [List.map_map]
    exact List.map_congr_left ih
  simp only [mapOffset, mapOffsetAll_eq_map, hchildren]

theorem mapOffset_self (e : Element α) : e.mapOffset (fun offset => offset) = e := by
  induction e using Element.childInduction with
  | _ e ih =>
  obtain ⟨keyword, offset, literals, children⟩ := e
  have hchildren : children.map (mapOffset fun offset => offset) = children :=
    (List.map_congr_left ih).trans (List.map_id children)
  rw [mapOffset, mapOffsetAll_eq_map, hchildren]

/-- An item with all places of a child changed. -/
def mapItem (f : Nat → Nat) : Item α → Item α
  | .inl l => .inl l
  | .inr e => .inr (e.mapOffset f)

theorem mapOffset_ofItems (f : Nat → Nat) (keyword : String) (offset : Nat)
    (its : List (Item α)) :
    (ofItems keyword offset its).mapOffset f =
      ofItems keyword (f offset) (its.map (mapItem f)) := by
  rw [ofItems, ofItems, mapOffset, mapOffsetAll_eq_map]
  congr 1
  · induction its with
    | nil => rfl
    | cons item its ih => cases item <;> simp [mapItem, List.filterMap_cons, ih]
  · induction its with
    | nil => rfl
    | cons item its ih => cases item <;> simp [mapItem, List.filterMap_cons, ih]

/-! ## Cursors in longer texts -/

namespace Cursor

/-- The same place in a longer text, with so many more characters in front of the cursor and the
given ones behind the text. -/
def within (c : Cursor) (before : Nat) (tail : List Char) : Cursor :=
  ⟨c.rest ++ tail, c.offset + before⟩

variable {c c' : Cursor} {cs : List Char} (before : Nat) (tail : List Char)

/-- What is passed is passed in the longer text. -/
theorem Passes.within_eq (h : c.Passes cs c') :
    c.within before tail = ⟨cs ++ (c'.rest ++ tail), c.offset + before⟩ ∧
      c'.within before tail = ⟨c'.rest ++ tail, c.offset + before + cs.length⟩ := by
  unfold within
  rw [h.rest, h.offset, List.append_assoc, Nat.add_right_comm]
  exact ⟨rfl, rfl⟩

theorem advance_one_within {d : Char} {ds : List Char} (h : c.rest = d :: ds) :
    (c.within before tail).advance 1 = (c.advance 1).within before tail := by
  unfold within advance
  simp [h, Nat.add_right_comm]

/-- The blanks end at the same place when something else follows them. -/
theorem skipBlanks_within {d : Char} {ds : List Char} (h : c.skipBlanks.rest = d :: ds) :
    (c.within before tail).skipBlanks = c.skipBlanks.within before tail := by
  obtain ⟨b, hb, hpasses⟩ := c.passes_skipBlanks
  obtain ⟨hstart, hend⟩ := hpasses.within_eq before tail
  have hd : Text.isBlank d = false := head_skipBlanks c d (by simp [h])
  rw [hstart, hend, h, List.cons_append, skipBlanks_cons hb hd]

end Cursor

/-! ## Readings in longer texts -/

variable [Numeral α] {child child' : Cursor → Reading (Element α × Cursor)} {close : Char}
  {c c' : Cursor} {before : Nat} {tail : List Char}

/-- What the first reader reads is read by the second one in the longer text, too. -/
def ReadsWithin (before : Nat) (tail : List Char)
    (child child' : Cursor → Reading (Element α × Cursor)) : Prop :=
  ∀ {c e c'}, child c = .ok (e, c') →
    child' (c.within before tail) = .ok (e.mapOffset (· + before), c'.within before tail)

theorem AtSeparator.append {cs : List Char} (h : AtSeparator cs) (tail : List Char) :
    AtSeparator (cs ++ tail) := by
  obtain ⟨b, d, rest, rfl, hb, hd⟩ := h
  exact ⟨b, d, rest ++ tail, by simp, hb, hd⟩

/-- A word in front of a bracket opens a child in the longer text, too. -/
theorem readItem_within_child (hchild : ReadsWithin before tail child child') {word : List Char}
    {next : Cursor} {e : Element α} (hword : readWord c = .ok (word, next))
    (hopen : (next.skipBlanks.rest.head?.map isOpen).getD false = true)
    (he : child c = .ok (e, c')) :
    readItem child' close (c.within before tail) =
      .ok (.inr (e.mapOffset (· + before)), c'.within before tail) := by
  obtain ⟨hisWord, hpasses⟩ := passes_of_readWord hword
  -- The bracket is looked for behind blanks, all of which stand in front of what is appended.
  obtain ⟨b, hb, hskip⟩ := next.passes_skipBlanks
  obtain ⟨bracket, rest, hbracket, hisOpen⟩ : ∃ bracket rest,
      next.skipBlanks.rest = bracket :: rest ∧ isOpen bracket = true := by
    cases hrest : next.skipBlanks.rest with
    | nil => simp [hrest] at hopen
    | cons bracket rest => exact ⟨bracket, rest, rfl, by simpa [hrest] using hopen⟩
  have hstart : c.within before tail =
      ⟨word ++ (b ++ bracket :: (rest ++ tail)), c.offset + before⟩ := by
    rw [((hpasses.append hskip).within_eq before tail).1, hbracket, List.append_assoc,
      List.cons_append]
  have he' := hchild he
  rw [hstart] at he' ⊢
  exact readItem_child hisWord hb hisOpen he'

/-- An item that stands in front of a separator is read up to it in the longer text. -/
theorem readItem_within (hchild : ReadsWithin before tail child child') {item : Item α}
    (h : readItem child close c = .ok (item, c')) (hend : AtSeparator c'.rest) :
    readItem child' close (c.within before tail) =
      .ok (mapItem (· + before) item, c'.within before tail) := by
  have hend' := hend.append tail
  cases readsItem_of_readItem h with
  | quoted hrest hvalue =>
    obtain ⟨hstart, hstop⟩ := (passes_of_readQuoted hrest hvalue).within_eq before tail
    rw [hstart, hstop]
    exact readItem_quoted hend' _ _
  | number hrest hnumber hx =>
    obtain ⟨token, htoken, hread, hfinite, hpasses⟩ := passes_of_readNumber hrest hnumber hx
    obtain ⟨hstart, hstop⟩ := hpasses.within_eq before tail
    rw [hstart, hstop]
    exact readItem_number hend' htoken hread hfinite _
  | word hword =>
    obtain ⟨hisWord, hpasses⟩ := passes_of_readWord hword
    obtain ⟨hstart, hstop⟩ := hpasses.within_eq before tail
    rw [hstart, hstop]
    exact readItem_word hend' hisWord _
  | child hword hopen he => exact readItem_within_child hchild hword hopen he

/-- No item is read at the end of a text. -/
theorem exists_of_readItem {r : Item α × Cursor} (h : readItem child close c = .ok r) :
    ∃ d ds, c.rest = d :: ds := by
  cases hc : c.rest with
  | nil =>
    unfold readItem at h
    rw [hc] at h
    cases h
  | cons d ds => exact ⟨d, ds, rfl⟩

theorem exists_of_readItems {fuel : Nat} {r : List (Item α) × Cursor}
    (h : readItems child close fuel c = .ok r) : ∃ d ds, c.skipBlanks.rest = d :: ds := by
  cases fuel with
  | zero => cases h
  | succ fuel =>
    rw [readItems] at h
    obtain ⟨_, hitem, -⟩ := bind_eq_ok.1 h
    exact exists_of_readItem hitem

/-- Items are read up to their closing bracket in the longer text. -/
theorem readItems_within (hchild : ReadsWithin before tail child child')
    (hclose : isSeparator close = true) {fuel fuel' : Nat} (hfuel : fuel ≤ fuel')
    {its : List (Item α)} (h : readItems child close fuel c = .ok (its, c')) :
    readItems child' close fuel' (c.within before tail) =
      .ok (its.map (mapItem (· + before)), c'.within before tail) := by
  induction fuel generalizing c its fuel' with
  | zero => cases h
  | succ fuel ih =>
    obtain ⟨fuel', rfl⟩ : ∃ k, fuel' = k + 1 := ⟨fuel' - 1, by omega⟩
    rw [readItems] at h
    obtain ⟨⟨item, next⟩, hitem, h⟩ := bind_eq_ok.1 h
    dsimp only at h
    split at h
    · cases h
    next d ds hrest =>
    -- The item stands in front of a separator, whichever it is.
    have hseparator : isSeparator d = true := by
      split at h
      · next hcomma => rw [eq_of_beq hcomma]; rfl
      split at h
      · next hd => rw [eq_of_beq hd]; exact hclose
      · cases h
    obtain ⟨b, hb, hskip⟩ := next.passes_skipBlanks
    have hitem' := readItem_within hchild hitem ⟨b, d, ds, hrest ▸ hskip.rest, hb, hseparator⟩
    obtain ⟨d', ds', hc⟩ := exists_of_readItem hitem
    rw [readItems, Cursor.skipBlanks_within before tail hc]
    refine bind_eq_ok.2 ⟨_, hitem', ?_⟩
    have hlast := Cursor.advance_one_within before tail hrest
    dsimp only
    rw [Cursor.skipBlanks_within before tail hrest, hlast]
    unfold Cursor.within at ih ⊢
    rw [hrest]
    dsimp only [List.cons_append]
    split at h
    · next hcomma =>
      obtain ⟨⟨others, last⟩, hothers, hits⟩ := bind_eq_ok.1 h
      cases hits
      rw [if_pos hcomma]
      exact bind_eq_ok.2 ⟨_, ih (by omega) hothers, rfl⟩
    · next hcomma =>
      rw [if_neg hcomma]
      split at h
      · next hd =>
        cases h
        rw [if_pos hd]
        rfl
      · cases h

theorem readBody_within (hchild : ReadsWithin before tail child child')
    (hclose : isSeparator close = true) {its : List (Item α)}
    (h : readBody child close c = .ok (its, c')) :
    readBody child' close (c.within before tail) =
      .ok (its.map (mapItem (· + before)), c'.within before tail) := by
  unfold readBody at h ⊢
  dsimp only at h ⊢
  -- Behind the blanks stands the closing bracket or an item, so that the text does not end there.
  have hstart : ∃ d ds, c.skipBlanks.rest = d :: ds := by
    split at h
    · next hd =>
      obtain ⟨ds, hc⟩ := List.head?_eq_some_iff.1 (eq_of_beq hd)
      exact ⟨_, ds, hc⟩
    · simpa only [Cursor.skipBlanks_skipBlanks] using exists_of_readItems h
  obtain ⟨d, ds, hc⟩ := hstart
  have hhead : (c.skipBlanks.within before tail).rest.head? = c.skipBlanks.rest.head? := by
    simp [Cursor.within, hc]
  rw [Cursor.skipBlanks_within before tail hc, hhead]
  split at h
  · next hd =>
    cases h
    rw [if_pos hd, Cursor.advance_one_within before tail hc]
    rfl
  · next hd =>
    rw [if_neg hd]
    refine readItems_within hchild hclose ?_ h
    simp [Cursor.within]

/-- An element is read in every text in which it stands, with its places moved, and with as many
levels as one likes beyond those it was read with. -/
theorem readElement_within (before : Nat) (tail : List Char) {n : Nat} : ∀ {m : Nat}, n ≤ m →
    ReadsWithin before tail (readElement n (α := α)) (readElement m) := by
  induction n with
  | zero =>
    intro m _ c e c' h
    cases h
  | succ n ih =>
    intro m hm c e c' h
    obtain ⟨m, rfl⟩ : ∃ k, m = k + 1 := ⟨m - 1, by omega⟩
    rw [readElement] at h
    obtain ⟨⟨word, next⟩, hword, h⟩ := bind_eq_ok.1 h
    obtain ⟨hisWord, hpasses⟩ := passes_of_readWord hword
    dsimp only at h
    split at h
    · cases h
    next bracket ds hrest =>
    split at h
    · next hopen =>
      obtain ⟨⟨its, last⟩, hbody, he⟩ := bind_eq_ok.1 h
      cases he
      obtain ⟨b, hb, hskip⟩ := next.passes_skipBlanks
      have hfront := hpasses.append hskip
      have hbody' := readBody_within (ih (Nat.le_of_succ_le_succ hm)) (isOpen_class hopen).2.2.1
        hbody
      -- The inside of the element starts behind the keyword and the bracket.
      have hinside : (next.skipBlanks.advance 1).within before tail =
          ⟨ds ++ tail, c.offset + before + word.length + b.length + 1⟩ := by
        rw [← Cursor.advance_one_within before tail hrest, (hfront.within_eq before tail).2, hrest]
        simp [Cursor.advance, Nat.add_assoc]
      have hstart : c.within before tail =
          ⟨word ++ (b ++ bracket :: (ds ++ tail)), c.offset + before⟩ := by
        rw [(hfront.within_eq before tail).1, hrest]
        simp
      rw [hinside] at hbody'
      rw [hstart, mapOffset_ofItems]
      exact readElement_of_readBody hisWord hb hopen hbody'
    · cases h

end CoordTransform.Element
