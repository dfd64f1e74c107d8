import Mathlib
import CoordTransform.Proofs.Element.Productions
import CoordTransform.Proofs.Element.Scanning

/-!
# The Grammar of Elements

```text
text    ::= blanks element blanks
element ::= word blanks open blanks (close | item (blanks ',' blanks item)* blanks close)
item    ::= quoted | number | word | element
```

A `Spelling` is the sequence of tokens of an element as a tree, without its layout: blanks and
kinds of brackets. It `Denotes` an element when its tokens are tokens; the element has the literals
and the children in the order of the items. Each spelling has many layouts, of which all denote the
same element.

A layout never puts two tokens next to each other: behind every item come blanks and then a comma or
the closing bracket. So a word that is an item is followed by no opening bracket, and the token of a
number is as long as it can be.
-/

namespace CoordTransform.Element

variable {α : Type}

/-! ## Similar elements -/

/-- Two elements with the same keywords and literals all through. -/
inductive Similar : Element α → Element α → Prop where
  | node {keyword : String} {offset offset' : Nat} {literals : List (Literal α)}
      {children children' : List (Element α)} : List.Forall₂ Similar children children' →
      Similar (node keyword offset literals children) (node keyword offset' literals children')

theorem Similar.refl (e : Element α) : e.Similar e := by
  induction e using Element.childInduction with
  | _ e ih =>
  obtain ⟨keyword, offset, literals, children⟩ := e
  exact .node (List.forall₂_same.2 ih)

theorem Similar.symm (e : Element α) : ∀ {e'}, e.Similar e' → e'.Similar e := by
  induction e using Element.childInduction with
  | _ e ih =>
  intro e' h
  cases h with
  | node hchildren =>
    refine .node (List.forall₂_iff_get.2 ?_)
    obtain ⟨hlength, hget⟩ := List.forall₂_iff_get.1 hchildren
    exact ⟨hlength.symm, fun i hi' hi => ih _ (List.get_mem _ _) (hget i hi hi')⟩

theorem Similar.trans (e : Element α) :
    ∀ {e' e''}, e.Similar e' → e'.Similar e'' → e.Similar e'' := by
  -- The induction is on the first tree, since similarity goes down to its children one by one.
  induction e using Element.childInduction with
  | _ e ih =>
  intro e' e'' h h'
  cases h with
  | node hchildren =>
    cases h' with
    | node hchildren' =>
      refine .node (List.forall₂_iff_get.2 ?_)
      obtain ⟨hlength, hget⟩ := List.forall₂_iff_get.1 hchildren
      obtain ⟨hlength', hget'⟩ := List.forall₂_iff_get.1 hchildren'
      exact ⟨hlength.trans hlength', fun i hi hi'' => ih _ (List.get_mem _ _)
        (hget i hi (hlength ▸ hi)) (hget' i (hlength ▸ hi) hi'')⟩

/-- What is equal for similar children is equal for all of them together. -/
theorem map_eq_of_similar {β : Type} {f : Element α → β} {cs cs' : List (Element α)}
    (h : List.Forall₂ Similar cs cs') (hf : ∀ c ∈ cs, ∀ {c'}, c.Similar c' → f c = f c') :
    cs.map f = cs'.map f := by
  induction h with
  | nil => rfl
  | cons hc _ ih =>
    rw [List.map_cons, List.map_cons, hf _ List.mem_cons_self hc,
      ih fun c hmem => hf c (List.mem_cons_of_mem _ hmem)]

/-- Equal literals and similar children. -/
inductive SimilarItem : Item α → Item α → Prop where
  | literal (l : Literal α) : SimilarItem (.inl l) (.inl l)
  | child {e e' : Element α} : e.Similar e' → SimilarItem (.inr e) (.inr e')

/-- Similar items make similar elements. -/
theorem similar_ofItems {its its' : List (Item α)} (h : List.Forall₂ SimilarItem its its')
    (keyword : String) (offset offset' : Nat) :
    (ofItems keyword offset its).Similar (ofItems keyword offset' its') := by
  -- Literals are equal in the same order, and children similar in the same order.
  have hparts : its'.filterMap Sum.getLeft? = its.filterMap Sum.getLeft? ∧
      List.Forall₂ Similar (its.filterMap Sum.getRight?) (its'.filterMap Sum.getRight?) := by
    induction h with
    | nil => exact ⟨rfl, .nil⟩
    | cons hitem _ ih =>
      cases hitem with
      | literal l => exact ⟨congrArg (l :: ·) ih.1, ih.2⟩
      | child he => exact ⟨ih.1, .cons he ih.2⟩
  rw [ofItems, ofItems, hparts.1]
  exact .node hparts.2

/-! ## Depth -/

mutual

/-- The greatest number of elements inside each other, the outermost included. -/
def depth : Element α → Nat
  | node _ _ _ children => depthAll children + 1

/-- The greatest depth in a list of elements. -/
def depthAll : List (Element α) → Nat
  | [] => 0
  | e :: es => max (depth e) (depthAll es)

end

theorem depthAll_le_iff {cs : List (Element α)} {n : Nat} :
    depthAll cs ≤ n ↔ ∀ c ∈ cs, c.depth ≤ n := by
  induction cs with
  | nil => simp [depthAll]
  | cons c cs ih => rw [depthAll, Nat.max_le, ih, List.forall_mem_cons]

theorem depthAll_eq_foldr (cs : List (Element α)) : depthAll cs = (cs.map depth).foldr max 0 := by
  induction cs with
  | nil => rfl
  | cons c cs ih => rw [depthAll, ih, List.map_cons, List.foldr_cons]

/-- Similar elements are nested alike. -/
theorem Similar.depth_eq (e : Element α) : ∀ {e'}, e.Similar e' → e.depth = e'.depth := by
  induction e using Element.childInduction with
  | _ e ih =>
  intro e' h
  cases h with
  | node hchildren =>
    rw [depth, depth, depthAll_eq_foldr, depthAll_eq_foldr, map_eq_of_similar hchildren ih]

/-! ## Spellings -/

/-- The tokens of an item: a literal, or an element with a keyword and items of its own. -/
inductive Spelling where
  /-- A quoted text with the given inside. -/
  | quoted (value : List Char)
  | number (token : List Char)
  | word (letters : List Char)
  | element (keyword : List Char) (items : List Spelling)

namespace Spelling

/-- The item that a spelling denotes. Tokens of numbers must denote finite numbers. Offsets are
free, since they are a matter of layout. -/
inductive Denotes [Numeral α] : Spelling → Item α → Prop where
  | quoted (value : List Char) : Denotes (.quoted value) (.inl (.text (String.ofList value)))
  | number {token : List Char} {x : α} : IsNumberToken token → Numeral.read? token = some x →
      Scalar.isFinite x = true → Denotes (.number token) (.inl (.number x))
  | word {letters : List Char} : Text.isWord letters = true →
      Denotes (.word letters) (.inl (.word (String.ofList letters)))
  | element {keyword : List Char} {items : List Spelling} {its : List (Item α)} (offset : Nat) :
      Text.isWord keyword = true → List.Forall₂ Denotes items its →
      Denotes (.element keyword items) (.inr (ofItems (String.ofList keyword) offset its))

/-! ## Layouts -/

mutual

/-- The texts of a spelling. There may be blanks around brackets and commas, and either kind of
bracket may be used in every place where it is closed by its own kind. -/
inductive Layout : Spelling → List Char → Prop where
  | quoted (value : List Char) : Layout (.quoted value) (quotedChars value)
  | number (token : List Char) : Layout (.number token) token
  | word (letters : List Char) : Layout (.word letters) letters
  | empty {keyword before inside : List Char} {bracket : Char} : Blanks before →
      isOpen bracket = true → Blanks inside →
      Layout (.element keyword [])
        (keyword ++ before ++ [bracket] ++ inside ++ [closeOf bracket])
  | element {keyword before left middle right : List Char} {bracket : Char}
      {items : List Spelling} : Blanks before → isOpen bracket = true → Blanks left →
      LayoutAll items middle → Blanks right →
      Layout (.element keyword items)
        (keyword ++ before ++ [bracket] ++ left ++ middle ++ right ++ [closeOf bracket])

/-- The texts of at least one item, with a comma between any two of them. -/
inductive LayoutAll : List Spelling → List Char → Prop where
  | last {item : Spelling} {cs : List Char} : Layout item cs → LayoutAll [item] cs
  | cons {item : Spelling} {items : List Spelling} {cs left right rest : List Char} :
      Layout item cs → Blanks left → Blanks right → LayoutAll items rest →
      LayoutAll (item :: items) (cs ++ left ++ [','] ++ right ++ rest)

end

/-- A whole text is a layout between blanks. -/
def IsText (s : Spelling) (text : String) : Prop :=
  ∃ before cs after, Blanks before ∧ s.Layout cs ∧ Blanks after ∧
    text.toList = before ++ cs ++ after

end Spelling

end CoordTransform.Element
