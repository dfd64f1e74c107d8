/-!
# Splitting Texts

Cutting a list of characters at a separator.
-/

namespace CoordTransform.Text

/-! ## Cutting -/

/-- The parts before and after the first separator, if there is one. -/
def splitFirst? (separator : Char) (cs : List Char) : Option (List Char × List Char) :=
  match cs.dropWhile (· != separator) with
  | [] => none
  | _ :: after => some (cs.takeWhile (· != separator), after)

/-- The parts between all separators; there is one more part than separators. -/
def splitAll (separator : Char) : List Char → List (List Char)
  | [] => [[]]
  | c :: cs =>
    if c == separator then [] :: splitAll separator cs
    else
      match splitAll separator cs with
      | [] => [[c]]
      | part :: parts => (c :: part) :: parts

/-! ## Laws -/

/-- Splitting yields at least one part. -/
theorem splitAll_ne_nil (separator : Char) (cs : List Char) : splitAll separator cs ≠ [] := by
  cases cs with
  | nil => simp [splitAll]
  | cons c cs =>
    rw [splitAll]
    split
    · simp
    · split <;> simp

/-- The parts with the separators between them make up the text. -/
theorem intercalate_splitAll (separator : Char) (cs : List Char) :
    [separator].intercalate (splitAll separator cs) = cs := by
  induction cs with
  | nil => rfl
  | cons c cs ih =>
    rw [splitAll]
    split
    · next h =>
      obtain ⟨part, parts, hp⟩ := List.exists_cons_of_ne_nil (splitAll_ne_nil separator cs)
      rw [hp] at ih ⊢
      rw [List.intercalate_cons_cons, ih]
      simp [eq_of_beq h]
    · split
      · next h => exact absurd h (splitAll_ne_nil separator cs)
      · next part parts h =>
        rw [h] at ih
        rw [← ih]
        cases parts with
        | nil => simp [List.intercalate]
        | cons p ps => simp [List.intercalate_cons_cons]

/-- The first part of a split holds no separator, and the text is the two parts with the
separator between them. -/
theorem splitFirst?_eq_some {separator : Char} {cs before after : List Char}
    (h : splitFirst? separator cs = some (before, after)) :
    cs = before ++ separator :: after ∧ ∀ c ∈ before, c ≠ separator := by
  unfold splitFirst? at h
  split at h
  · simp at h
  · next c rest hd =>
    simp only [Option.some.injEq, Prod.mk.injEq] at h
    obtain ⟨rfl, rfl⟩ := h
    have hc : c = separator := by
      have := List.head?_dropWhile_not (fun d => d != separator) cs
      rw [hd] at this
      simpa using this
    have happ := List.takeWhile_append_dropWhile (p := fun d => d != separator) (l := cs)
    rw [hd, hc] at happ
    refine ⟨happ.symm, fun d hm => ?_⟩
    have := List.all_takeWhile (p := fun d => d != separator) (l := cs)
    simpa using List.all_eq_true.1 this d hm

end CoordTransform.Text
