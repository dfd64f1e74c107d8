import Mathlib
import CoordTransform.Text.Blank
import CoordTransform.Text.Split

/-!
# Trimmed and Split Texts

Blanks around a text do not matter after trimming, also when the text is then cut at a visible
character. A text without the separator is one part; with the separator behind such a text, that
text is the first part.
-/

namespace CoordTransform.Text

/-! ## Trimming -/

section Trimming

variable {cs lead tail : List Char}

theorem trimChars_eq (cs : List Char) :
    trimChars cs = (cs.dropWhile isBlank).rdropWhile isBlank := rfl

theorem rdropWhile_append_blanks (cs : List Char) (htail : ∀ c ∈ tail, isBlank c = true) :
    (cs ++ tail).rdropWhile isBlank = cs.rdropWhile isBlank := by
  unfold List.rdropWhile
  rw [List.reverse_append, List.dropWhile_append_of_pos (by simpa using htail)]

/-- Blanks at either end are trimmed. -/
theorem trimChars_append (hlead : ∀ c ∈ lead, isBlank c = true)
    (htail : ∀ c ∈ tail, isBlank c = true) :
    trimChars (lead ++ cs ++ tail) = trimChars cs := by
  rw [trimChars_eq, trimChars_eq, List.append_assoc, List.dropWhile_append_of_pos hlead,
    List.dropWhile_append]
  split
  · next hempty =>
    -- All of the text is blank, and so is what follows it.
    rw [List.isEmpty_iff.1 hempty, List.dropWhile_eq_nil_iff.2 htail]
  · exact rdropWhile_append_blanks _ htail

/-- What is trimmed are blanks at either end. -/
theorem exists_trimChars (cs : List Char) : ∃ lead tail, (∀ c ∈ lead, isBlank c = true) ∧
    (∀ c ∈ tail, isBlank c = true) ∧ cs = lead ++ trimChars cs ++ tail := by
  refine ⟨cs.takeWhile isBlank, (cs.dropWhile isBlank).rtakeWhile isBlank,
    fun c hc => List.mem_takeWhile_imp hc, fun c hc => List.mem_rtakeWhile_imp hc, ?_⟩
  rw [trimChars_eq, List.append_assoc, List.rdropWhile_append_rtakeWhile,
    List.takeWhile_append_dropWhile]

theorem trimChars_dropWhile (cs : List Char) :
    trimChars (cs.dropWhile isBlank) = trimChars cs := by
  rw [trimChars_eq, trimChars_eq, List.dropWhile_idempotent]

theorem trimChars_rdropWhile (cs : List Char) :
    trimChars (cs.rdropWhile isBlank) = trimChars cs := by
  have htail : ∀ c ∈ cs.rtakeWhile isBlank, isBlank c = true :=
    fun c hc => List.mem_rtakeWhile_imp hc
  have htrim : trimChars ([] ++ cs.rdropWhile isBlank ++ cs.rtakeWhile isBlank) =
      trimChars (cs.rdropWhile isBlank) := trimChars_append (by simp) htail
  rw [List.nil_append, List.rdropWhile_append_rtakeWhile] at htrim
  exact htrim.symm

/-- Dropping from the front stops at a visible character at the latest. -/
theorem dropWhile_append_cons (before after : List Char) {c : Char} (hc : isBlank c = false) :
    (before ++ c :: after).dropWhile isBlank = before.dropWhile isBlank ++ c :: after := by
  rw [List.dropWhile_append]
  split
  · next hempty => simp [List.isEmpty_iff.1 hempty, hc]
  · rfl

theorem rdropWhile_append_cons (before after : List Char) {c : Char} (hc : isBlank c = false) :
    (before ++ c :: after).rdropWhile isBlank = before ++ c :: after.rdropWhile isBlank := by
  rw [List.rdropWhile, List.rdropWhile, List.reverse_append, List.reverse_cons, List.append_assoc,
    List.singleton_append, dropWhile_append_cons _ _ hc]
  simp

/-- At a visible character a text can be cut, and each part trimmed at its end. -/
theorem trimChars_append_cons (before after : List Char) {c : Char} (hc : isBlank c = false) :
    trimChars (before ++ c :: after) =
      before.dropWhile isBlank ++ c :: after.rdropWhile isBlank := by
  rw [trimChars_eq, dropWhile_append_cons _ _ hc, rdropWhile_append_cons _ _ hc]

theorem trimChars_eq_self (h : ∀ c ∈ cs, isBlank c = false) : trimChars cs = cs := by
  have hdrop : ∀ ds : List Char, (∀ c ∈ ds, isBlank c = false) → ds.dropWhile isBlank = ds := by
    intro ds hds
    cases ds with
    | nil => rfl
    | cons c ds => rw [List.dropWhile_cons_of_neg (by simp [hds c List.mem_cons_self])]
  rw [trimChars_eq, hdrop cs h, List.rdropWhile, hdrop _ (by simpa using h), List.reverse_reverse]

end Trimming

/-! ## Splitting -/

section Splitting

variable {separator : Char} {cs part : List Char}

theorem splitFirst?_append (part after : List Char) (h : separator ∉ part) :
    splitFirst? separator (part ++ separator :: after) = some (part, after) := by
  have hpart : ∀ c ∈ part, (c != separator) = true := by
    intro c hc
    rw [bne_iff_ne]
    rintro rfl
    exact h hc
  unfold splitFirst?
  rw [List.dropWhile_append_of_pos hpart, List.takeWhile_append_of_pos hpart]
  simp

theorem splitFirst?_eq_none_iff : splitFirst? separator cs = none ↔ separator ∉ cs := by
  constructor
  · intro h hmem
    obtain ⟨before, after, rfl, hbefore⟩ := List.eq_append_cons_of_mem hmem
    rw [splitFirst?_append before after hbefore] at h
    cases h
  · intro h
    cases hsplit : splitFirst? separator cs with
    | none => rfl
    | some parts =>
      refine absurd ?_ h
      rw [(splitFirst?_eq_some hsplit).1]
      simp

theorem splitAll_eq_singleton (h : separator ∉ cs) : splitAll separator cs = [cs] := by
  induction cs with
  | nil => rfl
  | cons c cs ih =>
    rw [List.mem_cons, not_or] at h
    have hc : (c == separator) = false := beq_false_of_ne (Ne.symm h.1)
    simp [splitAll, hc, ih h.2]

theorem splitAll_append (part cs : List Char) (h : separator ∉ part) :
    splitAll separator (part ++ separator :: cs) = part :: splitAll separator cs := by
  induction part with
  | nil => simp [splitAll]
  | cons c part ih =>
    rw [List.mem_cons, not_or] at h
    have hc : (c == separator) = false := beq_false_of_ne (Ne.symm h.1)
    rw [List.cons_append, splitAll, hc, if_neg (by decide), ih h.2]

/-- A text of two parts. -/
theorem eq_of_splitAll_pair {a b : List Char} (h : splitAll separator cs = [a, b]) :
    cs = a ++ separator :: b := by
  rw [← intercalate_splitAll separator cs, h]
  simp [List.intercalate]

/-- A text of three parts. -/
theorem eq_of_splitAll_triple {a b c : List Char} (h : splitAll separator cs = [a, b, c]) :
    cs = a ++ separator :: (b ++ separator :: c) := by
  rw [← intercalate_splitAll separator cs, h]
  simp [List.intercalate]

end Splitting

end CoordTransform.Text
