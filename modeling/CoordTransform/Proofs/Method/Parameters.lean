import Mathlib
import CoordTransform.Parameters

/-!
# Names of Parameters

No two names of a parameter list that was made by setting are alike. Setting the entries of such a
list again, one after the other, gives the list back.
-/

namespace CoordTransform.Parameters

variable {α : Type}

/-- No two of the names are alike. -/
def Distinct (es : List (String × ParameterValue α)) : Prop :=
  es.Pairwise fun e e' => Text.alike e.1 e'.1 = false

/-- A new name is added at the end. -/
theorem setEntry_of_new {name : String} (value : ParameterValue α)
    {es : List (String × ParameterValue α)} (h : ∀ e ∈ es, Text.alike e.1 name = false) :
    setEntry name value es = es ++ [(name, value)] := by
  induction es with
  | nil => rfl
  | cons e es ih =>
    rw [setEntry, h e List.mem_cons_self, if_neg (by decide),
      ih fun e' he' => h e' (List.mem_cons_of_mem e he')]
    rfl

/-- Setting a name leaves the names as they are or adds one that is like no other. -/
theorem names_setEntry (name : String) (value : ParameterValue α)
    (es : List (String × ParameterValue α)) :
    (setEntry name value es).map Prod.fst = es.map Prod.fst ∨
      setEntry name value es = es ++ [(name, value)] ∧
        ∀ e ∈ es, Text.alike e.1 name = false := by
  induction es with
  | nil => exact .inr ⟨rfl, fun e he => nomatch he⟩
  | cons e es ih =>
    rw [setEntry]
    split
    · -- The name is like this one, which keeps its spelling.
      exact .inl rfl
    · -- The name is new here, and the rest decides.
      next hne =>
      rw [Bool.not_eq_true] at hne
      rcases ih with hnames | ⟨hlast, hnew⟩
      · exact .inl (by rw [List.map_cons, hnames, List.map_cons])
      · refine .inr ⟨by rw [hlast, List.cons_append], fun e' he' => ?_⟩
        rcases List.mem_cons.1 he' with rfl | he'
        · exact hne
        · exact hnew e' he'

theorem distinct_iff_names {es : List (String × ParameterValue α)} :
    Distinct es ↔ (es.map Prod.fst).Pairwise fun s t => Text.alike s t = false := by
  rw [List.pairwise_map]
  rfl

/-- A parameter is found under its name. -/
theorem Distinct.find?_of_mem {es : List (String × ParameterValue α)} (h : Distinct es)
    {e : String × ParameterValue α} (he : e ∈ es) :
    es.find? (fun e' => Text.alike e'.1 e.1) = some e := by
  induction es with
  | nil => cases he
  | cons e' es ih =>
    obtain ⟨hhead, htail⟩ := List.pairwise_cons.1 h
    rcases List.mem_cons.1 he with rfl | he
    · exact List.find?_cons_of_pos (beq_self_eq_true _)
    · rw [List.find?_cons_of_neg (by rw [hhead e he]; decide)]
      exact ih htail he

theorem Distinct.setEntry {es : List (String × ParameterValue α)} (h : Distinct es)
    (name : String) (value : ParameterValue α) : Distinct (setEntry name value es) := by
  rcases names_setEntry name value es with hnames | ⟨hlast, hnew⟩
  · rwa [distinct_iff_names, hnames, ← distinct_iff_names]
  · rw [hlast]
    refine List.pairwise_append.2 ⟨h, List.pairwise_singleton _ _, fun e he e' he' => ?_⟩
    rw [List.mem_singleton.1 he']
    exact hnew e he

theorem distinct_foldl_set (es : List (String × ParameterValue α)) {ps : Parameters α}
    (h : Distinct ps.entries) : Distinct (es.foldl (fun ps e => ps.set e.1 e.2) ps).entries := by
  induction es generalizing ps with
  | nil => exact h
  | cons e es ih => exact ih (h.setEntry e.1 e.2)

theorem distinct_ofList (es : List (String × ParameterValue α)) : Distinct (ofList es).entries :=
  distinct_foldl_set es List.Pairwise.nil

theorem foldl_set_of_distinct {es : List (String × ParameterValue α)} {ps : Parameters α}
    (h : Distinct (ps.entries ++ es)) :
    es.foldl (fun ps e => ps.set e.1 e.2) ps = ⟨ps.entries ++ es⟩ := by
  induction es generalizing ps with
  | nil => rw [List.append_nil]; rfl
  | cons e es ih =>
    -- The next name is new to those before it, so it is added at the end.
    have hnew : ∀ e' ∈ ps.entries, Text.alike e'.1 e.1 = false := fun e' he' =>
      (List.pairwise_append.1 h).2.2 e' he' e List.mem_cons_self
    have hset : ps.set e.1 e.2 = ⟨ps.entries ++ [e]⟩ :=
      congrArg Parameters.mk (setEntry_of_new e.2 hnew)
    rw [List.foldl_cons, hset, ih (by rwa [List.append_assoc, List.singleton_append]),
      List.append_assoc, List.singleton_append]

/-- Distinct names are kept as they are. -/
theorem ofList_of_distinct {es : List (String × ParameterValue α)} (h : Distinct es) :
    ofList es = ⟨es⟩ :=
  foldl_set_of_distinct (show Distinct ((empty : Parameters α).entries ++ es) from h)

/-- Setting the entries of a list again gives the list back. -/
theorem ofList_entries_ofList (es : List (String × ParameterValue α)) :
    ofList (ofList es).entries = ofList es :=
  ofList_of_distinct (distinct_ofList es)

end CoordTransform.Parameters
