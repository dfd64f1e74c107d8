import CoordTransform.Proofs.Element.Acceptance
import CoordTransform.Proofs.Method.Settings
import CoordTransform.Scalar.Double

/-!
# Parameters That Are Given Twice

The parameter children of an operation are settings, one after the other in the order of the text.
So the method gets what a run of settings leaves behind: the value of the last child with a name,
under the first spelling of the name. A value that a later child overwrites has no influence, on the
transform, on an error or on the pool.
-/

namespace CoordTransform

variable {α : Type}

/-! ## Children as settings -/

namespace Element

/-- The settings among the children, in the order of the text. -/
def settings (e : Element α) : List (String × ParameterValue α) :=
  (e.children.filter (·.is parameterKeyword)).filterMap collected?

/-- A parameter with a name and a value. -/
def Gives (c : Element α) (name : String) (value : ParameterValue α) : Prop :=
  c.is parameterKeyword = true ∧ c.collected? = some (name, value)

theorem records_collected (e : Element α) : e.collected.Records e.settings :=
  Parameters.records_ofList e.settings

theorem Gives.named {c : Element α} {name : String} {value : ParameterValue α}
    (h : c.Gives name value) : c.Named := by
  intro _
  have hcollected := h.2
  unfold collected? at hcollected
  split at hcollected
  · next name' _ _ hliterals => exact ⟨name', by rw [hliterals]; rfl⟩
  · cases hcollected

end Element

namespace Interpreter

open Element

variable {before after : List (Element α)} {c c' : Element α} {name : String}
  {value value' : ParameterValue α}

theorem parameter?_of_gives (h : c.Gives name value) : parameter? c = .ok (some (name, value)) :=
  parameter?_eq_ok_iff.2 ⟨h.named, h.2⟩

/-- A value that a later child overwrites does not reach the parameters. The faults of other
children are met all the same. -/
theorem parameters_eq_of_overwritten (keyword : String) (offset : Nat)
    (literals : List (Literal α)) (hc : c.Gives name value) (hc' : c'.Gives name value')
    (h : ∃ d ∈ after, ∃ name' last, d.Gives name' last ∧ Text.alike name' name = true) :
    parameters (.node keyword offset literals (before ++ c :: after)) =
      parameters (.node keyword offset literals (before ++ c' :: after)) := by
  unfold parameters
  simp only [children, List.filter_append, List.filter_cons, hc.1, hc'.1, if_true,
    List.mapM_append, List.mapM_cons, parameter?_of_gives hc, parameter?_of_gives hc']
  cases (before.filter (·.is parameterKeyword)).mapM parameter? with
  | error e => rfl
  | ok rs =>
    cases hafter : (after.filter (·.is parameterKeyword)).mapM parameter? with
    | error e => rfl
    | ok rs' =>
      refine congrArg Except.ok ?_
      rw [List.filterMap_append, List.filterMap_append]
      refine Parameters.ofList_of_overwritten value value' ?_
      -- The later child is among the settings that follow.
      obtain ⟨d, hd, name', last, hgives, hlike⟩ := h
      refine ⟨(name', last), List.mem_filterMap.2 ⟨some (name', last), ?_, rfl⟩, hlike⟩
      rw [← (mapM_parameter?_eq_ok_iff.1 hafter).2]
      exact List.mem_map.2 ⟨d, List.mem_filter.2 ⟨hd, hgives.1⟩, hgives.2⟩

variable [Scalar α] {i : Interpreter α} {e : Element α}

/-- An element of an operation is its operation. -/
theorem transformOf_of_operationKeyword (h : e.is operationKeyword = true) :
    i.transformOf e = (do return some (← i.operation e)) := by
  obtain ⟨keyword, offset, literals, children⟩ := e
  rw [transformOf.eq_def]
  exact if_pos h

/-- A method gets the parameters that were collected. -/
theorem operation_of_named (hname : e.literals[0]? = some (.text name))
    (hnamed : ∀ c ∈ e.children, c.is parameterKeyword = true → c.Named) :
    i.operation e = ofBuild (i.builder.create name e.collected) := by
  unfold operation
  rw [quotedText_eq_ok_iff.2 hname, parameters_eq_ok_iff.2 ⟨hnamed, rfl⟩]
  rfl

theorem transformOf_of_overwritten (i : Interpreter α) {keyword : String} {offset : Nat}
    {literals : List (Literal α)} (hc : c.Gives name value) (hc' : c'.Gives name value')
    (hafter : ∃ d ∈ after, ∃ name' last, d.Gives name' last ∧ Text.alike name' name = true)
    (h : (node keyword offset literals (before ++ c :: after)).is operationKeyword = true) :
    i.transformOf (.node keyword offset literals (before ++ c :: after)) =
      i.transformOf (.node keyword offset literals (before ++ c' :: after)) := by
  have h' : (node keyword offset literals (before ++ c' :: after)).is operationKeyword = true := h
  rw [transformOf_of_operationKeyword h, transformOf_of_operationKeyword h', operation, operation,
    parameters_eq_of_overwritten keyword offset literals hc hc' hafter]
  rfl

end Interpreter

/-! ## The main result -/

namespace Parameters

open Element

/-- A run of settings leaves behind an ordered map from names without case. Lists are equal when
they have the same spellings in the same order with identical values, bit by bit for doubles. The
settings of an operation are its parameter children, so that its method gets the value of the last
child with a name, and a child before that one may have any other value. -/
theorem ofList_orderedMap [Scalar α] (sets : List (String × ParameterValue α)) :
    (ofList sets).Records sets ∧
    (∀ ps qs : Parameters α, ps.same qs = true ↔
      List.Forall₂ (fun e f => e.1 = f.1 ∧ e.2.Identical f.2) ps.entries qs.entries) ∧
    (∀ x y : Float, (ParameterValue.number x).Identical (.number y) ↔ x.toBits = y.toBits) ∧
    ∀ i : Interpreter α,
      (∀ (e : Element α) (name : String), e.is operationKeyword = true →
        e.literals[0]? = some (.text name) →
        (∀ c ∈ e.children, c.is parameterKeyword = true → c.Named) →
        ∃ ps : Parameters α, ps.Records e.settings ∧
          i.transformOf e = (do return some (← Interpreter.ofBuild (i.builder.create name ps)))) ∧
      ∀ (keyword : String) (offset : Nat) (literals : List (Literal α))
        (before after : List (Element α)) (c c' : Element α) (name : String)
        (value value' : ParameterValue α), c.Gives name value → c'.Gives name value' →
        (∃ d ∈ after, ∃ name' last, d.Gives name' last ∧ Text.alike name' name = true) →
        (node keyword offset literals (before ++ c :: after)).is operationKeyword = true →
        i.transformOf (.node keyword offset literals (before ++ c :: after)) =
          i.transformOf (.node keyword offset literals (before ++ c' :: after)) := by
  refine ⟨records_ofList sets, fun ps qs => same_iff_forall₂, fun x y => ?_, fun i =>
    ⟨fun e name hkeyword hname hnamed => ⟨e.collected, e.records_collected, ?_⟩,
      fun _ _ _ _ _ _ _ _ _ _ hc hc' hafter h =>
        i.transformOf_of_overwritten hc hc' hafter h⟩⟩
  · -- Doubles are identical when their bits are.
    rw [← ParameterValue.same_iff_identical]
    exact beq_iff_eq
  · -- The settings that the interpreter collects are the run of the settings of the element.
    rw [Interpreter.transformOf_of_operationKeyword hkeyword,
      Interpreter.operation_of_named hname hnamed]

/-- An operation that gives a parameter twice, in two spellings. -/
def repeating (first : Literal Float) : Element Float :=
  .make operationKeyword [.text "Affine"]
    [.make parameterKeyword [.text "elt_0_2", first] [],
      .make parameterKeyword [.text "num_row", .number 3] [],
      .make parameterKeyword [.text "ELT_0_2", .number 7] []]

/-- An interpreter with the built-in method. -/
def matrixInterpreter : Interpreter Float := ⟨⟨.builtin, {}⟩, 0⟩

/-- Three settings of two names. The method gets the repeated one under its first spelling and with
its last value, so a first value that is no number does no harm. Zeros of either sign differ. -/
theorem ofList_orderedMap_repeating :
    (ofList (repeating (.number 1)).settings).size = 2 ∧
    (∃ ps : Parameters Float, ps.entries.map Prod.fst = ["elt_0_2", "num_row"] ∧
      ps.get? "Elt_0_2" = some (.number 7) ∧
      matrixInterpreter.transformOf (repeating (.number 1)) =
        (do return some (← Interpreter.ofBuild (matrixInterpreter.builder.create "Affine" ps)))) ∧
    matrixInterpreter.transformOf (repeating (.number 1)) =
      matrixInterpreter.transformOf (repeating (.text "wide")) ∧
    (ofList [("dx", .number (0 : Float))]).same (ofList [("dx", .number (-0))]) = false := by
  obtain ⟨hrecords, hsame, hbits, hinterpreter⟩ :=
    ofList_orderedMap (repeating (.number 1)).settings
  have hkeyword (first : Literal Float) : (repeating first).is operationKeyword = true :=
    beq_self_eq_true _
  have hnamed : ∀ c ∈ (repeating (.number 1)).children, c.is parameterKeyword = true → c.Named := by
    simp only [repeating, children, make, List.forall_mem_cons]
    exact ⟨fun _ _ => ⟨_, rfl⟩, fun _ _ => ⟨_, rfl⟩, fun _ _ => ⟨_, rfl⟩, by simp⟩
  refine ⟨hrecords.size_eq.trans (by decide +kernel), ?_, ?_, ?_⟩
  · -- The first spelling of the repeated name stays, and its value is that of the last child.
    obtain ⟨ps, hps, htransform⟩ :=
      (hinterpreter matrixInterpreter).1 _ "Affine" (hkeyword _) rfl hnamed
    refine ⟨ps, hps.names_eq.trans ?_, (hps.get?_eq _).trans ?_, htransform⟩
    · decide +kernel
    · rfl
  · -- The third child names the first one's parameter again, in other letters.
    exact (hinterpreter matrixInterpreter).2 _ _ _ [] [_, _] _ _ "elt_0_2" (.number 1)
      (.text "wide") ⟨beq_self_eq_true _, rfl⟩ ⟨beq_self_eq_true _, rfl⟩
      ⟨_, List.mem_cons_of_mem _ List.mem_cons_self, "ELT_0_2", .number 7,
        ⟨beq_self_eq_true _, rfl⟩, by decide +kernel⟩ (hkeyword _)
  · -- Equal lists would make the two zeros identical.
    rw [← Bool.not_eq_true, hsame]
    intro h
    cases h with
    | cons hentry _ => exact absurd ((hbits _ _).1 hentry.2) (by decide +kernel)

end Parameters

end CoordTransform
