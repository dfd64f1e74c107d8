import CoordTransform.Registry
import CoordTransform.Proofs.Transform.WellFormed

/-!
# The Shift Method

An operation method of the simplest kind: it adds a number to a single component, and its backward
map subtracts the number again. In exact arithmetic shifts satisfy every law that is asked of
operations.
-/

namespace CoordTransform.Shift

variable {α : Type} [Scalar α]

/-- The name of the method. -/
def methodName : String := "Shift"

/-- The name of its only parameter. -/
def parameterName : String := "by"

/-- Adding `d`. -/
def operation (d : α) : Operation α where
  method := methodName
  parameters := .ofList [(parameterName, .number d)]
  sourceDim := 1
  targetDim := 1
  forward p := .ok (p.map (· + d))
  backward? := some fun p => .ok (p.map (· - d))

/-- The method. -/
def method : Method α where
  name := methodName
  create ps := do return .operation (operation (← ps.requireNumber parameterName))

/-- The methods of the library and shifts. -/
def registry : Registry α := (Registry.builtin.register method).1

theorem get?_registry : (registry (α := α)).get? methodName = some method := by
  have hkey : (Registry.key (method (α := α)).name == Registry.key methodName) = true :=
    beq_self_eq_true _
  simp only [Registry.get?, registry, Registry.register, Registry.insert, List.find?_cons, hkey]
  rfl

theorem eq_of_get?_registry {name : String} {m : Method α} (h : registry.get? name = some m) :
    m = method ∨ m = Method.matrix := by
  obtain ⟨entry, hentry, rfl⟩ := Option.map_eq_some_iff.1 h
  have hmem := List.mem_of_find?_eq_some hentry
  simp only [registry, Registry.builtin, Registry.register, Registry.insertAliases, method,
    Method.matrix, Registry.insert, Registry.empty, List.foldl_nil, List.mem_cons,
    List.not_mem_nil, or_false] at hmem
  rcases hmem with rfl | rfl
  · exact .inl rfl
  · exact .inr rfl

/-- The method makes the operation again from its parameters. -/
theorem create_parameters (d : α) :
    method.create (operation d).parameters = .ok (.operation (operation d)) := by
  have hfind : (operation d).parameters.requireNumber parameterName = .ok d := by
    simp [Parameters.requireNumber, Parameters.get?, operation, Parameters.ofList, Parameters.set,
      Parameters.setEntry, Parameters.empty, Text.alike]
  exact bind_eq_ok.2 ⟨d, hfind, rfl⟩

/-- The operations of the method. -/
def IsShift (op : Operation α) : Prop := ∃ d, op = operation d

variable {op : Operation α}

theorem IsShift.fits (h : IsShift op) : op.Fits := by
  obtain ⟨d, rfl⟩ := h
  constructor
  · rintro p _ hp ⟨⟩
    exact (List.length_map _).trans hp
  · rintro p _ hp ⟨⟩
    exact (List.length_map _).trans hp

section

variable [Scalar.Exact α]

theorem IsShift.backwardUndoes (h : IsShift op) : op.BackwardUndoes := by
  obtain ⟨d, rfl⟩ := h
  rintro - p _ - ⟨⟩
  simp [Operation.backward, operation, Function.comp_def, add_sub_cancel_right]

theorem IsShift.forwardUndoes (h : IsShift op) : op.ForwardUndoes := by
  obtain ⟨d, rfl⟩ := h
  rintro p _ - ⟨⟩
  simp [operation, Function.comp_def, sub_add_cancel]

/-- Shifts are recognised by their parameters. -/
theorem IsShift.eq_of_same {op' : Operation α} (h : IsShift op) (h' : IsShift op')
    (hsame : op.same op' = true) : op = op' := by
  obtain ⟨d, rfl⟩ := h
  obtain ⟨e, rfl⟩ := h'
  have hde : d = e := by
    simpa [Operation.same, operation, Parameters.same, Parameters.ofList, Parameters.set,
      Parameters.setEntry, Parameters.empty, Parameters.size, ParameterValue.same] using hsame
  rw [hde]

end

end CoordTransform.Shift
