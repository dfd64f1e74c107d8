import CoordTransform.Registry
import CoordTransform.Proofs.Transform.WellFormed

/-!
# Two Methods of One Name

Methods are found by any of their names, but an operation is the same as another one when the
methods have the same name and the parameters are the same. So two methods may share a name, each
be found by a further name, and make operations that are the same and yet differ in their maps and
dimensions. A pool mistakes them for each other.

Here each of the two methods adds a number to every component, and the backward map subtracts it
again: taken by themselves, the operations satisfy every law that is asked of operations.
-/

namespace CoordTransform.Namesake

variable {α : Type} [Scalar α]

/-- Adding `d` to each of `n` components. -/
def operation (n : Nat) (d : α) (ps : Parameters α) : Operation α where
  method := "Step"
  parameters := ps
  sourceDim := n
  targetDim := n
  forward p := .ok (p.map (· + d))
  backward? := some fun p => .ok (p.map (· - d))

/-- A step without parameters. -/
def step (n : Nat) (d : α) : Transform α := .operation (operation n d .empty)

/-- The method of these operations, with a further name of its own. -/
def method (furtherName : String) (n : Nat) (d : α) : Method α where
  name := "Step"
  aliases := [furtherName]
  create ps := .ok (.operation (operation n d ps))

/-- The methods of the library, steps by one of single numbers, and steps by two of `n` numbers. -/
def registry (n : Nat) : Registry α :=
  ((Registry.builtin.register (method "Step_v1" 1 1)).1.register (method "Step_v2" n (1 + 1))).1

theorem get?_first (n : Nat) :
    (registry (α := α) n).get? "Step_v1" = some (method "Step_v1" 1 1) := by
  have hname : (Registry.key "Step" == Registry.key "Step_v1") = false := by decide +kernel
  have hsecond : (Registry.key "Step_v2" == Registry.key "Step_v1") = false := by decide +kernel
  simp only [Registry.get?, registry, Registry.register, Registry.insertAliases, Registry.insert,
    method, List.foldl_cons, List.foldl_nil, List.find?_cons, hname, hsecond, beq_self_eq_true,
    Option.map_some]

theorem get?_second (n : Nat) :
    (registry (α := α) n).get? "Step_v2" = some (method "Step_v2" n (1 + 1)) := by
  have hname : (Registry.key "Step" == Registry.key "Step_v2") = false := by decide +kernel
  simp only [Registry.get?, registry, Registry.register, Registry.insertAliases, Registry.insert,
    method, List.foldl_cons, List.foldl_nil, List.find?_cons, hname, beq_self_eq_true,
    Option.map_some]

theorem eq_of_get?_registry {n : Nat} {name : String} {m : Method α}
    (h : (registry n).get? name = some m) :
    m = method "Step_v1" 1 1 ∨ m = method "Step_v2" n (1 + 1) ∨ m = Method.matrix := by
  obtain ⟨entry, hentry, rfl⟩ := Option.map_eq_some_iff.1 h
  -- Every answer stands in the table, under the name or under the alias of a method.
  have hmem := List.mem_of_find?_eq_some hentry
  simp only [registry, Registry.builtin, Registry.register, Registry.insertAliases, method,
    Method.matrix, Registry.insert, Registry.empty, List.foldl_nil, List.foldl_cons, List.mem_cons,
    List.not_mem_nil, or_false] at hmem
  rcases hmem with rfl | rfl | rfl | rfl | rfl
  · exact .inr (.inl rfl)
  · exact .inr (.inl rfl)
  · exact .inl rfl
  · exact .inl rfl
  · exact .inr (.inr rfl)

/-- The operations of such methods. -/
def IsStep (op : Operation α) : Prop := ∃ n d ps, op = operation n d ps

variable {op : Operation α}

theorem IsStep.fits (h : IsStep op) : op.Fits := by
  obtain ⟨n, d, ps, rfl⟩ := h
  constructor
  · rintro p _ hp ⟨⟩
    exact (List.length_map _).trans hp
  · rintro p _ hp ⟨⟩
    exact (List.length_map _).trans hp

variable [Scalar.Exact α]

theorem IsStep.backwardUndoes (h : IsStep op) : op.BackwardUndoes := by
  obtain ⟨n, d, ps, rfl⟩ := h
  rintro - p _ - ⟨⟩
  simp [Operation.backward, operation, Function.comp_def, add_sub_cancel_right]

theorem IsStep.forwardUndoes (h : IsStep op) : op.ForwardUndoes := by
  obtain ⟨n, d, ps, rfl⟩ := h
  rintro p _ - ⟨⟩
  simp [operation, Function.comp_def, sub_add_cancel]

end CoordTransform.Namesake
