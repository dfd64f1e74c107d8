import CoordTransform.Builder
import CoordTransform.Element.Access
import CoordTransform.Element.OfTransform
import CoordTransform.Element.Parser
import CoordTransform.Transform.Inverse

/-!
# Transforms of Elements

The interpreter builds the transform that an element describes. It recognises four productions by
their keywords, in any case, and makes everything with its builder:

* `PARAM_MT`: the named method, with the parameters of the `PARAMETER` children. Children of
  another keyword and parameters without a value are skipped.
* `CONCAT_MT`: the children one after the other.
* `INVERSE_MT`: the inverse of the only child.
* `PASSTHROUGH_MT`: the only child between one or two counts of copied components.

Parts are built from left to right, and the first fault ends the interpretation. What the builder
pooled before a fault stays in the pool.
-/

namespace CoordTransform

/-- A builder with the trailing count of pass-throughs that do not write one. -/
structure Interpreter (α : Type) where
  builder : Builder α
  impliedTrailing : Nat := 0

/-- A computation of the interpreter. -/
abbrev Interpretation (α : Type) := ExceptT (ElementError α) (StateM (Pool α))

namespace Interpreter

/-! ## Steps of an interpretation -/

section

variable {α β : Type}

/-- A step of the builder. -/
def ofBuild (b : Build α β) : Interpretation α β := fun pool =>
  match b pool with
  | (.ok x, pool) => (.ok x, pool)
  | (.error e, pool) => (.error (.transform e), pool)

/-- A step that does not use the pool. -/
def ofExcept (r : Except (ElementError α) β) : Interpretation α β := ExceptT.mk (pure r)

end

variable {α : Type} [Scalar α]

/-! ## Parameters -/

/-- The value of a literal; a word counts as a text. -/
def parameterValue : Literal α → ParameterValue α
  | .number v => .number v
  | .text s => .text s
  | .word s => .text s

/-- The named value of a parameter element; `none` when it has no value. -/
def parameter? (e : Element α) :
    Except (ElementError α) (Option (String × ParameterValue α)) :=
  match e.literals with
  | _ :: value :: _ => do return some (← e.quotedText 0, parameterValue value)
  | _ => .ok none

/-- The parameters among the children of an element, set one after the other. -/
def parameters (e : Element α) : Except (ElementError α) (Parameters α) := do
  let ps ← (e.children.filter (·.is Element.parameterKeyword)).mapM parameter?
  return .ofList (ps.filterMap id)

/-! ## Productions -/

/-- A child that must be a transform. -/
def requireTransform (parent child : Element α) (r : Option (Transform α)) :
    Interpretation α (Transform α) :=
  match r with
  | some t => pure t
  | none => throw (parent.malformed (.notTransform child.keyword child.offset))

/-- The transform of a method with parameters. -/
def operation (i : Interpreter α) (e : Element α) : Interpretation α (Transform α) := do
  let name ← ofExcept (e.quotedText 0)
  let ps ← ofExcept (parameters e)
  ofBuild (i.builder.create name ps)

/-- The counts of a pass-through. -/
def counts (i : Interpreter α) (e : Element α) : Except (ElementError α) (Nat × Nat) := do
  let leading ← e.natural 0
  match e.literals.length with
  | 1 => return (leading, i.impliedTrailing)
  | 2 => return (leading, ← e.natural 1)
  | n => throw (e.malformed (.countsExpected n))

/-- The inverse of a transform. -/
def inverse (t : Transform α) : Interpretation α (Transform α) :=
  ofExcept (t.inverse.mapError fun e => .transform e.asNonInvertible)

mutual

/-- The transform of an element; `none` when its keyword is not one of a transform. -/
def transformOf (i : Interpreter α) : Element α → Interpretation α (Option (Transform α))
  | .node keyword offset literals children => do
    let e : Element α := .node keyword offset literals children
    if e.is Element.operationKeyword then return some (← i.operation e)
    else if e.is Element.concatenationKeyword then
      match children with
      | [] => throw (e.malformed .transformsExpected)
      | c :: cs =>
        let first ← requireTransform e c (← i.transformOf c)
        return some (← i.concatenateAll e first cs)
    else if e.is Element.inverseKeyword then
      match children with
      | [c] =>
        let t ← requireTransform e c (← i.transformOf c)
        return some (← inverse t)
      | cs => throw (e.malformed (.oneTransformExpected cs.length))
    else if e.is Element.passThroughKeyword then
      let (leading, trailing) ← ofExcept (i.counts e)
      match children with
      | [c] =>
        let t ← requireTransform e c (← i.transformOf c)
        return some (← ofBuild (i.builder.passThrough leading t trailing))
      | cs => throw (e.malformed (.oneTransformExpected cs.length))
    else return none

/-- The concatenation of a transform with those of further children. -/
def concatenateAll (i : Interpreter α) (parent : Element α) (first : Transform α) :
    List (Element α) → Interpretation α (Transform α)
  | [] => pure first
  | c :: cs => do
    let second ← requireTransform parent c (← i.transformOf c)
    let both ← ofBuild (i.builder.concatenate first second)
    i.concatenateAll parent both cs

end

/-! ## Texts -/

/-- The transform of a whole text. -/
def parse {α : Type} [Numeral α] (i : Interpreter α) (text : String) :
    Interpretation α (Transform α) := do
  let e ← ofExcept (Element.parse text)
  match ← i.transformOf e with
  | some t => return t
  | none => throw (.unexpectedKeyword e.keyword e.offset)

end Interpreter

end CoordTransform
