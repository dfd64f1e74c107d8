import CoordTransform.DenseMatrix.InPlace
import CoordTransform.Proofs.Computation
import CoordTransform.Proofs.Matrix.Algebra
import CoordTransform.Proofs.Matrix.Inverse

/-!
# Operations in Place, Write by Write

An operation in place answers the new content of its place. How the content gets there is a
sequence of reads, checks and writes on a store of matrices, and a check that came after a write
could leave a place half-written. Here the sequences are spelled out, and every one of them does
what the operation answers, all of it or nothing:

* the raw operations on entries never meet shapes that do not fit;
* the place gets the result of the operation that makes a new matrix, and only when the result has
  the shape of the place;
* when a sequence fails, the store is what it was.

The place is no operand: `Action` takes its operands from the matrices other than the place.
-/

namespace CoordTransform.DenseMatrix

variable {α μ ι : Type}

/-! ## Actions -/

/-- An operation in place, on operands of any kind. The last four have the place as their first
operand. -/
inductive Action (μ : Type) where
  | transposeInto (m : μ)
  | invertInto (m : μ)
  | multiplyInto (m n : μ)
  | addInto (m n : μ)
  | transposeSelf
  | invertSelf
  | multiplySelf (n : μ)
  | addSelf (n : μ)

/-- The same operation on the operands that stand behind names. -/
def Action.map {ν : Type} (f : μ → ν) : Action μ → Action ν
  | transposeInto m => transposeInto (f m)
  | invertInto m => invertInto (f m)
  | multiplyInto m n => multiplyInto (f m) (f n)
  | addInto m n => addInto (f m) (f n)
  | transposeSelf => transposeSelf
  | invertSelf => invertSelf
  | multiplySelf n => multiplySelf (f n)
  | addSelf n => addSelf (f n)

/-! ## Checks -/

/-- Equal numbers of rows and of columns. -/
def SameShape (m n : DenseMatrix α) : Prop := m.rows = n.rows ∧ m.cols = n.cols

variable {l m n place x : DenseMatrix α} {rows cols : Nat}

theorem SameShape.refl (m : DenseMatrix α) : m.SameShape m := ⟨rfl, rfl⟩

theorem SameShape.symm (h : m.SameShape n) : n.SameShape m := ⟨h.1.symm, h.2.symm⟩

theorem SameShape.trans (h : l.SameShape m) (h' : m.SameShape n) : l.SameShape n :=
  ⟨h.1.trans h'.1, h.2.trans h'.2⟩

theorem checkThen_eq_ok {ε β : Type} {check : Except ε Unit} {rest : Except ε β} {b : β} :
    (do check; rest) = .ok b ↔ check = .ok () ∧ rest = .ok b := by
  rw [bind_eq_ok]
  exact ⟨fun ⟨_, hcheck, hrest⟩ => ⟨hcheck, hrest⟩, fun ⟨hcheck, hrest⟩ => ⟨(), hcheck, hrest⟩⟩

theorem requireShape_eq_ok :
    place.requireShape rows cols = .ok () ↔ place.rows = rows ∧ place.cols = cols := by
  simp [requireShape]

theorem requireShapeOf_eq_ok : m.requireShapeOf n = .ok () ↔ m.SameShape n := by
  simp [requireShapeOf, sameShape, SameShape]

theorem badFactor_eq_false :
    (!n.isSquare || n.rows != m.cols) = false ↔ n.rows = n.cols ∧ n.rows = m.cols := by
  simp [isSquare]

theorem requireSquare_eq_ok : m.requireSquare = .ok () ↔ m.rows = m.cols := by
  simp [requireSquare, isSquare]

section

variable [Scalar α]

/-! ## Answers and new matrices -/

theorem sameShape_inverse (h : m.inverse = .ok x) : x.SameShape m := by
  obtain ⟨hsquare, hrows, hcols⟩ := shape_inverse h
  exact ⟨hrows, hcols.trans hsquare⟩

theorem add_eq_ok : m.add n = .ok x ↔
    m.SameShape n ∧ .ofFn m.rows m.cols (fun r c => m.entry r c + n.entry r c) = x := by
  rw [add, checkThen_eq_ok, requireShapeOf_eq_ok]
  exact and_congr_right fun _ => ⟨fun h => by cases h; rfl, fun h => by rw [h]; rfl⟩

theorem sameShape_add (h : m.add n = .ok x) : x.SameShape m := by
  obtain ⟨-, rfl⟩ := add_eq_ok.1 h
  exact ⟨rfl, rfl⟩

theorem multiply_eq_ok_iff : m.multiply n = .ok x ↔ m.cols = n.rows ∧ m.product n = x := by
  unfold multiply
  split
  · next h => simp [bne_iff_ne.1 h]
  · next h => simp [(bne_eq_false_iff_eq).1 (Bool.not_eq_true _ ▸ h)]

theorem transposeInto_eq_ok :
    m.transposeInto place = .ok x ↔ m.transpose = x ∧ x.SameShape place := by
  rw [transposeInto, checkThen_eq_ok, requireShape_eq_ok]
  constructor
  · rintro ⟨hplace, ⟨⟩⟩
    exact ⟨rfl, .symm hplace⟩
  · rintro ⟨rfl, hx⟩
    exact ⟨hx.symm, rfl⟩

theorem invertInto_eq_ok :
    m.invertInto place = .ok x ↔ m.inverse = .ok x ∧ x.SameShape place := by
  rw [invertInto, checkThen_eq_ok, requireShape_eq_ok]
  constructor
  · rintro ⟨hplace, h⟩
    exact ⟨h, (sameShape_inverse h).trans (.symm hplace)⟩
  · rintro ⟨h, hx⟩
    exact ⟨hx.symm.trans (sameShape_inverse h), h⟩

theorem multiplyInto_eq_ok :
    m.multiplyInto n place = .ok x ↔ m.multiply n = .ok x ∧ x.SameShape place := by
  rw [multiplyInto, bind_eq_ok]
  constructor
  · rintro ⟨p, hp, h⟩
    obtain ⟨hplace, ⟨⟩⟩ := checkThen_eq_ok.1 h
    exact ⟨hp, .symm (requireShape_eq_ok.1 hplace)⟩
  · rintro ⟨h, hx⟩
    exact ⟨x, h, checkThen_eq_ok.2 ⟨requireShape_eq_ok.2 hx.symm, rfl⟩⟩

theorem addInto_eq_ok :
    m.addInto n place = .ok x ↔ m.add n = .ok x ∧ x.SameShape place := by
  rw [addInto, checkThen_eq_ok, checkThen_eq_ok, requireShapeOf_eq_ok, requireShapeOf_eq_ok]
  constructor
  · rintro ⟨-, hplace, h⟩
    exact ⟨h, (sameShape_add h).trans hplace⟩
  · rintro ⟨h, hx⟩
    exact ⟨(add_eq_ok.1 h).1, (sameShape_add h).symm.trans hx, h⟩

/-- Only a square matrix has the shape of its transpose. -/
theorem transposeSelf_eq_ok : m.transposeSelf = .ok x ↔ m.transpose = x ∧ x.SameShape m := by
  rw [transposeSelf, checkThen_eq_ok, requireSquare_eq_ok]
  constructor
  · rintro ⟨hsquare, ⟨⟩⟩
    exact ⟨rfl, hsquare.symm, hsquare⟩
  · rintro ⟨rfl, -, hsquare⟩
    exact ⟨hsquare, rfl⟩

/-- Only a square second factor keeps the shape of the first one. -/
theorem multiplySelf_eq_ok :
    m.multiplySelf n = .ok x ↔ m.multiply n = .ok x ∧ x.SameShape m := by
  rw [multiply_eq_ok_iff]
  unfold multiplySelf
  constructor
  · -- What was accepted is the product, and a square factor keeps the number of columns.
    intro h
    split at h
    · cases h
    · next hfactor =>
      obtain ⟨hsquare, hrows⟩ := badFactor_eq_false.1 (Bool.not_eq_true _ ▸ hfactor)
      cases h
      exact ⟨⟨hrows.symm, rfl⟩, rfl, hsquare.symm.trans hrows⟩
  · -- A product of the same shape has a square factor.
    rintro ⟨⟨hrows, rfl⟩, -, hcols⟩
    have hcols : n.cols = m.cols := hcols
    rw [badFactor_eq_false.2 ⟨hrows.symm.trans hcols.symm, hrows.symm⟩]
    rfl

namespace Action

/-- The new content of the place. -/
def answer (place : DenseMatrix α) :
    Action (DenseMatrix α) → Except (TransformError α) (DenseMatrix α)
  | .transposeInto m => m.transposeInto place
  | .invertInto m => m.invertInto place
  | .multiplyInto m n => m.multiplyInto n place
  | .addInto m n => m.addInto n place
  | .transposeSelf => place.transposeSelf
  | .invertSelf => place.invertSelf
  | .multiplySelf n => place.multiplySelf n
  | .addSelf n => place.addSelf n

/-- The operation that makes a new matrix of the same operands. -/
def twin (place : DenseMatrix α) :
    Action (DenseMatrix α) → Except (TransformError α) (DenseMatrix α)
  | .transposeInto m => .ok m.transpose
  | .invertInto m => m.inverse
  | .multiplyInto m n => m.multiply n
  | .addInto m n => m.add n
  | .transposeSelf => .ok place.transpose
  | .invertSelf => place.inverse
  | .multiplySelf n => place.multiply n
  | .addSelf n => place.add n

/-- An operation in place succeeds when the one that makes a new matrix does, with a result of the
shape of the place, and has the same result. -/
theorem answer_eq_ok (action : Action (DenseMatrix α)) :
    action.answer place = .ok x ↔ action.twin place = .ok x ∧ x.SameShape place := by
  cases action with
  | transposeInto m => rw [twin, Except.ok.injEq]; exact transposeInto_eq_ok
  | invertInto m => exact invertInto_eq_ok
  | multiplyInto m n => exact multiplyInto_eq_ok
  | addInto m n => exact addInto_eq_ok
  | transposeSelf => rw [twin, Except.ok.injEq]; exact transposeSelf_eq_ok
  | invertSelf => exact ⟨fun h => ⟨h, sameShape_inverse h⟩, And.left⟩
  | multiplySelf n => exact multiplySelf_eq_ok
  | addSelf n => exact ⟨fun h => ⟨h, sameShape_add h⟩, And.left⟩

end Action

/-! ## Raw operations

The operations on entries that change a matrix where it is. They check nothing, and have no result
when shapes do not fit. -/

/-- All entries overwritten. -/
def fill? (m place : DenseMatrix α) : Option (DenseMatrix α) :=
  if place.rows = m.rows ∧ place.cols = m.cols then some m else none

/-- Other entries added. -/
def increase? (n place : DenseMatrix α) : Option (DenseMatrix α) :=
  if place.rows = n.rows ∧ place.cols = n.cols then
    some (.ofFn place.rows place.cols fun r c => place.entry r c + n.entry r c)
  else none

/-- Entries exchanged across the diagonal. -/
def flip? (place : DenseMatrix α) : Option (DenseMatrix α) :=
  if place.rows = place.cols then some place.transpose else none

/-- The entries of a product. -/
def times? (n place : DenseMatrix α) : Option (DenseMatrix α) :=
  if place.cols = n.rows then some (place.product n) else none

end

/-! ## Sequences of writes -/

/-- Reads, checks and writes on a store of matrices under names. There is no result when a raw
operation has none; what was written before a failed check stays written. -/
abbrev Writing (ι α : Type) := ExceptT (TransformError α) (StateT (ι → DenseMatrix α) Option)

namespace Writing

variable {β γ : Type} {store : ι → DenseMatrix α} {x : ι}

def read (x : ι) : Writing ι α (DenseMatrix α) := fun store => some (.ok (store x), store)

def check (r : Except (TransformError α) β) : Writing ι α β := fun store => some (r, store)

theorem bind_read (f : DenseMatrix α → Writing ι α γ) :
    (read x >>= f) store = f (store x) store := rfl

theorem bind_check_ok (b : β) (f : β → Writing ι α γ) :
    (check (.ok b) >>= f) store = f b store := rfl

variable [DecidableEq ι]

def put (x : ι) (m : DenseMatrix α) : Writing ι α Unit :=
  fun store => some (.ok (), Function.update store x m)

/-- A raw operation on the matrix under a name. -/
def change (x : ι) (f : DenseMatrix α → Option (DenseMatrix α)) : Writing ι α Unit :=
  fun store => (f (store x)).map fun m => (.ok (), Function.update store x m)

theorem change_eq {f : DenseMatrix α → Option (DenseMatrix α)} {m : DenseMatrix α}
    (h : f (store x) = some m) : change x f store = some (.ok (), Function.update store x m) := by
  rw [change, h]
  rfl

theorem bind_change {g : DenseMatrix α → Option (DenseMatrix α)} {m : DenseMatrix α}
    (h : g (store x) = some m) (f : Unit → Writing ι α γ) :
    (change x g >>= f) store = f () (Function.update store x m) := by
  simp only [bind, ExceptT.bind, ExceptT.mk, StateT.bind, change_eq h]
  rfl

end Writing

section

variable [Scalar α] [DecidableEq ι]

open Writing

/-- The sequence of an operation in the place with a name. -/
def Action.write (place : ι) : Action {x : ι // x ≠ place} → Writing ι α Unit
  | .transposeInto a => do
    let m ← read a
    check ((← read place).requireShape m.cols m.rows)
    change place (fill? m.transpose)
  | .invertInto a => do
    let m ← read a
    check ((← read place).requireShape m.rows m.cols)
    put place (← check m.inverse)
  | .multiplyInto a b => do
    let p ← check ((← read a).multiply (← read b))
    check ((← read place).requireShape p.rows p.cols)
    put place p
  | .addInto a b => do
    let m ← read a
    check (m.requireShapeOf (← read b))
    check (m.requireShapeOf (← read place))
    -- Between these two writes the place holds a part of the result.
    change place (fill? m)
    change place (increase? (← read b))
  | .transposeSelf => do
    check (← read place).requireSquare
    change place flip?
  | .invertSelf => do
    put place (← check (← read place).inverse)
  | .multiplySelf b => do
    let m ← read place
    let n ← read b
    check (if !n.isSquare || n.rows != m.cols then .error (n.shapeError (.exactly m.cols m.cols))
      else .ok ())
    change place (times? n)
  | .addSelf b => do
    let n ← read b
    check ((← read place).requireShapeOf n)
    change place (increase? n)

/-- What is left of an operation: a new content of the place, or an error. -/
def settle (store : ι → DenseMatrix α) (place : ι) :
    Except (TransformError α) (DenseMatrix α) →
      Except (TransformError α) Unit × (ι → DenseMatrix α)
  | .ok m => (.ok (), Function.update store place m)
  | .error e => (.error e, store)

section

variable {place : ι} {store : ι → DenseMatrix α} {shapes : Except (TransformError α) Unit}
  {m : DenseMatrix α}

omit [Scalar α] in
/-- A raw operation behind the check that makes its shapes fit. -/
theorem check_change {f : DenseMatrix α → Option (DenseMatrix α)}
    (h : shapes = .ok () → f (store place) = some m) :
    (do check shapes; change place f : Writing ι α Unit) store =
      some (settle store place (do shapes; return m)) := by
  cases shapes with
  | error e => rfl
  | ok u =>
    rw [bind_check_ok, change_eq (h rfl)]
    rfl

omit [Scalar α] in
/-- A new matrix that is put into the place, once it is computed. -/
theorem check_put (result : Except (TransformError α) (DenseMatrix α)) :
    (do put place (← check result) : Writing ι α Unit) store =
      some (settle store place result) := by
  cases result <;> rfl

/-- The two writes of a sum. The second operand is not the place, so that the first write, which
leaves the place with the first operand, does not reach it. -/
theorem fill_increase {b : ι} (hb : b ≠ place) (hplace : (store place).SameShape m)
    (hoperands : m.SameShape (store b)) :
    (do change place (fill? m); change place (increase? (← read b)) : Writing ι α Unit) store =
      some (.ok (), Function.update store place
        (.ofFn m.rows m.cols fun r c => m.entry r c + (store b).entry r c)) := by
  have hincrease : increase? (store b) (Function.update store place m place) =
      some (.ofFn m.rows m.cols fun r c => m.entry r c + (store b).entry r c) := by
    rw [Function.update_self]
    exact if_pos hoperands
  rw [bind_change (if_pos hplace), bind_read, Function.update_of_ne hb, change_eq hincrease,
    Function.update_idem]

end

/-- A sequence of writes does what its operation answers, and leaves the store alone when the
operation fails: whatever can fail comes before the first write. -/
theorem Action.write_eq (place : ι) (action : Action {x : ι // x ≠ place})
    (store : ι → DenseMatrix α) : action.write place store =
      some (settle store place ((action.map fun a => store a.1).answer (store place))) := by
  cases action with
  | transposeInto a => exact check_change fun h => if_pos (requireShape_eq_ok.1 h)
  | invertInto a =>
    simp only [write, bind_read, map, answer, DenseMatrix.invertInto]
    cases h : (store place).requireShape (store a).rows (store a).cols with
    | error e => rfl
    | ok u => exact check_put _
  | multiplyInto a b =>
    simp only [write, bind_read, map, answer, DenseMatrix.multiplyInto]
    cases h : (store a).multiply (store b) with
    | error e => rfl
    | ok p =>
      simp only [bind_check_ok, bind_read]
      change _ = some (settle store place (do (store place).requireShape p.rows p.cols; pure p))
      cases h' : (store place).requireShape p.rows p.cols with
      | error e => rfl
      | ok u => rfl
  | addInto a b =>
    simp only [write, bind_read, map, answer, DenseMatrix.addInto]
    cases h : (store a).requireShapeOf (store b) with
    | error e => rfl
    | ok u =>
      simp only [bind_check_ok, bind_read]
      cases h' : (store a).requireShapeOf (store place) with
      | error e => rfl
      | ok u' =>
        -- Both checks are passed, so that the sum has the shape of the place.
        have hoperands := requireShapeOf_eq_ok.1 h
        rw [bind_check_ok, fill_increase b.2 (requireShapeOf_eq_ok.1 h').symm hoperands,
          add_eq_ok.2 ⟨hoperands, rfl⟩]
        rfl
  | transposeSelf => exact check_change fun h => if_pos (requireSquare_eq_ok.1 h)
  | invertSelf => exact check_put _
  | multiplySelf b =>
    simp only [write, bind_read, map, answer, DenseMatrix.multiplySelf]
    split
    · rfl
    · next h =>
      obtain ⟨-, hrows⟩ := badFactor_eq_false.1 (Bool.not_eq_true _ ▸ h)
      rw [bind_check_ok, change_eq (if_pos hrows.symm)]
      rfl
  | addSelf b => exact check_change fun h => if_pos (requireShapeOf_eq_ok.1 h)

/-! ## Commands -/

/-- An operation in the place with a name. -/
structure Command (ι : Type) where
  place : ι
  action : Action {x : ι // x ≠ place}

namespace Command

variable (c : Command ι) (store : ι → DenseMatrix α)

/-- The new content of the place. -/
def answer : Except (TransformError α) (DenseMatrix α) :=
  (c.action.map fun a => store a.1).answer (store c.place)

/-- The new matrix of the same operands. -/
def twin : Except (TransformError α) (DenseMatrix α) :=
  (c.action.map fun a => store a.1).twin (store c.place)

/-- The sequence of writes. -/
def run : Writing ι α Unit := c.action.write c.place

theorem run_eq : c.run store = some (settle store c.place (c.answer store)) :=
  c.action.write_eq c.place store

/-- Either the new matrix is in the place, or nothing has changed. -/
theorem run_cases :
    (∃ x, c.answer store = .ok x ∧ c.twin store = .ok x ∧ x.SameShape (store c.place) ∧
        c.run store = some (.ok (), Function.update store c.place x)) ∨
      ∃ e, c.answer store = .error e ∧
        (∀ x, c.twin store = .ok x → ¬x.SameShape (store c.place)) ∧
        c.run store = some (.error e, store) := by
  have hanswer : ∀ x, c.answer store = .ok x ↔ c.twin store = .ok x ∧ x.SameShape (store c.place) :=
    fun x => Action.answer_eq_ok _
  rw [run_eq]
  -- An answer is written to the place, where it fits.
  cases h : c.answer store with
  | ok x =>
    obtain ⟨htwin, hshape⟩ := (hanswer x).1 h
    exact .inl ⟨x, rfl, htwin, hshape, rfl⟩
  -- An error leaves the place, and what the twin answers would not fit there.
  | error e =>
    refine .inr ⟨e, rfl, fun x htwin hshape => ?_, rfl⟩
    cases h.symm.trans ((hanswer x).2 ⟨htwin, hshape⟩)

/-- A command ends, with all shapes as they were. -/
theorem exists_run : ∃ r store', c.run store = some (r, store') ∧
    ∀ x, (store' x).SameShape (store x) := by
  obtain ⟨m, -, -, hshape, hrun⟩ | ⟨e, -, -, hrun⟩ := c.run_cases store
  · refine ⟨_, _, hrun, fun x => ?_⟩
    by_cases hx : x = c.place
    · rw [hx, Function.update_self]
      exact hshape
    · rw [Function.update_of_ne hx]
      exact .refl _
  · exact ⟨_, _, hrun, fun _ => .refl _⟩

/-- The store after commands in a row; a failed one does not end them. -/
def runAll : List (Command ι) → (ι → DenseMatrix α) → Option (ι → DenseMatrix α)
  | [], store => some store
  | c :: cs, store => (c.run store).bind fun r => runAll cs r.2

theorem exists_runAll (cs : List (Command ι)) : ∃ store', runAll cs store = some store' ∧
    ∀ x, (store' x).SameShape (store x) := by
  induction cs generalizing store with
  | nil => exact ⟨store, rfl, fun _ => .refl _⟩
  | cons c cs ih =>
    obtain ⟨r, store₁, hrun, hshape₁⟩ := c.exists_run store
    obtain ⟨store₂, hrest, hshape₂⟩ := ih store₁
    refine ⟨store₂, ?_, fun x => (hshape₂ x).trans (hshape₁ x)⟩
    rw [runAll, hrun]
    exact hrest

/-- An operation in place is all or nothing. It succeeds when the operation that makes a new matrix
of the same operands does, with a result of the shape of the place; then the place holds this
result, and every other matrix is what it was. Otherwise the whole store is what it was. No
sequence of operations in place changes a shape. -/
theorem run_atomic :
    ((∃ x, c.answer store = .ok x ∧ c.twin store = .ok x ∧ x.SameShape (store c.place) ∧
        c.run store = some (.ok (), Function.update store c.place x)) ∨
      ∃ e, c.answer store = .error e ∧
        (∀ x, c.twin store = .ok x → ¬x.SameShape (store c.place)) ∧
        c.run store = some (.error e, store)) ∧
      ∀ cs : List (Command ι), ∃ store', runAll cs store = some store' ∧
        ∀ x, (store' x).SameShape (store x) :=
  ⟨c.run_cases store, exists_runAll store⟩

end Command

end

end CoordTransform.DenseMatrix
