import Mathlib
import CoordTransform.Method.Matrix
import CoordTransform.Proofs.Computation

/-!
# Parameters for the Entries of a Matrix

Which names belong to an entry of a matrix, and what a list of parameters does to the entries.
Names are read without regard to case, and an entry has many of them, since indices may have
leading zeros and a plus. A parameter whose name starts with `elt_` must name an entry of the
matrix and be a number; the last parameter with a name of an entry decides its value. All other
parameters are passed over.
-/

namespace CoordTransform.Method

/-! ## Spellings of indices -/

/-- The spellings of an index: decimal digits, leading zeros among them, behind an optional plus.
The number must fit into 64 bits. -/
def SpellsIndex (cs : List Char) (n : Nat) : Prop :=
  ∃ digits, (cs = digits ∨ cs = '+' :: digits) ∧ digits ≠ [] ∧
    (∀ c ∈ digits, c.isDigit = true) ∧ Nat.ofDigitChars 10 digits 0 = n ∧ n < 2 ^ 64

/-- What stands behind an optional plus. -/
def behindPlus : List Char → List Char
  | '+' :: cs => cs
  | cs => cs

theorem behindPlus_eq_iff {cs digits : List Char} (hdigits : ∀ c ∈ digits, c.isDigit = true) :
    behindPlus cs = digits ↔ cs = digits ∨ cs = '+' :: digits := by
  constructor
  · rintro rfl
    unfold behindPlus
    split
    · exact .inr rfl
    · exact .inl rfl
  · rintro (rfl | rfl)
    · -- Digits have no sign in front of them, so nothing is taken off.
      unfold behindPlus
      split
      · exact absurd (hdigits '+' List.mem_cons_self) (by decide)
      · rfl
    · rfl

theorem index?_eq_some_iff_behindPlus {cs : List Char} {n : Nat} : index? cs = some n ↔
    behindPlus cs ≠ [] ∧ (∀ c ∈ behindPlus cs, c.isDigit = true) ∧
      Nat.ofDigitChars 10 (behindPlus cs) 0 = n ∧ n < 2 ^ 64 := by
  change (if (behindPlus cs).isEmpty || !(behindPlus cs).all Char.isDigit then none
    else if Nat.ofDigitChars 10 (behindPlus cs) 0 < 2 ^ 64 then
      some (Nat.ofDigitChars 10 (behindPlus cs) 0) else none) = some n ↔ _
  simp only [Option.ite_none_left_eq_some, Option.ite_none_right_eq_some, Bool.not_eq_true,
    Bool.or_eq_false_iff, List.isEmpty_eq_false_iff, Bool.not_eq_false', List.all_eq_true,
    Option.some.injEq, and_assoc]
  -- The bound is tested before the number is known to be the one that is asked for.
  refine and_congr_right' (and_congr_right' ?_)
  constructor
  · rintro ⟨hlt, rfl⟩
    exact ⟨rfl, hlt⟩
  · rintro ⟨rfl, hlt⟩
    exact ⟨hlt, rfl⟩

/-- Exactly the spellings of an index are read as one. -/
theorem index?_eq_some_iff {cs : List Char} {n : Nat} :
    index? cs = some n ↔ SpellsIndex cs n := by
  rw [index?_eq_some_iff_behindPlus]
  constructor
  · rintro ⟨hne, hdigits, hvalue⟩
    exact ⟨behindPlus cs, (behindPlus_eq_iff hdigits).1 rfl, hne, hdigits, hvalue⟩
  · rintro ⟨digits, hcs, hne, hdigits, hvalue⟩
    rw [(behindPlus_eq_iff hdigits).2 hcs]
    exact ⟨hne, hdigits, hvalue⟩

/-- No spelling of an index has an underscore. -/
theorem SpellsIndex.ne_underscore {cs : List Char} {n : Nat} (h : SpellsIndex cs n) :
    ∀ c ∈ cs, (c != '_') = true := by
  obtain ⟨digits, hcs, -, hdigits, -⟩ := h
  have hline : ∀ c ∈ digits, (c != '_') = true := by
    intro c hc
    rw [bne_iff_ne]
    rintro rfl
    exact absurd (hdigits '_' hc) (by decide)
  rcases hcs with rfl | rfl
  · exact hline
  · exact List.forall_mem_cons.2 ⟨by decide, hline⟩

/-! ## Names of entries -/

/-- Names that are taken for those of entries. -/
def IsEntryName (name : String) : Prop := "elt_".toList <+: (Text.lower name).toList

instance : DecidablePred IsEntryName := fun name =>
  inferInstanceAs (Decidable ("elt_".toList <+: (Text.lower name).toList))

/-- The names of the entry in row `r` and column `c`, in any spelling. -/
def NamesEntry (name : String) (r c : Nat) : Prop :=
  ∃ row col, (Text.lower name).toList = "elt_".toList ++ (row ++ '_' :: col) ∧
    SpellsIndex row r ∧ SpellsIndex col c

theorem afterElt?_eq_some_iff {name : String} {rest : List Char} :
    afterElt? name = some rest ↔ (Text.lower name).toList = "elt_".toList ++ rest := by
  rw [show "elt_".toList = ['e', 'l', 't', '_'] from rfl]
  unfold afterElt?
  split
  · next rest' heq => simp [heq]
  · next hne =>
    constructor
    · rintro ⟨⟩
    · exact fun h => absurd h (hne rest)

theorem isEntryName_iff {name : String} :
    IsEntryName name ↔ ∃ rest, afterElt? name = some rest := by
  simp only [afterElt?_eq_some_iff]
  exact exists_congr fun rest => eq_comm

/-- A row and a column are told apart by the first underscore. -/
theorem indices?_eq_some_iff {cs : List Char} {r c : Nat} : indices? cs = some (r, c) ↔
    ∃ row col, cs = row ++ '_' :: col ∧ SpellsIndex row r ∧ SpellsIndex col c := by
  constructor
  · intro h
    unfold indices? at h
    split at h
    · cases h
    · next line col hdrop =>
      obtain ⟨row, hrow, h⟩ := Option.bind_eq_some_iff.1 h
      obtain ⟨column, hcolumn, h⟩ := Option.bind_eq_some_iff.1 h
      cases h
      refine ⟨_, col, ?_, index?_eq_some_iff.1 hrow, index?_eq_some_iff.1 hcolumn⟩
      -- The first character that is left is an underscore.
      have hline : line = '_' := by
        have hhead := List.head_dropWhile_not (· != '_') (by rw [hdrop]; exact List.cons_ne_nil _ _)
        simpa [hdrop] using hhead
      rw [hline] at hdrop
      rw [← hdrop, List.takeWhile_append_dropWhile]
  · rintro ⟨row, col, rfl, hrow, hcol⟩
    have htake : (row ++ '_' :: col).takeWhile (· != '_') = row := by
      rw [List.takeWhile_append_of_pos hrow.ne_underscore]
      simp
    have hdrop : (row ++ '_' :: col).dropWhile (· != '_') = '_' :: col := by
      rw [List.dropWhile_append_of_pos hrow.ne_underscore]
      simp
    rw [indices?, hdrop, htake]
    dsimp only
    rw [index?_eq_some_iff.2 hrow, index?_eq_some_iff.2 hcol]
    rfl

theorem namesEntry_iff {name : String} {r c : Nat} : NamesEntry name r c ↔
    ∃ rest, afterElt? name = some rest ∧ indices? rest = some (r, c) := by
  simp only [afterElt?_eq_some_iff, indices?_eq_some_iff]
  constructor
  · rintro ⟨row, col, hname, hrow, hcol⟩
    exact ⟨_, hname, row, col, rfl, hrow, hcol⟩
  · rintro ⟨_, hname, row, col, rfl, hrow, hcol⟩
    exact ⟨row, col, hname, hrow, hcol⟩

instance (name : String) (r c : Nat) : Decidable (NamesEntry name r c) :=
  decidable_of_iff ((afterElt? name).bind indices? = some (r, c))
    (Option.bind_eq_some_iff.trans namesEntry_iff.symm)

theorem NamesEntry.isEntryName {name : String} {r c : Nat} (h : NamesEntry name r c) :
    IsEntryName name := by
  obtain ⟨rest, hrest, -⟩ := namesEntry_iff.1 h
  exact isEntryName_iff.2 ⟨rest, hrest⟩

/-- A name belongs to one entry at most. -/
theorem NamesEntry.unique {name : String} {r c r' c' : Nat} (h : NamesEntry name r c)
    (h' : NamesEntry name r' c') : (r, c) = (r', c') := by
  obtain ⟨rest, hrest, hindices⟩ := namesEntry_iff.1 h
  obtain ⟨rest', hrest', hindices'⟩ := namesEntry_iff.1 h'
  obtain rfl := Option.some.inj (hrest.symm.trans hrest')
  exact Option.some.inj (hindices.symm.trans hindices')

/-! ## Entries of the matrix -/

section

variable {α : Type} [Scalar α] {es : List (String × ParameterValue α)} {m m' : DenseMatrix α}

/-- Parameters that give entries of a matrix of a shape: those with the name of an entry do name
one that the matrix has, and are numbers. -/
def GivesEntries (es : List (String × ParameterValue α)) (rows cols : Nat) : Prop :=
  ∀ e ∈ es, IsEntryName e.1 →
    ∃ r < rows, ∃ c < cols, NamesEntry e.1 r c ∧ ∃ v, e.2 = .number v

/-- The value of an entry: the one that the last parameter with a name of the entry gives, and
without such a parameter the default. -/
inductive EntryValue (es : List (String × ParameterValue α)) (default : α) (r c : Nat) : α → Prop
  | default (h : ∀ e ∈ es, ¬ NamesEntry e.1 r c) : EntryValue es default r c default
  | given (before after : List (String × ParameterValue α)) {name : String} {v : α}
      (hes : es = before ++ (name, .number v) :: after) (hname : NamesEntry name r c)
      (hlast : ∀ e ∈ after, ¬ NamesEntry e.1 r c) : EntryValue es default r c v

theorem entry_set {x : DenseMatrix α} {r c i j : Nat} (v : α) (hi : i < x.rows) (hj : j < x.cols) :
    (x.set r c v).entry i j = if (i, j) = (r, c) then v else x.entry i j := by
  rw [DenseMatrix.set, DenseMatrix.entry_ofFn _ hi hj]
  simp only [Bool.and_eq_true, beq_iff_eq, Prod.mk.injEq]

/-- A parameter is passed over or sets the entry that it names. -/
theorem putParameter_eq_ok_iff {e : String × ParameterValue α} : putParameter m e = .ok m' ↔
    (¬ IsEntryName e.1 ∧ m' = m) ∨
      ∃ r < m.rows, ∃ c < m.cols, NamesEntry e.1 r c ∧ ∃ v, e.2 = .number v ∧ m' = m.set r c v := by
  rw [isEntryName_iff]
  simp only [namesEntry_iff]
  unfold putParameter
  split
  · -- The name is not one of an entry.
    next hafter => simp [hafter, eq_comm]
  · next rest hafter =>
    split
    · -- The name does not go on with two indices.
      next hindices => simp [hafter, hindices]
    · next r c hindices =>
      -- The name determines the row and the column that the right side asks for.
      simp only [hafter, hindices, Option.some.injEq, exists_eq', not_true_eq_false, false_and,
        false_or, exists_eq_left', Prod.mk.injEq]
      split
      · next hinside =>
        rw [Bool.and_eq_true, decide_eq_true_iff, decide_eq_true_iff] at hinside
        cases e.2 <;> simp [ParameterValue.number?, hinside, eq_comm]
      · next houtside =>
        rw [Bool.and_eq_true, decide_eq_true_iff, decide_eq_true_iff] at houtside
        -- The entry lies outside, so that neither side holds.
        grind

/-- Parameters are put into a matrix when they give entries of its shape. -/
theorem exists_foldlM_putParameter_iff :
    (∃ m', es.foldlM putParameter m = .ok m') ↔ GivesEntries es m.rows m.cols := by
  induction es generalizing m with
  | nil => exact iff_of_true ⟨m, rfl⟩ fun e he => nomatch he
  | cons e es ih =>
    rw [GivesEntries, List.forall_mem_cons, List.foldlM_cons]
    constructor
    · rintro ⟨m', h⟩
      obtain ⟨x, hx, h⟩ := bind_eq_ok.1 h
      have hes := ih.1 ⟨m', h⟩
      rcases putParameter_eq_ok_iff.1 hx with ⟨hother, rfl⟩ | ⟨r, hr, c, hc, hname, v, hv, rfl⟩
      · exact ⟨fun hentry => absurd hentry hother, hes⟩
      · exact ⟨fun _ => ⟨r, hr, c, hc, hname, v, hv⟩, hes⟩
    · rintro ⟨he, hes⟩
      -- Neither way to go on changes the shape that the other parameters are checked against.
      by_cases hentry : IsEntryName e.1
      · obtain ⟨r, hr, c, hc, hname, v, hv⟩ := he hentry
        obtain ⟨m', hm'⟩ := (ih (m := m.set r c v)).2 hes
        have hput : putParameter m e = .ok (m.set r c v) :=
          putParameter_eq_ok_iff.2 (.inr ⟨r, hr, c, hc, hname, v, hv, rfl⟩)
        exact ⟨m', bind_eq_ok.2 ⟨_, hput, hm'⟩⟩
      · obtain ⟨m', hm'⟩ := ih.2 hes
        have hput : putParameter m e = .ok m := putParameter_eq_ok_iff.2 (.inl ⟨hentry, rfl⟩)
        exact ⟨m', bind_eq_ok.2 ⟨_, hput, hm'⟩⟩

omit [Scalar α] in
/-- A parameter in front decides an entry only when no later one does. -/
theorem EntryValue.cons {e : String × ParameterValue α} {d d' v : α} {r c : Nat}
    (h : EntryValue es d' r c v)
    (he : (¬ NamesEntry e.1 r c ∧ d' = d) ∨ (NamesEntry e.1 r c ∧ e.2 = .number d')) :
    EntryValue (e :: es) d r c v := by
  cases h with
  | default hes =>
    -- No later parameter names the entry, so the one in front decides when it does.
    rcases he with ⟨hother, rfl⟩ | ⟨hname, hvalue⟩
    · exact .default (List.forall_mem_cons.2 ⟨hother, hes⟩)
    · exact .given [] es (by rw [← hvalue]; rfl) hname hes
  | given before after hes hname hlast =>
    exact .given (e :: before) after (by rw [hes]; rfl) hname hlast

omit [Scalar α] in
/-- The parameter that gives an entry its value is the first one from the end. -/
theorem EntryValue.find?_reverse {d v : α} {r c : Nat} (h : EntryValue es d r c v) :
    (es.reverse.find? (fun e => NamesEntry e.1 r c) = none ∧ v = d) ∨
      ∃ name, es.reverse.find? (fun e => NamesEntry e.1 r c) = some (name, .number v) := by
  cases h with
  | default hes =>
    left
    simpa [List.find?_eq_none] using hes
  | @given before after name v hes hname hlast =>
    right
    refine ⟨name, List.find?_eq_some_iff_append.2 ⟨decide_eq_true hname, after.reverse,
      before.reverse, ?_, ?_⟩⟩
    · rw [hes, List.reverse_append, List.reverse_cons, List.append_assoc, List.singleton_append]
    · simpa using hlast

omit [Scalar α] in
/-- An entry has one value. -/
theorem EntryValue.unique {d v v' : α} {r c : Nat} (h : EntryValue es d r c v)
    (h' : EntryValue es d r c v') : v = v' := by
  rcases h.find?_reverse with ⟨hfind, hv⟩ | ⟨name, hfind⟩ <;>
    rcases h'.find?_reverse with ⟨hfind', hv'⟩ | ⟨name', hfind'⟩ <;>
    rw [hfind] at hfind'
  · rw [hv, hv']
  · cases hfind'
  · cases hfind'
  · cases hfind'
    rfl

/-- Putting parameters keeps the shape, and each entry gets its value. -/
theorem entryValue_of_foldlM (h : es.foldlM putParameter m = .ok m') :
    m'.rows = m.rows ∧ m'.cols = m.cols ∧ ∀ r < m.rows, ∀ c < m.cols,
      EntryValue es (m.entry r c) r c (m'.entry r c) := by
  induction es generalizing m with
  | nil =>
    cases h
    exact ⟨rfl, rfl, fun r _ c _ => .default fun e he => nomatch he⟩
  | cons e es ih =>
    rw [List.foldlM_cons] at h
    obtain ⟨x, hx, h⟩ := bind_eq_ok.1 h
    obtain ⟨hrows, hcols, hentries⟩ := ih h
    rcases putParameter_eq_ok_iff.1 hx with ⟨hother, rfl⟩ | ⟨i, hi, j, hj, hname, v, hv, rfl⟩
    · refine ⟨hrows, hcols, fun r hr c hc => (hentries r hr c hc).cons (.inl ⟨?_, rfl⟩)⟩
      exact fun hname => hother hname.isEntryName
    · refine ⟨hrows, hcols, fun r hr c hc => (hentries r hr c hc).cons ?_⟩
      rw [entry_set v hr hc]
      -- The value is that of the parameter in front at one place only.
      by_cases hat : (r, c) = (i, j)
      · rw [if_pos hat]
        cases hat
        exact .inr ⟨hname, hv⟩
      · rw [if_neg hat]
        exact .inl ⟨fun hname' => hat (hname'.unique hname), rfl⟩

end

end CoordTransform.Method
