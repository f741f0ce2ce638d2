import DecisionDiagram.Variable

/-!
# Cubes

A cube fixes the values of some variables and leaves the others free; it stands
for every valuation that has the fixed values.  Minterms and the paths of a
diagram are cubes.  A cube holds one cell per variable up to some length, and all
variables beyond are free.  Every write makes the list of cells long enough and
none makes it shorter, so one set of fixed values has several representations,
told apart only by `=`.
-/

namespace DecisionDiagram

/-- A set of fixed variables with their values. -/
structure Cube where
  /-- The cell of each variable: its value if it is fixed. -/
  cells : Array (Option Bool)
  /-- There are no more cells than variables. -/
  size_le : cells.size ≤ 65536
  deriving DecidableEq

namespace Cube

/-- The cube that fixes nothing. -/
def empty : Cube := ⟨#[], by decide⟩

instance : EmptyCollection Cube := ⟨empty⟩

instance : Inhabited Cube := ⟨empty⟩

/-- The value to which a variable is fixed. -/
def get? (c : Cube) (v : Variable) : Option Bool := c.cells[v.toIndex]?.join

/-- Whether a variable is fixed. -/
def fixes (c : Cube) (v : Variable) : Bool := (c.get? v).isSome

/-- Writes the cell of a variable, after making the list of cells long enough. -/
def assign (c : Cube) (v : Variable) (cell : Option Bool) : Cube where
  cells :=
    (c.cells ++ Array.replicate (v.toIndex + 1 - c.cells.size) none).setIfInBounds v.toIndex cell
  size_le := by
    have := c.size_le
    have := v.toIndex_lt
    simp only [Array.size_setIfInBounds, Array.size_append, Array.size_replicate]
    omega

/-- Fixes a variable to a value. -/
def set (c : Cube) (v : Variable) (value : Bool) : Cube := c.assign v (some value)

/-- Frees a variable. -/
def unset (c : Cube) (v : Variable) : Cube := c.assign v none

/-- The cube that results from fixing the variables one by one; a later value
replaces an earlier one. -/
def ofValues (values : List (Variable × Bool)) : Cube :=
  values.foldl (fun c value => c.set value.1 value.2) empty

/-- The fixed variables with their values, in the order of the variables. -/
def toValues (c : Cube) : List (Variable × Bool) :=
  c.cells.toList.zipIdx.filterMap fun (cell, i) => cell.map (Variable.atIndex i, ·)

/-- Whether no variable is fixed. -/
def isEmpty (c : Cube) : Bool := c.cells.all Option.isNone

/-- The number of fixed variables. -/
def card (c : Cube) : Nat := c.cells.countP Option.isSome

/-- The last fixed variable at a position below `bound`. -/
def lastFixedBelow? (c : Cube) : (bound : Nat) → Option Variable
  | 0 => none
  | i + 1 => if c.cells[i]?.join.isSome then some (.atIndex i) else c.lastFixedBelow? i

/-- The last fixed variable. -/
def lastFixed? (c : Cube) : Option Variable := c.lastFixedBelow? c.cells.size

/-- All variables that the cube fixes are among the first `numVars`. -/
def Within (c : Cube) (numVars : UInt16) : Prop := ∀ v, c.fixes v → v.index < numVars

/-- Whether `c` fixes every variable that `d` fixes, to the same value. -/
def refines (c d : Cube) : Bool :=
  d.toValues.all fun (v, value) => c.get? v == some value

/-- Reads a cube written as one character per variable: `0` and `1` fix the
variable and any other character leaves it free. -/
def ofPattern (pattern : String) : Except Fault Cube :=
  go 0 empty pattern.toList
where
  /-- Reads the characters from position `i` on. -/
  go (i : Nat) (c : Cube) : List Char → Except Fault Cube
    | [] => .ok c
    | '0' :: rest => do go (i + 1) (c.set (← Variable.ofIndex i) false) rest
    | '1' :: rest => do go (i + 1) (c.set (← Variable.ofIndex i) true) rest
    | _ :: rest => go (i + 1) c rest

/-! ### The cells seen through `get?` -/

variable {c d : Cube} {v w : Variable}

@[simp] theorem get?_empty : empty.get? v = none := by simp [get?, empty]

theorem get?_assign (cell : Option Bool) :
    (c.assign v cell).get? w = if w = v then cell else c.get? w := by
  simp only [get?, assign, Array.getElem?_setIfInBounds, ← Variable.toIndex_inj (v := w)]
  by_cases h : v.toIndex = w.toIndex
  · have : w.toIndex < c.cells.size + (w.toIndex + 1 - c.cells.size) := by omega
    simp [h, this]
  · rw [if_neg h, if_neg (Ne.symm h), Array.getElem?_append]
    split
    · rfl
    · have : c.cells[w.toIndex]? = none := Array.getElem?_eq_none (by omega)
      rw [this, Array.getElem?_replicate]
      split <;> rfl

theorem get?_set (value : Bool) :
    (c.set v value).get? w = if w = v then some value else c.get? w := get?_assign _

theorem get?_unset : (c.unset v).get? w = if w = v then none else c.get? w := get?_assign _

theorem size_assign (cell : Option Bool) :
    (c.assign v cell).cells.size = max c.cells.size (v.toIndex + 1) := by
  simp only [assign, Array.size_setIfInBounds, Array.size_append, Array.size_replicate]
  omega

/-! ### The last fixed variable -/

theorem not_fixes_of_size_le (h : c.cells.size ≤ v.toIndex) : ¬c.fixes v := by
  have : c.cells[v.toIndex]? = none := Array.getElem?_eq_none h
  simp [fixes, get?, this]

theorem lastFixedBelow?_eq_none {bound : Nat} (hb : bound ≤ 65536)
    (h : c.lastFixedBelow? bound = none) (hv : v.toIndex < bound) : ¬c.fixes v := by
  induction bound with
  | zero => omega
  | succ i ih =>
    unfold lastFixedBelow? at h
    split at h
    · cases h
    · rename_i hi
      by_cases hvi : v.toIndex = i
      · subst hvi
        simpa [fixes, get?] using hi
      · exact ih (by omega) h (by omega)

theorem fixes_of_lastFixedBelow?_eq_some {bound : Nat} (hb : bound ≤ 65536)
    (h : c.lastFixedBelow? bound = some v) :
    c.fixes v ∧ ∀ w : Variable, v < w → w.toIndex < bound → ¬c.fixes w := by
  induction bound with
  | zero => cases h
  | succ i ih =>
    unfold lastFixedBelow? at h
    split at h
    · rename_i hi
      cases h
      have hidx : (Variable.atIndex i).toIndex = i := Variable.toIndex_atIndex (by omega)
      refine ⟨by simpa [fixes, get?, hidx] using hi, ?_⟩
      intro w hw hlt
      rw [Variable.lt_iff, hidx] at hw
      omega
    · rename_i hi
      obtain ⟨hv, hlater⟩ := ih (by omega) h
      refine ⟨hv, ?_⟩
      intro w hw hlt
      by_cases hwi : w.toIndex = i
      · subst hwi
        simpa [fixes, get?] using hi
      · exact hlater w hw (by omega)

/-- There is no last fixed variable exactly if no variable is fixed. -/
theorem lastFixed?_eq_none_iff : c.lastFixed? = none ↔ ∀ v, ¬c.fixes v := by
  constructor
  · intro h v
    by_cases hv : v.toIndex < c.cells.size
    · exact lastFixedBelow?_eq_none c.size_le h hv
    · exact not_fixes_of_size_le (by omega)
  · intro h
    cases hl : c.lastFixed? with
    | none => rfl
    | some v => exact absurd (fixes_of_lastFixedBelow?_eq_some c.size_le hl).1 (h v)

/-- The last fixed variable is fixed, and no later one is. -/
theorem fixes_of_lastFixed?_eq_some (h : c.lastFixed? = some v) :
    c.fixes v ∧ ∀ w : Variable, v < w → ¬c.fixes w := by
  obtain ⟨hv, hlater⟩ := fixes_of_lastFixedBelow?_eq_some c.size_le h
  refine ⟨hv, ?_⟩
  intro w hw
  by_cases hlt : w.toIndex < c.cells.size
  · exact hlater w hw hlt
  · exact not_fixes_of_size_le (by omega)

theorem within_of_lastFixed?_eq_none (h : c.lastFixed? = none) (n : UInt16) : c.Within n :=
  fun v hv => absurd hv (lastFixed?_eq_none_iff.1 h v)

/-- Whether a cube stays within the first variables is decided by its last fixed
variable. -/
theorem within_iff_of_lastFixed?_eq_some (h : c.lastFixed? = some v) {n : UInt16} :
    c.Within n ↔ v.index < n := by
  obtain ⟨hv, hlater⟩ := fixes_of_lastFixed?_eq_some h
  constructor
  · intro hw
    exact hw v hv
  · intro hlt w hw
    have hle : w.toIndex ≤ v.toIndex := by
      refine Nat.le_of_not_lt fun hvw => hlater w (Variable.lt_iff.2 hvw) hw
    rw [UInt16.lt_iff_toNat_lt] at hlt ⊢
    exact Nat.lt_of_le_of_lt hle hlt

instance (c : Cube) (n : UInt16) : Decidable (c.Within n) :=
  match h : c.lastFixed? with
  | none => isTrue (within_of_lastFixed?_eq_none h n)
  | some _ => decidable_of_iff _ (within_iff_of_lastFixed?_eq_some h).symm

end Cube

end DecisionDiagram
