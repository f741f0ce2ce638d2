import DecisionDiagram.Cube

/-!
# Splitting a list of cubes

The function of a list of cubes is expanded variable by variable.  `split` looks,
from a given variable on, for the first variable that some cube fixes, and divides
the cubes by its value; a cube that leaves the variable free goes to both sides.
Often no variable is needed, because the function is constant: it is false without
cubes, and true as soon as one cube has nothing more to ask.
-/

namespace DecisionDiagram

/-- A cube in an expansion. -/
structure Row where
  /-- The cube. -/
  cube : Cube
  /-- The first position from which on the cube fixes no variable. -/
  freeFrom : UInt16
  deriving DecidableEq

namespace Row

/-- The row of a cube. -/
def ofCube (cube : Cube) : Row where
  cube := cube
  freeFrom :=
    match cube.lastFixed? with
    | some last => last.index + 1
    | none => 0

/-- Whether the cube can still be completed when a variable has the given value. -/
def allows (row : Row) (v : Variable) (value : Bool) : Bool :=
  row.cube.get? v != some (!value)

end Row

/-- What remains of a list of cubes from a variable on. -/
inductive Split
  /-- The function is constant. -/
  | constant (value : Bool)
  /-- The function is decided by the variable, between the cubes for `true` and the
  cubes for `false`. -/
  | branch (var : Variable) (highs lows : List Row)
  deriving DecidableEq

/-- The number of variables from `v` to the end of the order. -/
def varsLeft (numVars : UInt16) (v : Variable) : Nat := (numVars - v.index).toNat

/-- Each step onward leaves one variable less, up to the end of the order. -/
theorem varsLeft_succ {numVars : UInt16} {v : Variable} (h : v.index ≠ numVars) :
    varsLeft numVars v.succ + 1 = varsLeft numVars v := by
  have := v.index.toNat_lt
  have := numVars.toNat_lt
  have hne : v.index.toNat ≠ numVars.toNat := fun e => h (UInt16.toNat_inj.1 e)
  simp only [varsLeft, Variable.succ, UInt16.toNat_sub, UInt16.toNat_add, UInt16.toNat_one]
  omega

/-- Splits a list of cubes on the first variable that matters, from `v` on, in an
order of `numVars` variables. -/
def split (numVars : UInt16) (v : Variable) (rows : List Row) : Split :=
  if rows.isEmpty then .constant false
  else if _ : v.index = numVars then .constant true
  else if rows.any (·.freeFrom ≤ v.index) then .constant true
  else if rows.any (·.cube.fixes v) then
    .branch v (rows.filter (·.allows v true)) (rows.filter (·.allows v false))
  else split numVars v.succ rows
termination_by varsLeft numVars v
decreasing_by
  have := varsLeft_succ ‹¬v.index = numVars›
  omega

/-- A split decides a variable of the order, and none that comes earlier than where
it began. -/
theorem varsLeft_of_split_eq_branch {numVars : UInt16} {v var : Variable}
    {rows highs lows : List Row} (h : split numVars v rows = .branch var highs lows) :
    var.index ≠ numVars ∧ varsLeft numVars var ≤ varsLeft numVars v := by
  fun_induction split numVars v rows with
  | case1 => cases h
  | case2 => cases h
  | case3 => cases h
  | case4 v _ hend => cases h; exact ⟨hend, Nat.le_refl _⟩
  | case5 v _ hend _ _ ih =>
    have := varsLeft_succ hend
    have := ih h
    exact ⟨this.1, by omega⟩

end DecisionDiagram
