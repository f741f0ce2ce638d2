import DecisionDiagram.Cube

/-!
# Valuations

A valuation gives a value to every variable up to its length.  Valuations are
ordered lexicographically, `false` before `true`.  The free bits of a valuation,
those that a given cube leaves open, are read as a binary number whose lowest bit
belongs to the first free variable; `succIn?` counts it up.
-/

namespace DecisionDiagram

/-- A value for each of the first variables. -/
structure Valuation where
  /-- The values, by position of the variable. -/
  bits : Array Bool
  deriving DecidableEq, Repr, Inhabited

namespace Valuation

/-- The valuation of `numVars` variables that gives the same value to all. -/
def constant (numVars : Nat) (value : Bool) : Valuation := ⟨Array.replicate numVars value⟩

/-- The number of valuations of `n` variables. -/
def total (n : Nat) : Nat := Nat.pow 2 n

/-- The number of values, of which the low 16 bits are kept. -/
def numVars (v : Valuation) : UInt16 := UInt16.ofNat v.bits.size

/-- The value of a variable, or a fault beyond the end. -/
def value (v : Valuation) (x : Variable) : Except Fault Bool := readAt v.bits x.toIndex

/-- The valuation with the value of one variable reversed, or a fault beyond the
end. -/
def flip (v : Valuation) (x : Variable) : Except Fault Valuation :=
  if x.toIndex < v.bits.size then .ok ⟨v.bits.modify x.toIndex not⟩
  else .error (.indexOutOfBounds v.bits.size x.toIndex)

instance : Ord Valuation where
  compare v w := compare v.bits w.bits

instance : ToString Valuation where
  toString v :=
    "[" ++ ",".intercalate (v.bits.toList.map fun bit => if bit then "1" else "0") ++ "]"

/-- A valuation completes a cube if it has the value of every fixed variable. -/
def Completes (v : Valuation) (c : Cube) : Prop :=
  ∀ x value, c.get? x = some value → v.bits[x.toIndex]? = some value

/-- Decides whether the valuation completes the cube, variable by variable up to
the first difference; a fixed variable beyond the end that is reached is a
fault. -/
def completes (v : Valuation) (c : Cube) : Except Fault Bool :=
  c.toValues.allM fun (x, value) => do return (← v.value x) == value

/-! ### Counting in the free bits -/

/-- The number written in the free bits, the first free variable being the lowest
digit. -/
def counter (v : Valuation) (clause : Cube) : Nat :=
  v.bits.toList.zipIdx.foldr
    (fun (bit, i) n => if clause.fixes (.atIndex i) then n else 2 * n + bit.toNat) 0

/-- Adds one to the number written in the free bits: trailing ones become zero and
the first zero becomes one. There is no result if all free bits are one. -/
def succIn? (v : Valuation) (clause : Cube) : Option Valuation :=
  go 0 v.bits
where
  /-- Carries into the free bits from position `i` on. -/
  go (i : Nat) (bits : Array Bool) : Option Valuation :=
    if h : i < bits.size then
      if clause.fixes (.atIndex i) then go (i + 1) bits
      else if bits[i] then go (i + 1) (bits.set i false)
      else some ⟨bits.set i true⟩
    else none
  termination_by bits.size - i
  decreasing_by
    all_goals first | omega | (simp only [Array.size_set]; omega)

/-- The completion of a clause in which all free bits are zero. -/
def least (clause : Cube) (numVars : Nat) : Valuation where
  bits := (Array.range numVars).map fun i => clause.get? (.atIndex i) == some true

@[simp] theorem size_constant (n : Nat) (b : Bool) : (constant n b).bits.size = n := by
  simp [constant]

@[simp] theorem size_least (clause : Cube) (n : Nat) : (least clause n).bits.size = n := by
  simp [least]

theorem value_eq_ok_iff {v : Valuation} {x : Variable} {b : Bool} :
    v.value x = .ok b ↔ v.bits[x.toIndex]? = some b := readAt_eq_ok_iff

end Valuation

end DecisionDiagram
