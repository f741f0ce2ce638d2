import DecisionDiagram.Failure

/-!
# Variables

A variable is a position in a fixed order of names.  It is kept in 16 bits, since
every node of a diagram holds one.  The number of variables must fit there too,
because the terminals carry it in place of a variable; so positions stop short of
the largest word.
-/

namespace DecisionDiagram

/-- The largest number of variables that an order may have. -/
def maxVariables : Nat := 65534

/-- A decision variable, given by its position in a variable order. -/
structure Variable where
  /-- The position. -/
  index : UInt16
  deriving DecidableEq, Hashable, Ord, Repr, Inhabited

namespace Variable

/-- The position as a natural number. -/
def toIndex (v : Variable) : Nat := v.index.toNat

/-- The variable at position `i`, which has to be below 65536 to be kept apart
from the others. -/
def atIndex (i : Nat) : Variable := ⟨UInt16.ofNat i⟩

/-- The variable at position `i`, refused from 65535 on. -/
def ofIndex (i : Nat) : Except Fault Variable :=
  if i < 65535 then .ok (atIndex i) else .error (.variableOutOfRange i)

/-- The variable that follows in the order. -/
def succ (v : Variable) : Variable := ⟨v.index + 1⟩

instance : ToString Variable where
  toString v := toString v.toIndex

instance : LT Variable where
  lt v w := v.index < w.index

instance : LE Variable where
  le v w := v.index ≤ w.index

instance (v w : Variable) : Decidable (v < w) :=
  inferInstanceAs (Decidable (v.index < w.index))

instance (v w : Variable) : Decidable (v ≤ w) :=
  inferInstanceAs (Decidable (v.index ≤ w.index))

theorem toIndex_lt (v : Variable) : v.toIndex < 65536 := v.index.toNat_lt

theorem toIndex_inj {v w : Variable} : v.toIndex = w.toIndex ↔ v = w := by
  cases v; cases w; simp [toIndex, UInt16.toNat_inj]

theorem lt_iff {v w : Variable} : v < w ↔ v.toIndex < w.toIndex := UInt16.lt_iff_toNat_lt

theorem le_iff {v w : Variable} : v ≤ w ↔ v.toIndex ≤ w.toIndex := UInt16.le_iff_toNat_le

theorem toIndex_atIndex {i : Nat} (h : i < 65536) : (atIndex i).toIndex = i := by
  simp [atIndex, toIndex, Nat.mod_eq_of_lt h]

@[simp] theorem atIndex_toIndex (v : Variable) : atIndex v.toIndex = v := by
  simp [atIndex, toIndex]

theorem ofIndex_eq_ok_iff {i : Nat} {v : Variable} :
    ofIndex i = .ok v ↔ i < 65535 ∧ v.toIndex = i := by
  unfold ofIndex
  split
  · constructor
    · rintro ⟨⟩; exact ⟨by assumption, toIndex_atIndex (by omega)⟩
    · rintro ⟨-, rfl⟩; simp
  · simp [*]

end Variable

end DecisionDiagram
