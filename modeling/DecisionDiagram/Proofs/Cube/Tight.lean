import DecisionDiagram.Cube

/-!
# Tight cubes

A cube may have cells behind the last variable that it fixes, and then it is not the only
representation of what it fixes.  A tight cube has none: it has no more cells than are
needed.  The empty cube is tight, and it stays so as long as variables are only fixed.  Tight
cubes that fix the same values are equal, however they came about.
-/

namespace DecisionDiagram

namespace Cube

variable {c d : Cube} {v : Variable} {value : Bool}

/-- A cube is determined by what it fixes and by the number of its cells. -/
theorem ext_get? (hsize : c.cells.size = d.cells.size) (h : ∀ v, c.get? v = d.get? v) :
    c = d := by
  have hcells : c.cells = d.cells := by
    apply Array.ext hsize
    intro i hi hi'
    have hv : (Variable.atIndex i).toIndex = i :=
      Variable.toIndex_atIndex (Nat.lt_of_lt_of_le hi c.size_le)
    simpa [get?, hv, hi, hi'] using h (.atIndex i)
  cases c
  cases d
  cases hcells
  rfl

/-- The cells reach no further than the fixed variables do. -/
def Tight (c : Cube) : Prop :=
  ∀ bound, (∀ v : Variable, c.fixes v → v.toIndex < bound) → c.cells.size ≤ bound

theorem tight_empty : (∅ : Cube).Tight := fun bound _ => Nat.zero_le bound

theorem Tight.set (h : c.Tight) (v : Variable) (value : Bool) : (c.set v value).Tight := by
  intro bound hbound
  have hv : v.toIndex < bound := hbound v (by simp [fixes, get?_set])
  have hc : c.cells.size ≤ bound := by
    apply h
    intro w hw
    apply hbound
    rw [fixes, get?_set]
    split
    · rfl
    · exact hw
  rw [Cube.set, size_assign]
  omega

theorem lt_size_of_fixes (h : c.fixes v) : v.toIndex < c.cells.size :=
  Nat.lt_of_not_le fun hle => not_fixes_of_size_le hle h

theorem Tight.size_le (hc : c.Tight) (h : ∀ v, c.fixes v → d.fixes v) :
    c.cells.size ≤ d.cells.size :=
  hc _ fun v hv => lt_size_of_fixes (h v hv)

/-- Tight cubes are equal if they fix the same values. -/
theorem Tight.ext (hc : c.Tight) (hd : d.Tight) (h : ∀ v, c.get? v = d.get? v) : c = d := by
  have hfixes : ∀ v, c.fixes v = d.fixes v := by simp [fixes, h]
  apply ext_get? ?_ h
  apply Nat.le_antisymm
  · exact hc.size_le fun v hv => hfixes v ▸ hv
  · exact hd.size_le fun v hv => hfixes v ▸ hv

end Cube

end DecisionDiagram
