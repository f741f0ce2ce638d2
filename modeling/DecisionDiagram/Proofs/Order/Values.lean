import DecisionDiagram.Assignment
import DecisionDiagram.VarOrder
import Mathlib.Data.List.Induction

/-!
# Named values and cubes

A list of named values is read in two ways: as an assignment, where the last pair
with a name counts, and as the cube of an order, where each pair in turn overwrites
the cell of its variable.  If every name is in the order then the two agree: the cube
fixes a variable exactly to the value that the list has for its name.
-/

namespace DecisionDiagram

namespace Assignment

/-- The first pair counts if no later one has the name. -/
theorem lastValue_cons (pair : String × Bool) (pairs : List (String × Bool)) (name : String) :
    lastValue (pair :: pairs) name =
      (lastValue pairs name).or (if pair.1 = name then some pair.2 else none) := by
  induction pairs using List.reverseRecOn with
  | nil => simp [lastValue]
  | append_singleton pairs last ih =>
    rw [← List.cons_append, lastValue_append_singleton, lastValue_append_singleton, ih]
    split
    · rfl
    · rfl

/-- Only names that occur have a value. -/
theorem exists_mem_of_lastValue {pairs : List (String × Bool)} {name : String} {value : Bool}
    (h : lastValue pairs name = some value) : ∃ pair ∈ pairs, pair.1 = name := by
  induction pairs with
  | nil => cases h
  | cons pair pairs ih =>
    rw [lastValue_cons] at h
    by_cases hname : pair.1 = name
    · exact ⟨pair, List.mem_cons_self, hname⟩
    · rw [if_neg hname, Option.or_none] at h
      obtain ⟨pair', hmem, heq⟩ := ih h
      exact ⟨pair', List.mem_cons_of_mem _ hmem, heq⟩

end Assignment

namespace VarOrder

open Assignment (lastValue lastValue_cons)

variable {o : VarOrder} {c cube : Cube} {pairs : List (String × Bool)} {x : Variable}
  {name : String} {value : Bool}

theorem cubeOf_go_cons (pair : String × Bool) :
    cubeOf.go o c (pair :: pairs) =
      match o.lookup? pair.1 with
      | some v => cubeOf.go o (c.set v pair.2) pairs
      | none => .error (.unknownVariable pair.1) := rfl

theorem exists_getElem?_of_mem (h : name ∈ o.names) :
    ∃ x : Variable, o.names[x.toIndex]? = some name := by
  obtain ⟨i, hi⟩ := Array.mem_iff_getElem?.1 h
  have hlt := (Array.getElem?_eq_some_iff.1 hi).1
  have hsize := o.size_le
  simp only [maxVariables] at hsize
  exact ⟨.atIndex i, by rw [Variable.toIndex_atIndex (by omega), hi]⟩

theorem lookup?_eq_none_iff : o.lookup? name = none ↔ name ∉ o.names := by
  rw [Option.eq_none_iff_forall_ne_some]
  constructor
  · intro h hname
    obtain ⟨x, hx⟩ := exists_getElem?_of_mem hname
    exact h x (lookup?_eq_some_iff.2 hx)
  · intro h x hx
    exact h (Array.mem_of_getElem? (lookup?_eq_some_iff.1 hx))

/-- The order of two names. -/
def two (first second : String) (h : first ≠ second) : VarOrder :=
  (empty.push first (by simp [lookup?, empty]) (by decide)).push second
    (lookup?_eq_none_iff.2 (by simp [push, empty, h.symm])) (by simp [push, empty, maxVariables])

@[simp] theorem names_two {first second : String} (h : first ≠ second) :
    (two first second h).names = #[first, second] := rfl

theorem toIndex_lt_numVars (h : o.names[x.toIndex]? = some name) : x.index < o.numVars := by
  rw [UInt16.lt_iff_toNat_lt, toNat_numVars]
  exact (Array.getElem?_eq_some_iff.1 h).1

/-- The variables of an order have names. -/
theorem exists_name (h : x.index < o.numVars) : ∃ name, o.names[x.toIndex]? = some name := by
  rw [UInt16.lt_iff_toNat_lt, toNat_numVars] at h
  exact ⟨_, Array.getElem?_eq_getElem h⟩

/-- While pairs are read, each of their names is found, and a cell ends with the last
value for its name or, if there is none, as it was. -/
theorem get?_cubeOf_go (h : cubeOf.go o c pairs = .ok cube) :
    (∀ pair ∈ pairs, pair.1 ∈ o.names) ∧
      ∀ x, cube.get? x = (o.names[x.toIndex]?.bind (lastValue pairs)).or (c.get? x) := by
  induction pairs generalizing c with
  | nil =>
    cases h
    refine ⟨by simp, fun x => ?_⟩
    cases o.names[x.toIndex]? <;> rfl
  | cons pair pairs ih =>
    rw [cubeOf_go_cons] at h
    cases hv : o.lookup? pair.1 with
    | none =>
      rw [hv] at h
      cases h
    | some v =>
      rw [hv] at h
      obtain ⟨hmem, hget⟩ := ih h
      have hname := lookup?_eq_some_iff.1 hv
      refine ⟨List.forall_mem_cons.2 ⟨Array.mem_of_getElem? hname, hmem⟩, fun x => ?_⟩
      rw [hget x, Cube.get?_set]
      by_cases hx : x = v
      · subst hx
        simp [hname, lastValue_cons]
      · rw [if_neg hx]
        cases hn : o.names[x.toIndex]? with
        | none => rfl
        | some name =>
          have hne : pair.1 ≠ name := by
            intro heq
            rw [← heq, ← lookup?_eq_some_iff, hv] at hn
            exact hx (Option.some.inj hn).symm
          simp [lastValue_cons, hne]

theorem exists_cubeOf_go (c : Cube) (h : ∀ pair ∈ pairs, pair.1 ∈ o.names) :
    ∃ cube, cubeOf.go o c pairs = .ok cube := by
  induction pairs generalizing c with
  | nil => exact ⟨c, rfl⟩
  | cons pair pairs ih =>
    rw [List.forall_mem_cons] at h
    obtain ⟨v, hv⟩ := exists_getElem?_of_mem h.1
    rw [cubeOf_go_cons, lookup?_eq_some_iff.2 hv]
    exact ih _ h.2

/-- A list of pairs has a cube exactly if all its names are in the order. -/
theorem exists_cubeOf_iff :
    (∃ cube, o.cubeOf pairs = .ok cube) ↔ ∀ pair ∈ pairs, pair.1 ∈ o.names := by
  constructor
  · rintro ⟨cube, h⟩
    exact (get?_cubeOf_go h).1
  · exact exists_cubeOf_go ∅

/-- The cube of a list of pairs fixes each variable to the last value for its name. -/
theorem get?_cubeOf (h : o.cubeOf pairs = .ok cube) (x : Variable) :
    cube.get? x = o.names[x.toIndex]?.bind (lastValue pairs) := by
  rw [(get?_cubeOf_go h).2 x, show (∅ : Cube).get? x = none from Cube.get?_empty, Option.or_none]

theorem within_cubeOf (h : o.cubeOf pairs = .ok cube) : cube.Within o.numVars := by
  intro x hx
  rw [Cube.fixes, get?_cubeOf h] at hx
  cases hn : o.names[x.toIndex]? with
  | none => simp [hn] at hx
  | some name => exact toIndex_lt_numVars hn

end VarOrder

end DecisionDiagram
