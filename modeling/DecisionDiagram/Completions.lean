import DecisionDiagram.Cursor
import DecisionDiagram.Valuation

/-!
# Completions of a clause

A clause over a number of variables is completed by every valuation that has its
fixed values.  `Completions` is the cursor over them: it starts with all free
variables false and counts up in the free bits.  A clause without free variables
has exactly one completion.
-/

namespace DecisionDiagram

/-- The state of an enumeration of the completions of a clause. -/
structure Completions where
  /-- The clause, whose fixed variables are left alone. -/
  clause : Cube
  /-- The completion that comes next. -/
  next? : Option Valuation
  deriving DecidableEq

namespace Completions

/-- The enumeration without items. -/
def empty : Completions := ⟨∅, none⟩

instance : EmptyCollection Completions := ⟨empty⟩

instance : Inhabited Completions := ⟨empty⟩

/-- Starts the enumeration of the completions of a clause, all of whose fixed
variables have to be among the first `numVars`. -/
def ofClause (clause : Cube) (numVars : UInt16) : Except Fault Completions :=
  match clause.lastFixed? with
  | some last =>
    if last.index < numVars then start
    else .error (.clauseOutside last.toIndex numVars.toNat)
  | none => start
where
  /-- The enumeration before its first item. -/
  start : Except Fault Completions := .ok ⟨clause, some (.least clause numVars.toNat)⟩

/-- Starts the enumeration of all valuations of `numVars` variables. -/
def all (numVars : UInt16) : Completions := ⟨∅, some (.constant numVars.toNat false)⟩

instance : Cursor Completions Valuation where
  next c := .ok (c.next?.map fun v => (v, { c with next? := v.succIn? c.clause }))

/-- The number of items still to come. They are the numbers from the one in the
free bits up to the largest that the free bits can hold. -/
def remaining (c : Completions) : Nat :=
  match c.next? with
  | none => 0
  | some v =>
    let freeBits := (List.range v.bits.size).countP fun i => !c.clause.fixes (.atIndex i)
    Valuation.total freeBits - v.counter c.clause

theorem next_eq (c : Completions) :
    Cursor.next c = .ok (c.next?.map fun v => (v, { c with next? := v.succIn? c.clause })) := rfl

end Completions

end DecisionDiagram
