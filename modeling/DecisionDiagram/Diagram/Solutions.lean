import DecisionDiagram.Completions
import DecisionDiagram.Diagram.Paths
import DecisionDiagram.Diagram.Walk

/-!
# Satisfying valuations

The valuations that satisfy a diagram are the completions of its paths.
`Solutions` is the cursor over them: it goes through the paths in their order, and
for each path through its completions in the order of counting.  The truth table
of a diagram goes through all valuations instead.
-/

namespace DecisionDiagram

/-- The state of an enumeration of satisfying valuations. -/
structure Solutions where
  /-- The paths still to come. -/
  paths : Paths
  /-- The rest of the completions of the current path. -/
  completions : Completions
  deriving DecidableEq

namespace Solutions

/-- Moves on to the next path, if there is one. -/
def advance (paths : Paths) : Except Fault (Option Solutions) := do
  match ← Cursor.next paths with
  | none => return none
  | some (path, paths) =>
    let completions ← Completions.ofClause path paths.diagram.numVars
    return some ⟨paths, completions⟩

/-- Draws from the current path, if it has a completion left. -/
def draw (s : Solutions) : Except Fault (Option (Valuation × Solutions)) := do
  match ← Cursor.next s.completions with
  | none => return none
  | some (v, completions) => return some (v, { s with completions })

instance : Cursor Solutions Valuation where
  next s := do
    match ← s.draw with
    | some item => return some item
    | none =>
      match ← advance s.paths with
      | none => return none
      | some s => s.draw

end Solutions

namespace Diagram

/-- The enumeration of all satisfying valuations. -/
def solutions (d : Diagram) : Except Fault Solutions := do
  let paths ← d.paths
  match ← Solutions.advance paths with
  | some s => return s
  | none => return ⟨paths, ∅⟩

/-- The values of the function under all valuations, in the order of counting. -/
def truthTable (d : Diagram) : Except Fault (List Bool) := do
  let batch ← Cursor.take (Valuation.total d.numVars.toNat) (Completions.all d.numVars)
  batch.items.mapM d.eval

end Diagram

end DecisionDiagram
