import DecisionDiagram.Cover.Basic
import DecisionDiagram.Cursor
import DecisionDiagram.Diagram.Basic

/-!
# Paths

The paths from the root of a diagram to the terminal `1` are cubes: each fixes the
variables that it tests.  `Paths` is the cursor over them, the low side of a node
before its high side.  Its state is the path that comes next.  To find the path
after that, the cursor goes back to the deepest node at which it went low and can
also go high, and from there it goes on as low as it can without running into the
terminal `0`.
-/

namespace DecisionDiagram

/-- The state of an enumeration of the paths of a diagram. -/
structure Paths where
  /-- The diagram. -/
  diagram : Diagram
  /-- The nodes of the next path, the last one first; none if there is no further
  path. -/
  stack : List NodeId
  deriving DecidableEq

namespace Diagram

/-- Prolongs a path that ends in `top`, by at most `steps` nodes, up to the terminal
`1`. At each node it goes low unless that leads to the terminal `0`. -/
def descend (d : Diagram) :
    (steps : Nat) → (top : NodeId) → (below : List NodeId) → Except Fault (List NodeId)
  | steps, top, below =>
    if top.isOne then .ok (top :: below)
    else do
      let node ← d.node top
      let child ←
        if !node.low.isZero then .ok node.low
        else if !node.high.isZero then .ok node.high
        else .error (.deadEnd top.toIndex)
      match steps with
      | 0 => .error (.endlessWalk top.toIndex)
      | steps + 1 => d.descend steps child (top :: below)

/-- The path after the one that went from the top of the stack to `child`, if there
is one: the first node from the top on that was left on its low side, and has a
high side to go to, is left there instead. -/
def backtrack (d : Diagram) (child : NodeId) : List NodeId → Except Fault (List NodeId)
  | [] => .ok []
  | top :: below => do
    let node ← d.node top
    if node.low == child && !node.high.isZero then
      d.descend d.size node.high (top :: below)
    else d.backtrack top below

/-- The cube of a path, given by its nodes from the root on: each step fixes the
variable of its node. -/
def cubeOfPath (d : Diagram) (path : List NodeId) : Except Fault Cube :=
  go ∅ path
where
  /-- Adds the steps of the remaining path to the cube. -/
  go (c : Cube) : List NodeId → Except Fault Cube
    | id :: next :: rest => do
      let node ← d.node id
      go (c.set node.var (node.low != next)) (next :: rest)
    | _ => .ok c

/-- The enumeration of all paths to the terminal `1`. -/
def paths (d : Diagram) : Except Fault Paths :=
  if d.isFalse then .ok ⟨d, []⟩
  else do
    let stack ← d.descend d.size d.root []
    return ⟨d, stack⟩

end Diagram

instance : Cursor Paths Cube where
  next p :=
    match p.stack with
    | [] => .ok none
    | top :: below => do
      let cube ← p.diagram.cubeOfPath (top :: below).reverse
      let stack ← p.diagram.backtrack top below
      return some (cube, { p with stack })

namespace Diagram

/-- All paths. There are at most as many as valuations. -/
def pathList (d : Diagram) : Except Fault (List Cube) := do
  let batch ← Cursor.take (Valuation.total d.numVars.toNat) (← d.paths)
  return batch.items

/-- The path after the first `n`, if there is one. -/
def path? (d : Diagram) (n : Nat) : Except Fault (Option Cube) := do
  Cursor.get? n (← d.paths)

/-- The cover that consists of the paths. -/
def toCover (d : Diagram) : Except Fault Cover := do
  (← d.pathList).foldlM Cover.add (.ofOrder d.order)

end Diagram

end DecisionDiagram
