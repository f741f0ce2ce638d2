import DecisionDiagram.Cover.Basic
import DecisionDiagram.Cover.Pool
import DecisionDiagram.Cover.Split
import DecisionDiagram.Diagram.Check

/-!
# Compiling covers

A cover is compiled to a diagram by expanding its cubes variable by variable.  The
expansion runs on an explicit stack of tasks, so that its depth is not bounded by
the machine's own stack.  A task either expands some cubes or joins the two results
on top of the result stack; the high side is expanded before the low side, and the
nodes are numbered in the order in which they are joined.
-/

namespace DecisionDiagram

/-- A unit of work of the expansion. -/
inductive Task
  /-- Find the id for the function of the cubes from variable `v` on. -/
  | expand (v : Variable) (rows : List Row)
  /-- Make a node for `var` from the two results on top of the stack. -/
  | join (var : Variable)
  deriving DecidableEq

/-- A bound for the work that a task causes: an expansion turns into two expansions
with fewer variables and one join. -/
def Task.weight (numVars : UInt16) : Task → Nat
  | .expand v _ => Nat.pow 3 (varsLeft numVars v + 1)
  | .join _ => 1

theorem Task.weight_pos (numVars : UInt16) (task : Task) : 0 < task.weight numVars := by
  cases task with
  | expand v _ => exact Nat.pow_pos (by decide)
  | join _ => exact Nat.one_pos

/-- The tasks that replace an expansion weigh less than it does. -/
theorem Task.weight_branch_lt {numVars : UInt16} {v var : Variable} {rows highs lows : List Row}
    (h : split numVars v rows = .branch var highs lows) :
    (expand var.succ highs).weight numVars + (expand var.succ lows).weight numVars
      + (join var).weight numVars < (expand v rows).weight numVars := by
  obtain ⟨hne, hle⟩ := varsLeft_of_split_eq_branch h
  have hsucc := varsLeft_succ hne
  have hmono : Nat.pow 3 (varsLeft numVars var + 1) ≤ Nat.pow 3 (varsLeft numVars v + 1) :=
    Nat.pow_le_pow_right (by decide) (by omega)
  have hpos : 0 < Nat.pow 3 (varsLeft numVars var.succ) := Nat.pow_pos (by decide)
  -- Each of the two expansions weighs a third of the one they replace.
  have hone : Nat.pow 3 (varsLeft numVars var.succ + 1) =
      Nat.pow 3 (varsLeft numVars var.succ) * 3 := rfl
  have htwo : Nat.pow 3 (varsLeft numVars var + 1) =
      Nat.pow 3 (varsLeft numVars var.succ) * 3 * 3 := by rw [← hsucc]; rfl
  simp only [weight]
  omega

/-- The weight of all tasks together. -/
def Task.load (numVars : UInt16) : List Task → Nat
  | [] => 0
  | task :: tasks => task.weight numVars + load numVars tasks

namespace Cover

/-- Works off the tasks. The results so far are on a stack, the last one first. -/
def run (numVars : UInt16) :
    (tasks : List Task) → (results : List NodeId) → Pool → Except Fault (List NodeId × Pool)
  | [], results, pool => .ok (results, pool)
  | .expand v rows :: tasks, results, pool =>
    match _ : split numVars v rows with
    | .constant value => run numVars tasks (.ofBool value :: results) pool
    | .branch var highs lows =>
      run numVars (.expand var.succ highs :: .expand var.succ lows :: .join var :: tasks)
        results pool
  | .join var :: tasks, low :: high :: results, pool =>
    let (id, pool) := pool.intern var low high
    run numVars tasks (id :: results) pool
  | .join var :: _, _, _ => .error (.missingBranch var.toIndex)
termination_by tasks => Task.load numVars tasks
decreasing_by
  · have := Task.weight_pos numVars (.expand v rows)
    simp only [Task.load]
    omega
  · have := Task.weight_branch_lt ‹split numVars v rows = _›
    simp only [Task.load]
    omega
  · have := Task.weight_pos numVars (.join var)
    simp only [Task.load]
    omega

/-- Compiles the cover to a diagram, together with the log of the construction. -/
def compileLogged (c : Cover) : Except Fault (Diagram × List Event) := do
  let numVars := c.order.numVars
  let rows := c.cubes.toList.map Row.ofCube
  let (results, pool) ← run numVars [.expand ⟨0⟩ rows] [] (.start numVars c.sharing)
  let d : Diagram := ⟨c.order, pool.nodes, results.head?.getD .zero⟩
  let events := .started c.cubes.size numVars c.sharing :: pool.events.toList
  return (d, events ++ [.finished d.size d.root])

/-- Compiles the cover to a diagram. -/
def compile (c : Cover) : Except Fault Diagram := Prod.fst <$> c.compileLogged

/-- Compiles the cover and checks the result. -/
def compileChecked (c : Cover) : Except Fault (Diagram × List Event) := do
  let (d, events) ← c.compileLogged
  match d.check with
  | .ok () => return (d, events)
  | .error (.input error) => throw (.invalidResult error)
  | .error (.fault fault) => throw fault

end Cover

end DecisionDiagram
