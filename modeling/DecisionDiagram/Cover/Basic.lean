import DecisionDiagram.Valuation
import DecisionDiagram.VarOrder

/-!
# Covers

A cover is a list of cubes over a variable order.  It describes the Boolean
function that is true on the completions of its cubes and false elsewhere.  A
cover only accepts cubes that fix variables of its order.  It also says whether
equal nodes are to be shared when it is compiled to a diagram.
-/

namespace DecisionDiagram

/-- A list of cubes over a variable order. -/
structure Cover where
  /-- The names of the variables. -/
  order : VarOrder
  /-- The cubes, in the order in which they were added. -/
  cubes : Array Cube
  /-- Whether equal nodes are shared in the compiled diagram. -/
  sharing : Bool
  /-- The cubes fix variables of the order only. -/
  within : ∀ cube ∈ cubes, cube.Within order.numVars
  deriving DecidableEq

namespace Cover

/-- The cover without cubes; nodes will be shared. -/
def ofOrder (order : VarOrder) : Cover := ⟨order, #[], true, by simp⟩

instance : Inhabited Cover := ⟨ofOrder ∅⟩

/-- The same cubes, with node sharing on or off. -/
def withSharing (c : Cover) (sharing : Bool) : Cover := { c with sharing }

/-- Checks that all the variables that a cube fixes are in the order. -/
def accept (order : VarOrder) (cube : Cube) : Except Fault { a : Cube // a.Within order.numVars } :=
  match h : cube.lastFixed? with
  | some last =>
    if hlast : last.index < order.numVars then
      .ok ⟨cube, (Cube.within_iff_of_lastFixed?_eq_some h).2 hlast⟩
    else .error (.mintermOutside last.toIndex order.numVars.toNat)
  | none => .ok ⟨cube, Cube.within_of_lastFixed?_eq_none h _⟩

/-- The cover with one more cube at its end. -/
@[inline] def push (c : Cover) (cube : { a : Cube // a.Within c.order.numVars }) : Cover where
  order := c.order
  cubes := c.cubes.push cube.1
  sharing := c.sharing
  within := by
    intro a ha
    rcases Array.mem_push.1 ha with ha | rfl
    · exact c.within a ha
    · exact cube.2

/-- Adds a cube, if all the variables it fixes are in the order. -/
def add (c : Cover) (cube : Cube) : Except Fault Cover :=
  match accept c.order cube with
  | .ok cube => .ok (c.push cube)
  | .error fault => .error fault

/-- Declares the output of the function for named values. For the output `true` the
cube of the named values is added; the output `false` changes nothing, since
whatever is not covered is false. -/
def allow (c : Cover) (pairs : List (String × Bool)) (output : Bool) : Except Failure Cover :=
  if output then do
    let cube ← c.order.cubeOf pairs
    c.add cube
  else .ok c

/-- Adds cubes written as patterns, up to the first that fails, and tells how that
one failed. -/
def addPatterns (c : Cover) : List String → Cover × Option Fault
  | [] => (c, none)
  | pattern :: rest =>
    match Cube.ofPattern pattern >>= accept c.order with
    | .ok cube => (c.push cube).addPatterns rest
    | .error fault => (c, some fault)

/-- A valuation is covered if it completes some cube. -/
def Covers (c : Cover) (v : Valuation) : Prop := ∃ cube ∈ c.cubes, v.Completes cube

end Cover

end DecisionDiagram
