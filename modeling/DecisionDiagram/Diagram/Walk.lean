import DecisionDiagram.Assignment
import DecisionDiagram.Diagram.Basic
import DecisionDiagram.Event
import DecisionDiagram.Valuation

/-!
# Evaluation

To evaluate a diagram is to walk from the root along the link that belongs to the
value of each tested variable, until a terminal is reached.  A `Walk` records the
decision nodes on the way and why it stopped.  Values come from a valuation
(`eval`) or from a named assignment (`evalNamed`); only variables that are
actually tested need a value.
-/

namespace DecisionDiagram

/-- Why a walk stopped. -/
inductive Stop
  /-- It reached a terminal. -/
  | leaf (value : Bool)
  /-- The variable tested at this node has no value. -/
  | stuck (id : NodeId) (var : Variable)
  /-- A link led out of the table. -/
  | outside (id : NodeId)
  /-- It passed more nodes than there are, so it follows a cycle. -/
  | endless (id : NodeId)
  deriving DecidableEq, Repr

/-- A walk through a diagram. -/
structure Walk where
  /-- The decision nodes on the way, the first one first. -/
  visited : List NodeId
  /-- Why the walk stopped. -/
  stop : Stop
  deriving DecidableEq, Repr

namespace Diagram

/-- Walks on from node `id`, along the links that `choose` tells, through at most
`steps` more decision nodes. The nodes passed before are in `passed`, the last of
them first. -/
def walkOn (d : Diagram) (choose : Variable → Option Bool) :
    (steps : Nat) → (id : NodeId) → (passed : List NodeId) → Walk
  | steps, id, passed =>
    match id.toBool? with
    | some value => ⟨passed.reverse, .leaf value⟩
    | none =>
      match d.nodes[id.toIndex]? with
      | none => ⟨passed.reverse, .outside id⟩
      | some node =>
        match choose node.var with
        | none => ⟨(id :: passed).reverse, .stuck id node.var⟩
        | some value =>
          match steps with
          | 0 => ⟨(id :: passed).reverse, .endless id⟩
          | steps + 1 => d.walkOn choose steps (node.child value) (id :: passed)

/-- The walk from a node along the links that `choose` tells. A walk through more
decision nodes than the table has repeats itself for ever. -/
def walkFrom (d : Diagram) (choose : Variable → Option Bool) (id : NodeId) : Walk :=
  d.walkOn choose d.size id []

/-- The walk from the root along the links that `choose` tells. -/
def walk (d : Diagram) (choose : Variable → Option Bool) : Walk := d.walkFrom choose d.root

/-! ### Values by position -/

/-- The walk from a node under a valuation. -/
def walkIn (d : Diagram) (v : Valuation) (id : NodeId) : Walk :=
  d.walkFrom (fun x => v.bits[x.toIndex]?) id

/-- The value of the function that starts at a node. To test a variable beyond the
end of the valuation is a fault. -/
def evalFrom (d : Diagram) (v : Valuation) (id : NodeId) : Except Fault Bool :=
  match (d.walkIn v id).stop with
  | .leaf value => .ok value
  | .stuck _ x => .error (.indexOutOfBounds v.bits.size x.toIndex)
  | .outside id => .error (.indexOutOfBounds d.size id.toIndex)
  | .endless id => .error (.endlessWalk id.toIndex)

/-- The value of the diagram's function under a valuation. -/
def eval (d : Diagram) (v : Valuation) : Except Fault Bool := d.evalFrom v d.root

/-- Evaluates only if the valuation has as many variables as the diagram, going by
their 16-bit numbers. -/
def evalGuarded (d : Diagram) (v : Valuation) : Except Fault Bool :=
  if v.numVars = d.numVars then d.eval v
  else .error (.valuationMismatch d.numVars.toNat v.numVars.toNat)

/-! ### Values by name -/

section Named

variable {α : Type u} [Assignment α]

/-- The walk from the root under a named assignment. -/
def walkNamed (d : Diagram) (a : α) : Walk :=
  d.walk fun x => d.order.names[x.toIndex]?.bind (Assignment.valueOf a)

/-- The value of the diagram's function under a named assignment, which has to
give a value to every variable that is tested. -/
def evalNamed (d : Diagram) (a : α) : Except Failure Bool :=
  match (d.walkNamed a).stop with
  | .leaf value => .ok value
  | .stuck _ x => do throw (.input (.missingVariable (← d.order.nameOf x)))
  | .outside id => .error (.fault (.indexOutOfBounds d.size id.toIndex))
  | .endless id => .error (.fault (.endlessWalk id.toIndex))

/-- What evaluation under a named assignment reports: the node at which a value was
missing, if any. -/
def evalEvents (d : Diagram) (a : α) : List Event :=
  match (d.walkNamed a).stop with
  | .stuck id x =>
    match d.order.nameOf x with
    | .ok name => [.valueMissing name id]
    | .error _ => []
  | _ => []

end Named

end Diagram

end DecisionDiagram
