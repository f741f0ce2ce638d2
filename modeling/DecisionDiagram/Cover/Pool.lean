import DecisionDiagram.Event
import Std.Data.HashMap

/-!
# Node pools

A pool is a node table under construction.  It starts with the two terminals and
grows by `intern`, which delivers the id of a decision node and adds the node only
if it is needed.  With sharing, a map from the nodes of the table to their ids
finds the nodes that are already there.  All that a pool does is logged.
-/

namespace DecisionDiagram

/-- A node table under construction. -/
structure Pool where
  /-- The table so far. -/
  nodes : Array Node
  /-- The id of each node of the table, if nodes are shared. -/
  ids : Option (Std.HashMap Node NodeId)
  /-- What was done so far. -/
  events : Array Event

namespace Pool

/-- The pool that holds the terminals of a diagram over `numVars` variables. -/
def start (numVars : UInt16) (sharing : Bool) : Pool where
  nodes := #[.zero numVars, .one numVars]
  ids :=
    if sharing then
      let terminals := (∅ : Std.HashMap Node NodeId).insert (.zero numVars) .zero
      some (terminals.insert (.one numVars) .one)
    else none
  events := #[]

/-- The id of a node that is to be used again. -/
def find? (p : Pool) (node : Node) : Option NodeId := p.ids.bind fun ids => ids[node]?

/-- Logs an event. -/
def log (p : Pool) (event : Event) : Pool := { p with events := p.events.push event }

/-- Adds a node at the end of the table. -/
def push (p : Pool) (node : Node) : NodeId × Pool :=
  let id := NodeId.ofIndex p.nodes.size
  (id, {
    nodes := p.nodes.push node
    ids := p.ids.map fun ids => ids.insert node id
    events := p.events.push (.created node id) })

/-- Where to go to decide `var` between two branches. If both lead to the same
place this is that place; otherwise it is a node that tests the variable, either
one that is there and may be shared or a new one. -/
def intern (p : Pool) (var : Variable) (low high : NodeId) : NodeId × Pool :=
  if low = high then (low, p.log (.redundant var low))
  else
    let node : Node := ⟨var, low, high⟩
    match p.find? node with
    | some id => (id, p.log (.reused node id))
    | none => p.push node

end Pool

end DecisionDiagram
