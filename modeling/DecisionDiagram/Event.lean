import DecisionDiagram.Node

/-!
# Log events

Compiling a cover and evaluating a diagram report what they do as a list of
events.  An event has a severity and a text; `Event.line` puts the two together.
-/

namespace DecisionDiagram

/-- How important an event is. -/
inductive Severity
  /-- The start or the end of a larger piece of work. -/
  | debug
  /-- A single step. -/
  | trace
  deriving DecidableEq, Repr

/-- The name of a severity. -/
def Severity.label : Severity → String
  | .debug => "DEBUG"
  | .trace => "TRACE"

/-- Something that happened on the way to a result. -/
inductive Event
  /-- A construction begins. -/
  | started (minterms : Nat) (numVars : UInt16) (sharing : Bool)
  /-- No node was needed, since both branches lead to the same place. -/
  | redundant (var : Variable) (target : NodeId)
  /-- A node that was already there is used again. -/
  | reused (node : Node) (id : NodeId)
  /-- A node was added to the table. -/
  | created (node : Node) (id : NodeId)
  /-- A construction is complete. -/
  | finished (size : Nat) (root : NodeId)
  /-- Evaluation stopped at a node whose variable has no value. -/
  | valueMissing (name : String) (node : NodeId)
  deriving DecidableEq, Repr

namespace Event

/-- The severity of an event. -/
def severity : Event → Severity
  | .started .. => .debug
  | .finished .. => .debug
  | _ => .trace

/-- The text of an event. -/
def text : Event → String
  | .started minterms numVars sharing =>
    s!"build: {minterms} minterms over {numVars} variables (node sharing: {sharing})"
  | .redundant var target => s!"mk_node: {var} is redundant, both links lead to {target}"
  | .reused node id => call node ++ s!": reusing {id}"
  | .created node id => call node ++ s!" -> {id}"
  | .finished size root => s!"build: finished with {size} nodes, root {root}"
  | .valueMissing name node => "evaluate: `" ++ name ++ s!"` missing at node {node}"
where
  /-- The request for a node. -/
  call (node : Node) : String := s!"mk_node({node.var}, {node.low}, {node.high})"

/-- The event as a line of a log. -/
def line (event : Event) : String := event.severity.label ++ " " ++ event.text

end Event

end DecisionDiagram
