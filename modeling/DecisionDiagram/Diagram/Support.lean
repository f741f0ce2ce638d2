import DecisionDiagram.Diagram.Basic
import Std.Data.HashSet

/-!
# Support

The support of a diagram is the set of variables that its table tests, whether or
not the nodes can be reached from the root.
-/

namespace DecisionDiagram

namespace Diagram

/-- The variables of the decision nodes in the table. -/
def testedVars (d : Diagram) : List Variable := (d.nodes.toList.drop 2).map Node.var

/-- The variables of the order that some decision node tests, in order. -/
def support (d : Diagram) : List Variable :=
  let tested := Std.HashSet.ofList d.testedVars
  d.order.vars.filter tested.contains

theorem mem_support {d : Diagram} {x : Variable} :
    x ∈ d.support ↔ x ∈ d.order.vars ∧ x ∈ d.testedVars := by
  simp [support]

end Diagram

end DecisionDiagram
