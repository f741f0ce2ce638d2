import DecisionDiagram.Diagram.Basic

/-!
# Checking node tables

`Diagram.check` goes through the rules for a table in a fixed order and reports
the first that is broken: the terminals, the root, and then each decision node in
turn with its variable, its links and the order of its children.  `ofNodes` is
the way to turn a table from elsewhere into a diagram.
-/

namespace DecisionDiagram

namespace Diagram

/-- The failure that reports a defect of the table. -/
def malformed (defect : TableDefect) : Failure := .input (.malformedTable defect)

/-- Checks one decision node against the nodes before it. -/
def checkNode (d : Diagram) (id : NodeId) : Except Failure Unit := do
  let node ← d.node id
  if d.numVars ≤ node.var.index then
    throw (malformed (.invalidVariable node.var.toIndex id.toIndex))
  if id.toIndex ≤ node.low.toIndex then
    throw (malformed (.forwardLow node.low.toIndex id.toIndex))
  if id.toIndex ≤ node.high.toIndex then
    throw (malformed (.forwardHigh node.high.toIndex id.toIndex))
  if node.low = node.high then
    throw (malformed (.redundant id.toIndex node.low.toIndex))
  if (← d.node node.low).var ≤ node.var then
    throw (malformed (.unordered id.toIndex))
  if (← d.node node.high).var ≤ node.var then
    throw (malformed (.unordered id.toIndex))

/-- Checks the decision nodes with the given ids, up to the first that fails. -/
def checkNodes (d : Diagram) : List NodeId → Except Failure Unit
  | [] => .ok ()
  | id :: ids =>
    match d.checkNode id with
    | .ok () => d.checkNodes ids
    | .error failure => .error failure

/-- Checks the whole table and the root, and reports the first defect. -/
def check (d : Diagram) : Except Failure Unit :=
  if d.size < 2 then .error (malformed .missingTerminals)
  else if d.nodes[0]? ≠ some (.zero d.numVars) then .error (malformed .zeroTerminal)
  else if d.nodes[1]? ≠ some (.one d.numVars) then .error (malformed .oneTerminal)
  else if d.size ≤ d.root.toIndex then .error (malformed (.missingRoot d.root.toIndex))
  else d.checkNodes d.decisionIds

/-- The diagram with the given table and root, if the table passes the check. -/
def ofNodes (order : VarOrder) (nodes : Array Node) (root : NodeId) : Except Failure Diagram := do
  let d : Diagram := ⟨order, nodes, root⟩
  d.check
  return d

end Diagram

end DecisionDiagram
