import DecisionDiagram.Diagram.Basic
import DecisionDiagram.Dot.Label

/-!
# Drawing diagrams

A diagram is drawn as a directed graph in the DOT language.  An invisible vertex
points to the root, the terminals are boxes, and each decision node is labelled
with the name of its variable; high links are drawn filled and low links dotted.
In a pruned drawing the links to the terminal `0` are left out, and so is that
terminal unless it is the root.
-/

namespace DecisionDiagram

namespace Dot

/-- The line for a terminal. -/
def terminalLine (label : String) : String :=
  label ++ " [shape=box, label=\"" ++ label ++ "\", style=filled, height=0.3, width=0.3];"

/-- The line for a link, unless it is pruned. -/
def linkLines (pruned : Bool) (source target : NodeId) (style : String) : List String :=
  if pruned && target.isZero then [] else [s!"{source} -> {target} [style={style}];"]

/-- The lines for a decision node: its label, its high link and its low link. -/
def nodeLines (d : Diagram) (pruned : Bool) (id : NodeId) : Except Fault (List String) := do
  let node ← d.node id
  let name ← d.order.nameOf node.var
  let label := s!"{id}[label=\"" ++ escape name ++ "\"];"
  return label :: (linkLines pruned id node.high "filled" ++ linkLines pruned id node.low "dotted")

/-- The lines before the decision nodes. -/
def openingLines (d : Diagram) (pruned : Bool) : List String :=
  ["digraph G \x7b",
    "init__ [label=\"\", style=invis, height=0, width=0];",
    s!"init__ -> {d.root};"]
  ++ (if pruned && !d.isFalse then [] else [terminalLine "0"])
  ++ [terminalLine "1"]

/-- All lines of the drawing. -/
def lines (d : Diagram) (pruned : Bool) : Except Fault (List String) := do
  let body ← d.decisionIds.mapM (nodeLines d pruned)
  return openingLines d pruned ++ body.flatten ++ ["\x7d"]

end Dot

/-- The drawing of a diagram in the DOT language, with or without the links to the
terminal `0`. -/
def Diagram.toDot (d : Diagram) (pruned : Bool) : Except Fault String := do
  let lines ← Dot.lines d pruned
  return .join (lines.map (· ++ "\n"))

end DecisionDiagram
