import DecisionDiagram.Node
import DecisionDiagram.VarOrder

/-!
# Diagrams

A diagram represents a Boolean function of the variables of an order.  It is a
table of nodes with a root: positions 0 and 1 hold the terminals, and every later
position holds a decision node whose links lead to earlier positions and to later
variables.  `Diagram` is the raw table.  `Diagram.Valid` states the rules, and
`Diagram.check` decides them.
-/

namespace DecisionDiagram

/-- A table of nodes over a variable order, with a root. -/
structure Diagram where
  /-- The names of the variables. -/
  order : VarOrder
  /-- The nodes, terminals first. -/
  nodes : Array Node
  /-- Where evaluation starts. -/
  root : NodeId
  deriving DecidableEq

namespace Diagram

/-- The number of nodes, terminals included. -/
def size (d : Diagram) : Nat := d.nodes.size

/-- The number of variables of the order. -/
def numVars (d : Diagram) : UInt16 := d.order.numVars

/-- The node with the given id, or a fault outside the table. -/
def node (d : Diagram) (id : NodeId) : Except Fault Node := readAt d.nodes id.toIndex

/-- The ids of all nodes after the terminals. -/
def decisionIds (d : Diagram) : List NodeId :=
  ((List.range d.size).map NodeId.ofIndex).drop 2

/-- The diagram of a constant function. -/
def constant (order : VarOrder) (value : Bool) : Diagram where
  order := order
  nodes := #[.zero order.numVars, .one order.numVars]
  root := .ofBool value

/-- The value of a diagram whose root is a terminal. -/
def toBool? (d : Diagram) : Option Bool := d.root.toBool?

/-- Whether the root is the terminal `1`. -/
def isTrue (d : Diagram) : Bool := d.root.isOne

/-- Whether the root is the terminal `0`. -/
def isFalse (d : Diagram) : Bool := d.root.isZero

instance : Inhabited Diagram := ⟨constant ∅ false⟩

/-- The node at position `i` fits the nodes before it: it tests a variable of the
order, its links are different, and both lead to earlier nodes that come later in
the order. -/
structure Fits (d : Diagram) (i : Nat) (node : Node) : Prop where
  /-- The variable belongs to the order. -/
  var_lt : node.var.index < d.numVars
  /-- The node tells its two sides apart. -/
  low_ne_high : node.low ≠ node.high
  /-- Both links lead to earlier positions. -/
  child_lt : ∀ b, (node.child b).toIndex < i
  /-- Both children come later in the order. -/
  var_lt_child : ∀ b child, d.nodes[(node.child b).toIndex]? = some child → node.var < child.var

/-- The rules for the table and the root of a diagram. -/
structure Valid (d : Diagram) : Prop where
  /-- Every position can be told apart by its id. -/
  size_le : d.size ≤ 4294967296
  /-- The table starts with the terminal `0`. -/
  zero_eq : d.nodes[0]? = some (.zero d.numVars)
  /-- The terminal `1` comes next. -/
  one_eq : d.nodes[1]? = some (.one d.numVars)
  /-- The root is in the table. -/
  root_lt : d.root.toIndex < d.size
  /-- All further nodes fit. -/
  fits : ∀ i node, 2 ≤ i → d.nodes[i]? = some node → d.Fits i node

theorem node_eq_ok_iff {d : Diagram} {id : NodeId} {node : Node} :
    d.node id = .ok node ↔ d.nodes[id.toIndex]? = some node := readAt_eq_ok_iff

@[simp] theorem toBool?_constant (order : VarOrder) (value : Bool) :
    (constant order value).toBool? = some value := NodeId.toBool?_ofBool value

theorem valid_constant (order : VarOrder) (value : Bool) : (constant order value).Valid where
  size_le := by simp [size, constant]
  zero_eq := rfl
  one_eq := rfl
  root_lt := by cases value <;> simp [constant, size, NodeId.ofBool]
  fits := by
    intro i node hi h
    have hlt := (Array.getElem?_eq_some_iff.1 h).1
    simp only [constant, List.size_toArray, List.length_cons, List.length_nil] at hlt
    omega

end Diagram

end DecisionDiagram
