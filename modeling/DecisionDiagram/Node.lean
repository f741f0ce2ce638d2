import DecisionDiagram.Variable

/-!
# Nodes and their ids

A diagram is a table of nodes that refer to each other by position.  `NodeId` is
such a position, kept in 32 bits: a position from `2 ^ 32` on loses its high bits.
Ids 0 and 1 are the terminals.  A `Node` holds a variable and two links; a
terminal is a node whose links both lead to itself, and it carries the number of
variables, so that every decision variable comes before it.
-/

namespace DecisionDiagram

/-- A position in a node table. -/
structure NodeId where
  /-- The position. -/
  index : UInt32
  deriving DecidableEq, Hashable, Ord, Repr, Inhabited

namespace NodeId

/-- The id of the terminal `0`. -/
def zero : NodeId := ⟨0⟩

/-- The id of the terminal `1`. -/
def one : NodeId := ⟨1⟩

/-- The id of position `i`, of which the low 32 bits are kept. -/
def ofIndex (i : Nat) : NodeId := ⟨UInt32.ofNat i⟩

/-- The position as a natural number. -/
def toIndex (id : NodeId) : Nat := id.index.toNat

/-- The terminal that stands for a truth value. -/
def ofBool (value : Bool) : NodeId := if value then one else zero

/-- The truth value of a terminal; decision nodes have none. -/
def toBool? (id : NodeId) : Option Bool :=
  if id = zero then some false else if id = one then some true else none

/-- Whether this is the terminal `0`. -/
def isZero (id : NodeId) : Bool := id = zero

/-- Whether this is the terminal `1`. -/
def isOne (id : NodeId) : Bool := id = one

/-- Whether this is one of the two terminals. -/
def isTerminal (id : NodeId) : Bool := id.toIndex < 2

instance : ToString NodeId where
  toString id := toString id.toIndex

theorem toIndex_lt (id : NodeId) : id.toIndex < 4294967296 := id.index.toNat_lt

theorem toIndex_inj {a b : NodeId} : a.toIndex = b.toIndex ↔ a = b := by
  cases a; cases b; simp [toIndex, UInt32.toNat_inj]

@[simp] theorem toIndex_zero : zero.toIndex = 0 := rfl

@[simp] theorem toIndex_one : one.toIndex = 1 := rfl

theorem toIndex_ofIndex_mod (i : Nat) : (ofIndex i).toIndex = i % 4294967296 := by
  simp [ofIndex, toIndex]

theorem toIndex_ofIndex {i : Nat} (h : i < 4294967296) : (ofIndex i).toIndex = i := by
  rw [toIndex_ofIndex_mod, Nat.mod_eq_of_lt h]

@[simp] theorem ofIndex_toIndex (id : NodeId) : ofIndex id.toIndex = id := by
  simp [ofIndex, toIndex]

@[simp] theorem toBool?_ofBool (value : Bool) : (ofBool value).toBool? = some value := by
  cases value <;> rfl

theorem ofBool_inj {value value' : Bool} : ofBool value = ofBool value' ↔ value = value' := by
  cases value <;> cases value' <;> decide

/-- A terminal is not at the position of a decision node. -/
theorem not_two_le_ofBool (value : Bool) : ¬2 ≤ (ofBool value).toIndex := by
  cases value <;> decide

theorem toBool?_eq_some_iff {id : NodeId} {value : Bool} :
    id.toBool? = some value ↔ id = ofBool value := by
  constructor
  · intro h
    unfold toBool? at h
    split at h
    · simp_all [ofBool]
    · split at h <;> simp_all [ofBool]
  · rintro rfl
    exact toBool?_ofBool value

theorem toBool?_eq_none_iff {id : NodeId} : id.toBool? = none ↔ 2 ≤ id.toIndex := by
  have h0 : id = zero ↔ id.toIndex = 0 := by rw [← toIndex_inj, toIndex_zero]
  have h1 : id = one ↔ id.toIndex = 1 := by rw [← toIndex_inj, toIndex_one]
  unfold toBool?
  split
  · rename_i h
    simp [h]
  · split
    · rename_i h
      simp [h]
    · rename_i hz ho
      simp only [true_iff]
      have := mt h0.2 hz
      have := mt h1.2 ho
      omega

theorem isTerminal_iff {id : NodeId} : id.isTerminal ↔ id.toBool?.isSome := by
  rw [← Option.ne_none_iff_isSome, Ne, toBool?_eq_none_iff]
  simp [isTerminal]

end NodeId

/-- A row of a node table: the variable that is tested, and where to go on. -/
structure Node where
  /-- The variable tested; for a terminal, the number of variables. -/
  var : Variable
  /-- Where to go on when the variable is false. -/
  low : NodeId
  /-- Where to go on when the variable is true. -/
  high : NodeId
  deriving DecidableEq, Hashable, Repr, Inhabited

namespace Node

/-- The terminal `0` of a diagram over `numVars` variables. -/
def zero (numVars : UInt16) : Node := ⟨⟨numVars⟩, .zero, .zero⟩

/-- The terminal `1` of a diagram over `numVars` variables. -/
def one (numVars : UInt16) : Node := ⟨⟨numVars⟩, .one, .one⟩

/-- The link for one value of the tested variable. -/
def child (node : Node) (value : Bool) : NodeId := if value then node.high else node.low

/-- Whether the links are those of the terminal `0`. -/
def isZero (node : Node) : Bool := node.low.isZero && node.high.isZero

/-- Whether the links are those of the terminal `1`. -/
def isOne (node : Node) : Bool := node.low.isOne && node.high.isOne

@[simp] theorem child_false (node : Node) : node.child false = node.low := rfl

@[simp] theorem child_true (node : Node) : node.child true = node.high := rfl

end Node

end DecisionDiagram
