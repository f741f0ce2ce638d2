/-!
# What can go wrong

A call can fail in two ways.  An `InputError` says that what the caller supplied
does not fit: a name that is unknown, a table that is no diagram.  A `Fault` says
that an operation was applied outside its domain, such as reading a valuation
beyond its end.  `Failure` is either of the two, for operations that can meet
both.  Each cause is a constructor; the wording is kept in the `message`
functions and nowhere else.
-/

namespace DecisionDiagram

/-- The first reason why a node table with a root is not a diagram. -/
inductive TableDefect
  /-- There is no room for the two terminals. -/
  | missingTerminals
  /-- Position 0 does not hold the terminal `0`. -/
  | zeroTerminal
  /-- Position 1 does not hold the terminal `1`. -/
  | oneTerminal
  /-- The root lies outside the table. -/
  | missingRoot (root : Nat)
  /-- A decision node tests a variable outside the order. -/
  | invalidVariable (var node : Nat)
  /-- The low link of a node does not lead to an earlier node. -/
  | forwardLow (link node : Nat)
  /-- The high link of a node does not lead to an earlier node. -/
  | forwardHigh (link node : Nat)
  /-- Both links of a node lead to the same place. -/
  | redundant (node link : Nat)
  /-- A child of the node does not test a later variable. -/
  | unordered (node : Nat)
  deriving DecidableEq, Repr

/-- The wording of a defect. -/
def TableDefect.message : TableDefect → String
  | .missingTerminals => "missing terminal nodes"
  | .zeroTerminal => "node at position 0 must be the zero terminal"
  | .oneTerminal => "node at position 1 must be the one terminal"
  | .missingRoot root => s!"root {root} does not exist"
  | .invalidVariable var node => s!"invalid variable {var} in node {node}"
  | .forwardLow link node => s!"low link {link} of node {node} is not created before the node"
  | .forwardHigh link node => s!"high link {link} of node {node} is not created before the node"
  | .redundant node link => s!"node {node} is redundant: both links lead to {link}"
  | .unordered node => s!"node {node} breaks the variable order"

/-- Why an input was refused. -/
inductive InputError
  /-- Evaluation needs a variable that the assignment leaves open. -/
  | missingVariable (name : String)
  /-- The name is not in the variable order. -/
  | unknownVariable (name : String)
  /-- The name occurs twice in a variable order. -/
  | duplicateVariable (name : String)
  /-- A variable order has more names than a node can tell apart. -/
  | tooManyVariables (count limit : Nat)
  /-- A raw table is not a diagram. -/
  | malformedTable (defect : TableDefect)
  deriving DecidableEq, Repr

/-- The wording of a refused input. Names are inserted as they are. -/
def InputError.message : InputError → String
  | .missingVariable name =>
    "variable `" ++ name ++ "` is required by the diagram but has no value in the assignment"
  | .unknownVariable name => "variable `" ++ name ++ "` is not part of the variable order"
  | .duplicateVariable name =>
    "variable `" ++ name ++ "` appears more than once in the variable order"
  | .tooManyVariables count limit =>
    s!"too many variables: got {count}, but at most {limit} are supported"
  | .malformedTable defect => "malformed node table: " ++ defect.message

/-- Which precondition an operation found broken. -/
inductive Fault
  /-- The index is too large for a variable. -/
  | variableOutOfRange (index : Nat)
  /-- A sequence was read beyond its end. -/
  | indexOutOfBounds (length index : Nat)
  /-- A clause to be completed fixes a variable that is not there. -/
  | clauseOutside (last numVars : Nat)
  /-- A minterm to be stored fixes a variable that is not there. -/
  | mintermOutside (last numVars : Nat)
  /-- A valuation does not have one value per variable of the diagram. -/
  | valuationMismatch (diagram valuation : Nat)
  /-- Two branches were to be joined before both were there. -/
  | missingBranch (var : Nat)
  /-- A decision node leads to `0` on both sides. -/
  | deadEnd (node : Nat)
  /-- A walk follows a cycle of links and never ends. -/
  | endlessWalk (node : Nat)
  /-- A finished construction did not pass the check of its table. -/
  | invalidResult (error : InputError)
  deriving DecidableEq, Repr

/-- The wording of a broken precondition. -/
def Fault.message : Fault → String
  | .variableOutOfRange index => s!"Variable index {index} is out of range."
  | .indexOutOfBounds length index =>
    s!"index out of bounds: the len is {length} but the index is {index}"
  | .clauseOutside last numVars =>
    s!"Clause fixes variable {last} outside of {numVars} variables."
  | .mintermOutside last numVars =>
    s!"Minterm fixes variable {last}, but there are only {numVars} variables."
  | .valuationMismatch diagram valuation =>
    s!"Diagram has {diagram} variables, but valuation has {valuation}."
  | .missingBranch var => s!"Merge on {var} without two developed branches."
  | .deadEnd node => s!"Node {node} has two zero links."
  | .endlessWalk node => s!"The walk from node {node} does not end."
  | .invalidResult error => "Construction produced an invalid diagram: " ++ error.message

/-- The failure of an operation that can both refuse its input and break a
precondition. -/
inductive Failure
  /-- The input was refused. -/
  | input (error : InputError)
  /-- A precondition was broken. -/
  | fault (cause : Fault)
  deriving DecidableEq, Repr

/-- The wording of a failure. -/
def Failure.message : Failure → String
  | .input e => e.message
  | .fault f => f.message

instance : MonadLift (Except InputError) (Except Failure) where
  monadLift := Except.mapError .input

instance : MonadLift (Except Fault) (Except Failure) where
  monadLift := Except.mapError .fault

/-- The element at `index`, or the fault of reading beyond the end. -/
def readAt {α : Type u} (elements : Array α) (index : Nat) : Except Fault α :=
  match elements[index]? with
  | some element => .ok element
  | none => .error (.indexOutOfBounds elements.size index)

theorem readAt_eq_ok_iff {α : Type u} {elements : Array α} {index : Nat} {element : α} :
    readAt elements index = .ok element ↔ elements[index]? = some element := by
  cases h : elements[index]? <;> simp [readAt, h]

theorem readAt_eq_ok {α : Type u} {elements : Array α} {index : Nat} (h : index < elements.size) :
    readAt elements index = .ok elements[index] :=
  readAt_eq_ok_iff.2 (Array.getElem?_eq_getElem h)

end DecisionDiagram
