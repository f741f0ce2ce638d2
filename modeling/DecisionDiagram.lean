import DecisionDiagram.Assignment
import DecisionDiagram.Completions
import DecisionDiagram.Cover.Basic
import DecisionDiagram.Cover.Compile
import DecisionDiagram.Cover.Expansion
import DecisionDiagram.Cover.Pool
import DecisionDiagram.Cover.Split
import DecisionDiagram.Cube
import DecisionDiagram.Cursor
import DecisionDiagram.Diagram.Basic
import DecisionDiagram.Diagram.Check
import DecisionDiagram.Diagram.Count
import DecisionDiagram.Diagram.Paths
import DecisionDiagram.Diagram.Solutions
import DecisionDiagram.Diagram.Support
import DecisionDiagram.Diagram.Walk
import DecisionDiagram.Dot.Delivery
import DecisionDiagram.Dot.Export
import DecisionDiagram.Dot.Label
import DecisionDiagram.Event
import DecisionDiagram.Failure
import DecisionDiagram.Node
import DecisionDiagram.Proofs.Assignment.Pairs
import DecisionDiagram.Proofs.Cover.Canonical
import DecisionDiagram.Proofs.Cover.Capacity
import DecisionDiagram.Proofs.Cover.Constraints
import DecisionDiagram.Proofs.Cover.Function
import DecisionDiagram.Proofs.Cover.Minimal
import DecisionDiagram.Proofs.Cover.Obtained
import DecisionDiagram.Proofs.Cover.Outgrown
import DecisionDiagram.Proofs.Cover.Readings
import DecisionDiagram.Proofs.Cover.Rebuild
import DecisionDiagram.Proofs.Cover.Reordering
import DecisionDiagram.Proofs.Cover.Replay
import DecisionDiagram.Proofs.Cover.Requests
import DecisionDiagram.Proofs.Cover.Run
import DecisionDiagram.Proofs.Cover.Separation
import DecisionDiagram.Proofs.Cover.Sharing
import DecisionDiagram.Proofs.Cover.Shortcuts
import DecisionDiagram.Proofs.Cover.Stages
import DecisionDiagram.Proofs.Cover.Structure
import DecisionDiagram.Proofs.Cover.Unshared
import DecisionDiagram.Proofs.Cube.Completions
import DecisionDiagram.Proofs.Cube.Edits
import DecisionDiagram.Proofs.Cube.Enumeration
import DecisionDiagram.Proofs.Cube.Inclusion
import DecisionDiagram.Proofs.Cube.Tight
import DecisionDiagram.Proofs.Diagram.Branches
import DecisionDiagram.Proofs.Diagram.Cardinality
import DecisionDiagram.Proofs.Diagram.Check
import DecisionDiagram.Proofs.Diagram.Conjunction
import DecisionDiagram.Proofs.Diagram.Constants
import DecisionDiagram.Proofs.Diagram.Count
import DecisionDiagram.Proofs.Diagram.Course
import DecisionDiagram.Proofs.Diagram.Defect
import DecisionDiagram.Proofs.Diagram.Grounded
import DecisionDiagram.Proofs.Diagram.Guard
import DecisionDiagram.Proofs.Diagram.Minimal
import DecisionDiagram.Proofs.Diagram.Named
import DecisionDiagram.Proofs.Diagram.Overflow
import DecisionDiagram.Proofs.Diagram.Partial
import DecisionDiagram.Proofs.Diagram.Pass
import DecisionDiagram.Proofs.Diagram.Paths
import DecisionDiagram.Proofs.Diagram.Points
import DecisionDiagram.Proofs.Diagram.Separation
import DecisionDiagram.Proofs.Diagram.Solutions
import DecisionDiagram.Proofs.Diagram.Support
import DecisionDiagram.Proofs.Diagram.Value
import DecisionDiagram.Proofs.Dot.Injective
import DecisionDiagram.Proofs.Draft.Calls
import DecisionDiagram.Proofs.Draft.Construction
import DecisionDiagram.Proofs.Event.Text
import DecisionDiagram.Proofs.Number.Binary64
import DecisionDiagram.Proofs.Number.Decimal
import DecisionDiagram.Proofs.Order.Names
import DecisionDiagram.Proofs.Order.Translation
import DecisionDiagram.Proofs.Order.Values
import DecisionDiagram.Proofs.Pool.Log
import DecisionDiagram.Proofs.Pool.Sound
import DecisionDiagram.Proofs.Tree.Basic
import DecisionDiagram.Proofs.Tree.Build
import DecisionDiagram.Proofs.Tree.Canonical
import DecisionDiagram.Proofs.Tree.Essential
import DecisionDiagram.Proofs.Tree.Indexed
import DecisionDiagram.Proofs.Tree.Pairs
import DecisionDiagram.Proofs.Tree.Parity
import DecisionDiagram.Proofs.Tree.Reach
import DecisionDiagram.Proofs.Tree.Routes
import DecisionDiagram.Proofs.Tree.Rows
import DecisionDiagram.Proofs.Tree.Unfold
import DecisionDiagram.Proofs.Tree.Unshared
import DecisionDiagram.Valuation
import DecisionDiagram.VarOrder
import DecisionDiagram.Variable
