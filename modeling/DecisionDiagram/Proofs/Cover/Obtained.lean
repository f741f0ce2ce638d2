import DecisionDiagram.Proofs.Cover.Function
import DecisionDiagram.Proofs.Diagram.Check
import DecisionDiagram.Proofs.Diagram.Grounded

/-!
# Diagrams as they are obtained

There are two ways to a diagram: a table from elsewhere that passes the check, and a
cover that is compiled.  In both the part of the table that links can lead to is valid,
however long the table is: a construction that runs out of ids goes on behind a full
table that was sound, and no link leads there.
-/

namespace DecisionDiagram

/-- A compiled diagram is grounded, whether or not its table fits the ids. -/
theorem Cover.grounded_diagram (c : Cover) : c.diagram.Grounded := by
  by_cases hsize : c.diagram.size ≤ 4294967296
  · exact (c.valid_diagram hsize).grounded
  · have hbig := Nat.lt_of_not_le hsize
    rw [← size_build_tree] at hbig
    obtain ⟨q, hq, hfull, hext⟩ :=
      c.ordered_tree.exists_full_pool (Nat.zero_le _) (Pool.sound_start c.order c.sharing) hbig
    rw [← expansion_eq_build] at hext
    exact hq.valid.grounded_of_extends rfl hfull hext

namespace Diagram

variable {d : Diagram}

/-- A diagram that was read from a table or compiled from a cover. -/
inductive Obtained (d : Diagram) : Prop
  /-- The table passed the check. -/
  | read {order : VarOrder} {nodes : Array Node} {root : NodeId} :
    ofNodes order nodes root = .ok d → d.Obtained
  /-- The diagram is the result of a compilation. -/
  | compiled {c : Cover} : c.compile = .ok d → d.Obtained

theorem valid_of_ofNodes {order : VarOrder} {nodes : Array Node} {root : NodeId}
    (h : ofNodes order nodes root = .ok d) : d.Valid :=
  (ofNodes_eq_ok_iff.1 h).2

/-- A valid diagram can be read from its own table. -/
theorem Valid.obtained (hd : d.Valid) : d.Obtained := .read (ofNodes_eq_ok_iff.2 ⟨rfl, hd⟩)

theorem Obtained.grounded (h : d.Obtained) : d.Grounded := by
  cases h with
  | read h => exact (valid_of_ofNodes h).grounded
  | compiled h =>
    rw [Cover.compile_eq] at h
    cases h
    exact Cover.grounded_diagram _

/-- The disjunction of two variables, which is what the sample covers. -/
def either : Diagram where
  order := (Cover.sample false).order
  nodes := #[.zero 2, .one 2, ⟨⟨1⟩, .zero, .one⟩, ⟨⟨0⟩, .ofIndex 2, .one⟩]
  root := .ofIndex 3

theorem valid_either : either.Valid :=
  valid_of_ofNodes (show ofNodes either.order either.nodes either.root = .ok either by decide)

theorem obtained_either : either.Obtained := valid_either.obtained

end Diagram

end DecisionDiagram
