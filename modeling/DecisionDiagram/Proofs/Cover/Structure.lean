import DecisionDiagram.Proofs.Cover.Function
import DecisionDiagram.Proofs.Diagram.Check
import DecisionDiagram.Proofs.Tree.Reach

/-!
# The structure of compiled diagrams

A compiled diagram passes the check, so it may also be given out as a table and taken
back.  It holds no node that its root does not need: the table starts with the two
terminals, and whatever is added to them while the tree of the cover is built can be
reached from the root.
-/

namespace DecisionDiagram

namespace Cover

variable {c : Cover} {id : NodeId}

theorem check_diagram (hsize : c.diagram.size ≤ 4294967296) : c.diagram.check = .ok () :=
  Diagram.check_eq_ok_iff_valid.2 (c.valid_diagram hsize)

/-- Every decision node of a compiled diagram can be reached from its root. -/
theorem reaches_diagram (hsize : c.diagram.size ≤ 4294967296) (hid : id ∈ c.diagram.decisionIds) :
    c.diagram.Reaches c.diagram.root id := by
  obtain ⟨i, h2, hi, rfl⟩ := Diagram.mem_decisionIds.1 hid
  have hidx := (c.valid_diagram hsize).toIndex_ofIndex hi
  have hbuilt := c.ordered_tree.reaches_build (Nat.zero_le _)
    (Pool.sound_start c.order c.sharing) (c.size_build_tree ▸ hsize) (.ofIndex i)
    (by rw [hidx, Pool.size_start]; exact h2) (by rw [hidx, size_build_tree]; exact hi)
  rw [← expansion_eq_build] at hbuilt
  exact hbuilt.extend (.refl _)

/-- The root of a compiled diagram is its last node, unless there are only terminals. -/
theorem root_diagram (hsize : c.diagram.size ≤ 4294967296) :
    c.diagram.root.toIndex + 1 = c.diagram.size ∨
      c.diagram.toBool?.isSome ∧ c.diagram.size = 2 := by
  have hlast := c.ordered_tree.last_build (Nat.zero_le _) (Pool.sound_start c.order c.sharing)
    (c.size_build_tree ▸ hsize)
  rw [← expansion_eq_build] at hlast
  rcases hlast with hsame | hlast
  · right
    have htwo : c.diagram.size = 2 := hsame
    have hroot := (c.valid_diagram hsize).root_lt
    refine ⟨?_, htwo⟩
    cases hb : c.diagram.root.toBool? with
    | some b => simp [Diagram.toBool?, hb]
    | none =>
      have := NodeId.toBool?_eq_none_iff.1 hb
      omega
  · exact .inl hlast

/-- A compiled diagram passes the check, so that a checked compilation succeeds as
well and the diagram is got back from its table.  Every decision node can be reached
from the root, which is the last node or else a terminal of a table of two. -/
theorem check_compile (c : Cover) :
    ∃ d events, c.compileLogged = .ok (d, events) ∧ c.compile = .ok d ∧
      (d.size ≤ 4294967296 →
        d.check = .ok () ∧ c.compileChecked = .ok (d, events) ∧
        Diagram.ofNodes d.order d.nodes d.root = .ok d ∧
        (∀ id ∈ d.decisionIds, d.Reaches d.root id) ∧
        (d.root.toIndex + 1 = d.size ∨ d.toBool?.isSome ∧ d.size = 2)) := by
  refine ⟨c.diagram, _, c.compileLogged_eq, c.compile_eq, ?_⟩
  intro hsize
  have hcheck := check_diagram hsize
  refine ⟨hcheck, ?_, ?_, fun id => reaches_diagram hsize, root_diagram hsize⟩
  · simp [compileChecked, compileLogged_eq, hcheck, bind, Except.bind, pure, Except.pure]
  · rw [Diagram.ofNodes, hcheck]
    rfl

theorem check_compile_sample :
    ∃ d, (sample false).compile = .ok d ∧ d.check = .ok () ∧
      Diagram.ofNodes d.order d.nodes d.root = .ok d := by
  obtain ⟨d, events, -, hd, h⟩ := check_compile (sample false)
  obtain ⟨hcheck, -, hnodes, -⟩ := h (Nat.le_trans (size_compile_le hd) (by decide))
  exact ⟨d, hd, hcheck, hnodes⟩

end Cover

end DecisionDiagram
