import DecisionDiagram.Proofs.Cover.Canonical
import DecisionDiagram.Proofs.Cover.Separation
import DecisionDiagram.Proofs.Cover.Structure
import DecisionDiagram.Proofs.Diagram.Minimal

/-!
# Shared diagrams are minimal

With sharing, a compiled diagram is compact: the construction never repeats a node and
leaves none behind.  So among all diagrams with the same values, however they were
obtained, there is none with a smaller table.
-/

namespace DecisionDiagram

namespace Cover

variable {c : Cover}

/-! ### Compiled with sharing -/

theorem compact_diagram (hs : c.sharing = true) (hsize : c.diagram.size ≤ 4294967296) :
    c.diagram.Compact where
  nodup := nodup_diagram hs
  reached i h2 hi := by
    have hmem : NodeId.ofIndex i ∈ c.diagram.decisionIds :=
      Diagram.mem_decisionIds.2 ⟨i, h2, hi, rfl⟩
    exact ⟨.ofIndex i, (c.valid_diagram hsize).toIndex_ofIndex hi, reaches_diagram hsize hmem⟩

theorem minimal_diagram (hs : c.sharing = true) (hsize : c.diagram.size ≤ 4294967296)
    {d : Diagram} (hd : d.Grounded)
    (hroot : ∀ σ, d.valueAt σ d.root = c.diagram.valueAt σ c.diagram.root) :
    c.diagram.size ≤ d.size ∧ (c.diagram.size = d.size ↔ d.Compact) :=
  (compact_diagram hs hsize).minimal (c.valid_diagram hsize) hd hroot

/-- Sharing never makes the table larger. -/
theorem size_diagram_le_unshared (hs : c.sharing = true)
    (hsize : c.diagram.size ≤ 4294967296) :
    c.diagram.size ≤ (c.withSharing false).diagram.size := by
  by_cases hsize' : (c.withSharing false).diagram.size ≤ 4294967296
  · refine (minimal_diagram hs hsize ((c.withSharing false).valid_diagram hsize').grounded ?_).1
    intro σ
    rw [Bool.eq_iff_iff, valueAt_diagram _ hsize', valueAt_diagram _ hsize]
    rfl
  · omega

/-- Compiled with sharing, a cover gives a table that is no larger than that of any
diagram with the same values, and of equal size exactly if nodes in the other table are
neither repeated nor left behind. -/
theorem compile_minimal (c : Cover) (hs : c.sharing = true) :
    ∃ s u, c.compile = .ok s ∧ (c.withSharing false).compile = .ok u ∧
      (s.size ≤ 4294967296 →
        s.size ≤ u.size ∧
        ∀ d : Diagram, d.Obtained → d.order = c.order →
          (∀ v : Valuation, v.bits.size = c.order.numVars.toNat → d.eval v = s.eval v) →
          s.size ≤ d.size ∧ (s.size = d.size ↔ d.Compact)) := by
  refine ⟨c.diagram, (c.withSharing false).diagram, c.compile_eq, compile_eq _, ?_⟩
  intro hsize
  refine ⟨size_diagram_le_unshared hs hsize, ?_⟩
  intro d hd ho heval
  have hs' : c.diagram.Grounded := (c.valid_diagram hsize).grounded
  exact minimal_diagram hs hsize hd.grounded (hs'.valueAt_eq_of_eval_eq hd.grounded ho heval)

/-- The disjunction of two variables, with a node that stands twice in the table. -/
def padded : Diagram where
  order := (sample true).order
  nodes := #[.zero 2, .one 2, ⟨⟨1⟩, .zero, .one⟩, ⟨⟨1⟩, .zero, .one⟩, ⟨⟨0⟩, .ofIndex 3, .one⟩]
  root := .ofIndex 4

theorem compile_minimal_sample :
    ∃ s, (sample true).compile = .ok s ∧ s.size < padded.size := by
  obtain ⟨s, u, hs, -, h⟩ := compile_minimal (sample true) rfl
  have hsize : s.size ≤ 4294967296 := Nat.le_trans (size_compile_le hs) (by decide)
  have hpadded : padded.Obtained :=
    .read (show Diagram.ofNodes padded.order padded.nodes padded.root = .ok padded by decide)
  have heval : ∀ v : Valuation, v.bits.size = 2 → padded.eval v = s.eval v := by
    rw [compile_eq] at hs
    cases hs
    intro v hv
    obtain ⟨b, hb, hcovers⟩ := eval_diagram (c := sample true) hsize hv
    rw [covers_iff hv] at hcovers
    rw [hb]
    obtain ⟨⟨bits⟩⟩ := v
    obtain ⟨x, y, rfl⟩ := List.length_eq_two.1 hv
    have hvalue : padded.eval ⟨⟨[x, y]⟩⟩ = .ok (x || y) := by
      cases x <;> cases y <;> decide
    have hb' : b = (x || y) := by
      rw [Bool.eq_iff_iff, hcovers]
      cases x <;> cases y <;> decide
    rw [hvalue, hb']
  obtain ⟨hle, heq⟩ := (h hsize).2 padded hpadded rfl heval
  refine ⟨s, hs, Nat.lt_of_le_of_ne hle fun hsame => ?_⟩
  exact absurd (heq.1 hsame).nodup (by decide)

end Cover

end DecisionDiagram
