import DecisionDiagram.Proofs.Cover.Obtained
import DecisionDiagram.Proofs.Diagram.Points
import DecisionDiagram.Proofs.Diagram.Separation
import DecisionDiagram.Proofs.Tree.Indexed

/-!
# Valuations that tell nodes apart

If no node stands twice in a table, then walks from two different ids end differently under
some valuation of the variables of the order.  With sharing a compiled table has no repeated
nodes, so that this holds of all compiled diagrams with sharing, whatever their size.
-/

namespace DecisionDiagram

namespace Diagram

variable {d : Diagram}

/-- For any two different ids there is a valuation under which the walks from them end in
different terminals. -/
def Separated (d : Diagram) : Prop :=
  ∀ id id' : NodeId, id.toIndex < d.size → id'.toIndex < d.size → id ≠ id' →
    ∃ (v : Valuation) (b : Bool), v.bits.size = d.numVars.toNat ∧
      (d.walkIn v id).stop = .leaf b ∧ (d.walkIn v id').stop = .leaf !b

theorem Distinct.front (h : d.Distinct) : d.front.Distinct := by
  intro id id' node hn hn'
  rw [getElem?_front] at hn hn'
  exact h id id' node hn hn'

theorem Grounded.separated (hd : d.Grounded) (h : d.Distinct) : d.Separated := by
  intro id id' hid hid' hne
  obtain ⟨σ, hσ⟩ : ∃ σ, d.valueAt σ id ≠ d.valueAt σ id' := by
    by_contra hsame
    simp only [not_exists, not_not] at hsame
    refine hne (Valid.eq_of_valueAt_eq hd h.front (lt_size_front.2 hid) (lt_size_front.2 hid') ?_)
    intro σ
    rw [← hd.valueAt_front hid, ← hd.valueAt_front hid', hsame]
  refine ⟨.ofPoint d.numVars.toNat σ, d.valueAt σ id, Valuation.size_ofPoint,
    hd.stop_walkIn_ofPoint hid σ, ?_⟩
  rw [hd.stop_walkIn_ofPoint hid' σ, Bool.eq_not.2 (Ne.symm hσ)]

end Diagram

namespace Cover

variable {c : Cover}

/-- With sharing no node stands twice in a compiled table. -/
theorem nodup_diagram (hs : c.sharing = true) : c.diagram.nodes.toList.Nodup := by
  have hindexed := c.tree.indexed_build (Pool.indexed_start c.order.numVars)
  rw [← hs, ← expansion_eq_build] at hindexed
  exact hindexed.nodup

end Cover

namespace Diagram

/-- Nodes with different ids have different functions, in every table that is read in which
no node stands twice, and in every table that is compiled with sharing. -/
theorem separated_nodes :
    (∀ (order : VarOrder) (nodes : Array Node) (root : NodeId) (d : Diagram),
      ofNodes order nodes root = .ok d → d.nodes.toList.Nodup → d.Separated) ∧
    ∀ c : Cover, c.sharing = true →
      ∃ d, c.compile = .ok d ∧ d.nodes.toList.Nodup ∧ d.Separated := by
  constructor
  · intro order nodes root d hread hnodup
    exact (valid_of_ofNodes hread).grounded.separated (distinct_of_nodup hnodup)
  · intro c hs
    have hnodup := Cover.nodup_diagram hs
    exact ⟨c.diagram, c.compile_eq, hnodup,
      c.grounded_diagram.separated (distinct_of_nodup hnodup)⟩

theorem separated_nodes_either :
    (∃ (v : Valuation) (b : Bool), v.bits.size = 2 ∧
      (either.walkIn v (.ofIndex 2)).stop = .leaf b ∧
      (either.walkIn v (.ofIndex 3)).stop = .leaf !b) ∧
    ∃ d, (Cover.sample true).compile = .ok d ∧ d.Separated := by
  obtain ⟨hread, hcompiled⟩ := separated_nodes
  constructor
  · have hsep := hread either.order either.nodes either.root either (by decide) (by decide)
    exact hsep (.ofIndex 2) (.ofIndex 3) (by decide) (by decide) (by decide)
  · obtain ⟨d, hd, -, hsep⟩ := hcompiled (Cover.sample true) rfl
    exact ⟨d, hd, hsep⟩

end Diagram

end DecisionDiagram
