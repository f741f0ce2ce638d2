import DecisionDiagram.Proofs.Tree.Build
import Mathlib.Logic.Relation

/-!
# Building leaves nothing behind

Every node that is added while a tree is built can be reached from the id that is
delivered, and if any node is added at all then the last one is the one delivered.
A request for a node may come to a node that is there already; but then nothing was
added for its sides either, since a node that was added last is nobody's child.
-/

namespace DecisionDiagram

/-- There is a link from one node to the other. -/
def Diagram.Links (d : Diagram) (id id' : NodeId) : Prop :=
  ∃ (node : Node) (b : Bool), d.nodes[id.toIndex]? = some node ∧ node.child b = id'

/-- Links lead from one node to the other. -/
def Diagram.Reaches (d : Diagram) : NodeId → NodeId → Prop := Relation.ReflTransGen d.Links

theorem Diagram.Reaches.extend {d d' : Diagram} {id id' : NodeId} (h : d.Reaches id id')
    (hext : Extends d.nodes d'.nodes) : d'.Reaches id id' := by
  refine Relation.ReflTransGen.mono ?_ _ _ h
  rintro id id' ⟨node, b, hn, hb⟩
  exact ⟨node, b, hext _ _ hn, hb⟩

namespace Pool

variable {o : VarOrder} {p : Pool} {x : Variable} {low high id : NodeId}

/-- Both sides of a requested node can be reached from it. -/
theorem Sound.reaches_intern (hp : p.Sound o) (x : Variable) (low high : NodeId)
    (hsize : (p.intern x low high).2.nodes.size ≤ 4294967296) (b : Bool) :
    ((p.intern x low high).2.diagram o .zero).Reaches (p.intern x low high).1
      (if b then high else low) := by
  by_cases hne : low = high
  · subst hne
    rw [ite_self, intern_self]
    exact .refl
  · have hn := hp.getElem?_intern (x := x) hne hsize
    refine Relation.ReflTransGen.single ⟨_, b, hn, ?_⟩
    cases b <;> rfl

/-- A node that a request adds is the one delivered. -/
theorem intern_last (hsize : (p.intern x low high).2.nodes.size ≤ 4294967296) :
    (p.intern x low high).2.nodes.size = p.nodes.size ∨
      (p.intern x low high).1.toIndex = p.nodes.size ∧
        (p.intern x low high).2.nodes.size = p.nodes.size + 1 := by
  rcases p.intern_cases x low high with ⟨-, h⟩ | ⟨-, id, -, h⟩ | ⟨-, -, h⟩ <;> rw [h] at hsize ⊢
  · exact .inl rfl
  · exact .inl rfl
  · rw [nodes_push, Array.size_push] at hsize
    exact .inr ⟨NodeId.toIndex_ofIndex (by omega), by rw [nodes_push, Array.size_push]⟩

/-- Both sides of a node that is found stand before it. -/
theorem Sound.side_lt_of_find? (hp : p.Sound o) (hx : x.toIndex < o.numVars.toNat)
    (hf : p.find? ⟨x, low, high⟩ = some id) :
    low.toIndex < id.toIndex ∧ high.toIndex < id.toIndex ∧ id.toIndex < p.nodes.size := by
  have hn := (hp.find?_iff (isSome_ids_of_find? hf) _ _).1 hf
  have h2 := hp.valid.two_le_of_var_lt hn (UInt16.lt_iff_toNat_lt.2 hx)
  have fit := hp.valid.fits id.toIndex _ h2 hn
  exact ⟨fit.child_lt false, fit.child_lt true, (Array.getElem?_eq_some_iff.1 hn).1⟩

end Pool

namespace Tree

variable {o : VarOrder} {k : Nat} {t : Tree} {p : Pool}

theorem Ordered.reaches_build (ht : t.Ordered o.numVars.toNat k) (hk : k ≤ o.numVars.toNat)
    (hp : p.Sound o) (hsize : (t.build p).2.nodes.size ≤ 4294967296) (id : NodeId)
    (hnew : p.nodes.size ≤ id.toIndex) (hid : id.toIndex < (t.build p).2.nodes.size) :
    ((t.build p).2.diagram o .zero).Reaches (t.build p).1 id := by
  induction ht generalizing p with
  | leaf k value => exact absurd hid (Nat.not_lt_of_le hnew)
  | @branch k x high low hkx hx hth htl ihHigh ihLow =>
    obtain ⟨hsHigh, hsLow⟩ := size_build_branch hsize
    have hhigh := hth.build hx hp hsHigh
    have hlow := htl.build hx hhigh.sound hsLow
    have hext := (low.build (high.build p).2).2.extends_intern x (low.build (high.build p).2).1
      (high.build p).1
    rw [build_branch] at hid hsize ⊢
    have hside := hlow.sound.reaches_intern x _ _ hsize
    by_cases hinHigh : id.toIndex < (high.build p).2.nodes.size
    · exact (hside true).trans ((ihHigh hx hp hsHigh hnew hinHigh).extend (hlow.keeps.trans hext))
    · by_cases hinLow : id.toIndex < (low.build (high.build p).2).2.nodes.size
      · exact (hside false).trans
          ((ihLow hx hhigh.sound hsLow (Nat.le_of_not_lt hinHigh) hinLow).extend hext)
      · -- The node was added by the request itself.
        rcases Pool.intern_last hsize with hsame | ⟨hlast, hone⟩
        · omega
        · have heq := NodeId.toIndex_inj.1 (hlast.trans (by omega : _ = id.toIndex))
          rw [heq]
          exact .refl

/-- If anything is added then the id that is delivered comes last. -/
theorem Ordered.last_build (ht : t.Ordered o.numVars.toNat k) (hk : k ≤ o.numVars.toNat)
    (hp : p.Sound o) (hsize : (t.build p).2.nodes.size ≤ 4294967296) :
    (t.build p).2.nodes.size = p.nodes.size ∨
      (t.build p).1.toIndex + 1 = (t.build p).2.nodes.size := by
  induction ht generalizing p with
  | leaf k value => exact .inl rfl
  | @branch k x high low hkx hx hth htl ihHigh ihLow =>
    obtain ⟨hsHigh, hsLow⟩ := size_build_branch hsize
    have hhigh := hth.build hx hp hsHigh
    have hlow := htl.build hx hhigh.sound hsLow
    have hlastHigh := ihHigh hx hp hsHigh
    have hlastLow := ihLow hx hhigh.sound hsLow
    have hgrows := hlow.keeps.size_le
    rw [build_branch] at hsize ⊢
    rcases Pool.intern_cases (low.build (high.build p).2).2 x (low.build (high.build p).2).1
      (high.build p).1 with ⟨heq, h⟩ | ⟨-, id, hf, h⟩ | ⟨-, -, h⟩ <;> rw [h] at hsize ⊢
    · -- Both sides are the same id, which comes last if either of them added anything.
      rw [← heq] at hlastHigh
      simp only [Pool.nodes_log]
      omega
    · -- Neither side is the last of the table, so neither added anything.
      have hlt := hlow.sound.side_lt_of_find? hx hf
      simp only [Pool.nodes_log]
      omega
    · rw [Pool.nodes_push, Array.size_push] at hsize
      rw [Pool.fst_push, Pool.nodes_push, Array.size_push, NodeId.toIndex_ofIndex (by omega)]
      exact .inr rfl

end Tree

end DecisionDiagram
