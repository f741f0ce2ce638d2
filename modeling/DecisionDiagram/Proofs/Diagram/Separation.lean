import DecisionDiagram.Proofs.Diagram.Value
import Mathlib.Data.List.Nodup
import Mathlib.Logic.Function.Basic

/-!
# Nodes with the same function

In a valid diagram only the terminals have constant functions.  If moreover no node
stands twice in the table, the function of a node determines its position: two
nodes that agree at every point are the same node.  Both facts go down the table,
from a node to the functions of its two children, which are its cofactors.
-/

namespace DecisionDiagram

namespace Diagram

open Function

variable {d : Diagram} {σ : Point} {id id' : NodeId} {node node' : Node} {x : Variable} {b : Bool}

/-- No node stands at two positions of the table. -/
def Distinct (d : Diagram) : Prop :=
  ∀ (id id' : NodeId) (node : Node), d.nodes[id.toIndex]? = some node →
    d.nodes[id'.toIndex]? = some node → id = id'

theorem distinct_of_nodup (h : d.nodes.toList.Nodup) : d.Distinct := by
  intro id id' node hn hn'
  obtain ⟨hlt, heq⟩ := Array.getElem?_eq_some_iff.1 hn
  obtain ⟨hlt', heq'⟩ := Array.getElem?_eq_some_iff.1 hn'
  have hget : d.nodes.toList.get ⟨id.toIndex, hlt⟩ = d.nodes.toList.get ⟨id'.toIndex, hlt'⟩ :=
    heq.trans heq'.symm
  exact NodeId.toIndex_inj.1 (Fin.mk.inj (List.nodup_iff_injective_get.1 h hget))

/-- The function of the node is the same for both values of the variable. -/
def Ignores (d : Diagram) (x : Variable) (id : NodeId) : Prop :=
  ∀ σ b, d.valueAt (update σ x b) id = d.valueAt σ id

namespace Valid

/-! ### Cofactors -/

/-- A node ignores the variables that come before its own. -/
theorem ignores_of_lt (hd : d.Valid) (hn : d.nodes[id.toIndex]? = some node)
    (hx : x < node.var) : d.Ignores x id := by
  intro σ b
  refine hd.valueAt_congr hn ?_
  intro y hy
  refine update_of_ne ?_ _ _
  rintro rfl
  rw [Variable.lt_iff] at hx
  rw [Variable.le_iff] at hy
  omega

/-- The children of a decision node have its cofactors as functions. -/
theorem valueAt_child (hd : d.Valid) (h2 : 2 ≤ id.toIndex)
    (hn : d.nodes[id.toIndex]? = some node) (b : Bool) :
    d.valueAt σ (node.child b) = d.valueAt (update σ node.var b) id := by
  have hlt := hd.child_lt_size h2 hn b
  have hchild : d.nodes[(node.child b).toIndex]? = some _ := Array.getElem?_eq_getElem hlt
  rw [hd.valueAt_node h2 hn, update_self]
  exact (hd.ignores_of_lt hchild ((hd.fits _ _ h2 hn).var_lt_child _ _ hchild) σ b).symm

/-! ### Constant functions -/

/-- A node with a constant function is a terminal. -/
theorem eq_ofBool (hd : d.Valid) (hid : id.toIndex < d.size) (h : ∀ σ, d.valueAt σ id = b) :
    id = .ofBool b := by
  induction id, hid using hd.induct with
  | terminal c _ =>
    have hc := h fun _ => false
    rw [valueAt_ofBool] at hc
    rw [hc]
  | decision id node _ h2 hn ih =>
    have hchild : ∀ c, node.child c = .ofBool b := by
      intro c
      refine ih c (hd.child_lt_size h2 hn c) ?_
      intro σ
      rw [hd.valueAt_child h2 hn, h]
    exact absurd ((hchild false).trans (hchild true).symm) (hd.fits _ _ h2 hn).low_ne_high

/-! ### Equal functions -/

/-- A node that ignores its own variable has two children with the same function. -/
theorem valueAt_children_eq (hd : d.Valid) (h2 : 2 ≤ id.toIndex)
    (hn : d.nodes[id.toIndex]? = some node) (h : d.Ignores node.var id) (b c : Bool) :
    ∀ σ, d.valueAt σ (node.child b) = d.valueAt σ (node.child c) := by
  intro σ
  rw [hd.valueAt_child h2 hn, hd.valueAt_child h2 hn, h, h]

/-- Without repeated nodes, nodes with the same function are the same. -/
theorem eq_of_valueAt_eq (hd : d.Valid) (hdist : d.Distinct) (hid : id.toIndex < d.size)
    (hid' : id'.toIndex < d.size) (h : ∀ σ, d.valueAt σ id = d.valueAt σ id') : id = id' := by
  induction id, hid using hd.induct generalizing id' with
  | terminal b _ =>
    refine (hd.eq_ofBool hid' ?_).symm
    intro σ
    rw [← h, valueAt_ofBool]
  | decision id node hid h2 hn ih =>
    induction id', hid' using hd.induct with
    | terminal b _ =>
      refine hd.eq_ofBool hid ?_
      intro σ
      rw [h, valueAt_ofBool]
    | decision id' node' _ h2' hn' ih' =>
      have hchild := fun c => hd.child_lt_size h2 hn c
      have hchild' := fun c => hd.child_lt_size h2' hn' c
      rcases Nat.lt_trichotomy node.var.toIndex node'.var.toIndex with hlt | heq | hgt
      · -- The first node would test a variable that does not matter.
        have hignores : d.Ignores node.var id := by
          intro σ b
          rw [h, h, hd.ignores_of_lt hn' (Variable.lt_iff.2 hlt)]
        have hsame := ih false (hchild false) (hchild true)
          (hd.valueAt_children_eq h2 hn hignores false true)
        exact absurd hsame (hd.fits _ _ h2 hn).low_ne_high
      · have hvar := Variable.toIndex_inj.1 heq
        have hside : ∀ c, node.child c = node'.child c := by
          intro c
          refine ih c (hchild c) (hchild' c) ?_
          intro σ
          rw [hd.valueAt_child h2 hn, hd.valueAt_child h2' hn', h, hvar]
        have hnode : node = node' := by
          cases node
          cases node'
          cases hvar
          cases hside false
          cases hside true
          rfl
        exact hdist id id' node hn (hnode ▸ hn')
      · -- The first node has the function of both children of the second.
        have hside : ∀ c, id = node'.child c := by
          intro c
          refine ih' c (hchild' c) ?_
          intro σ
          rw [hd.valueAt_child h2' hn', ← h, hd.ignores_of_lt hn (Variable.lt_iff.2 hgt)]
        exact absurd ((hside false).symm.trans (hside true)) (hd.fits _ _ h2' hn').low_ne_high

/-- Without repeated nodes, no decision node ignores its own variable. -/
theorem not_ignores (hd : d.Valid) (hdist : d.Distinct) (h2 : 2 ≤ id.toIndex)
    (hn : d.nodes[id.toIndex]? = some node) : ¬d.Ignores node.var id := by
  intro hignores
  have hsame := hd.eq_of_valueAt_eq hdist (hd.child_lt_size h2 hn false)
    (hd.child_lt_size h2 hn true) (hd.valueAt_children_eq h2 hn hignores false true)
  exact (hd.fits _ _ h2 hn).low_ne_high hsame

end Valid

end Diagram

end DecisionDiagram
