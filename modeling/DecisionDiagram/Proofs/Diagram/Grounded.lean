import DecisionDiagram.Proofs.Diagram.Value

/-!
# Tables larger than their ids

An id has 32 bits, so no link leads beyond the first `2 ^ 32` positions of a table.
`Diagram.front` is the part that ids can address.  A diagram is grounded if that part is
valid.  Whatever follows links cannot tell a grounded diagram from its front: this module
carries the functions of nodes, and the induction over the table, from the one to the
other.
-/

namespace DecisionDiagram

namespace Diagram

variable {d : Diagram} {σ : Point} {id : NodeId} {node : Node} {b : Bool}

/-- The part of the table that ids can address. -/
def front (d : Diagram) : Diagram := { d with nodes := d.nodes.take 4294967296 }

/-- What links can lead to is a valid diagram. -/
def Grounded (d : Diagram) : Prop := d.front.Valid

/-! ### The front seen through ids -/

theorem getElem?_front (d : Diagram) (id : NodeId) :
    d.front.nodes[id.toIndex]? = d.nodes[id.toIndex]? := by
  have hlt := id.toIndex_lt
  simp only [front, Array.take_eq_extract, Array.getElem?_extract]
  split
  · rw [Nat.zero_add]
  · exact (Array.getElem?_eq_none (by omega)).symm

theorem extends_front (d : Diagram) : Extends d.front.nodes d.nodes := by
  intro i node hn
  have hlt := (Array.getElem?_eq_some_iff.1 hn).1
  simp only [front, Array.take_eq_extract, Array.size_extract] at hlt
  have hid : (NodeId.ofIndex i).toIndex = i := NodeId.toIndex_ofIndex (by omega)
  rw [← hid, ← getElem?_front, hid, hn]

theorem lt_size_front : id.toIndex < d.front.size ↔ id.toIndex < d.size := by
  have hlt := id.toIndex_lt
  simp only [front, size, Array.take_eq_extract, Array.size_extract]
  omega

theorem front_eq_self (hsize : d.size ≤ 4294967296) : d.front = d := by
  simp only [size] at hsize
  simp only [front, Array.extract_eq_self_of_le hsize]

theorem Valid.grounded (hd : d.Valid) : d.Grounded := by
  rw [Grounded, front_eq_self hd.size_le]
  exact hd

theorem Grounded.valid (hd : d.Grounded) (hsize : d.size ≤ 4294967296) : d.Valid := by
  rwa [Grounded, front_eq_self hsize] at hd

/-- A diagram is grounded if it is longer than ids can tell and begins with a valid one
of the full length. -/
theorem Valid.grounded_of_extends {d' : Diagram} (hd : d'.Valid) (ho : d'.order = d.order)
    (hsize : d'.size = 4294967296) (hext : Extends d'.nodes d.nodes) : d.Grounded := by
  have hnodes : d.front.nodes = d'.nodes := by
    have hle := hext.size_le
    simp only [size] at hsize
    refine Array.ext_getElem? fun i => ?_
    by_cases hi : i < d'.nodes.size
    · have hn := hext i _ (Array.getElem?_eq_getElem hi)
      have hid : (NodeId.ofIndex i).toIndex = i := NodeId.toIndex_ofIndex (by omega)
      rw [← hid, getElem?_front, hid, hn, Array.getElem?_eq_getElem hi]
    · have hlast : d.front.nodes.size ≤ i := by
        simp only [front, Array.take_eq_extract, Array.size_extract]
        omega
      rw [Array.getElem?_eq_none hlast, Array.getElem?_eq_none (by omega)]
  have hfront : d.front = { d' with root := d.root } := by
    simp only [front] at hnodes ⊢
    rw [hnodes, ho]
  rw [Grounded, hfront]
  exact hd.withRoot (hsize ▸ d.root.toIndex_lt)

namespace Grounded

/-! ### The rules -/

theorem root_lt (hd : d.Grounded) : d.root.toIndex < d.size := lt_size_front.1 (Valid.root_lt hd)

/-- The nodes that links can lead to fit. -/
theorem fits (hd : d.Grounded) (h2 : 2 ≤ id.toIndex) (hn : d.nodes[id.toIndex]? = some node) :
    d.Fits id.toIndex node := by
  have fit := Valid.fits hd id.toIndex node h2 (by rw [getElem?_front, hn])
  refine ⟨fit.var_lt, fit.low_ne_high, fit.child_lt, fun b child hchild => ?_⟩
  exact fit.var_lt_child b child (by rw [getElem?_front, hchild])

/-- The terminals carry the number of variables. -/
theorem var_ofBool (hd : d.Grounded) (b : Bool)
    (hn : d.nodes[(NodeId.ofBool b).toIndex]? = some node) : node.var = ⟨d.numVars⟩ :=
  Valid.var_ofBool (d := d.front) hd b (by rw [getElem?_front, hn])

theorem child_lt_size (hd : d.Grounded) (h2 : 2 ≤ id.toIndex)
    (hn : d.nodes[id.toIndex]? = some node) (b : Bool) : (node.child b).toIndex < d.size := by
  have hlt := (Array.getElem?_eq_some_iff.1 hn).1
  have hchild := (hd.fits h2 hn).child_lt b
  simp only [size]
  omega

/-- A link leads to an earlier position, where a later variable stands. -/
theorem exists_child (hd : d.Grounded) (h2 : 2 ≤ id.toIndex)
    (hn : d.nodes[id.toIndex]? = some node) (b : Bool) :
    ∃ child, d.nodes[(node.child b).toIndex]? = some child ∧
      (node.child b).toIndex < id.toIndex ∧ node.var.toIndex < child.var.toIndex := by
  obtain ⟨child, hchild, hdown, hup⟩ :=
    Valid.exists_child hd h2 (by rw [getElem?_front, hn]) b
  rw [getElem?_front] at hchild
  exact ⟨child, hchild, hdown, hup⟩

/-- What holds of the terminals, and of each decision node if it holds of both its
children, holds of all nodes that links can lead to. -/
theorem induct (hd : d.Grounded) {motive : (id : NodeId) → id.toIndex < d.size → Prop}
    (terminal : ∀ b h, motive (.ofBool b) h)
    (decision : ∀ id node h, 2 ≤ id.toIndex → d.nodes[id.toIndex]? = some node →
      (∀ b hb, motive (node.child b) hb) → motive id h)
    (id : NodeId) (hid : id.toIndex < d.size) : motive id hid := by
  induction id, lt_size_front.2 hid using Valid.induct hd with
  | terminal b _ => exact terminal b hid
  | decision id node _ h2 hn ih =>
    rw [getElem?_front] at hn
    exact decision id node hid h2 hn fun b hb => ih b (lt_size_front.2 hb) hb

/-! ### Values -/

theorem valueAt_front (hd : d.Grounded) (hid : id.toIndex < d.size) :
    d.valueAt σ id = d.front.valueAt σ id :=
  Valid.valueAt_extend hd d.extends_front (lt_size_front.2 hid)

/-- A decision node has the value of the child for the value of its variable. -/
theorem valueAt_node (hd : d.Grounded) (h2 : 2 ≤ id.toIndex)
    (hn : d.nodes[id.toIndex]? = some node) :
    d.valueAt σ id = d.valueAt σ (node.child (σ node.var)) := by
  have hid : id.toIndex < d.size := (Array.getElem?_eq_some_iff.1 hn).1
  rw [hd.valueAt_front hid, hd.valueAt_front (hd.child_lt_size h2 hn _)]
  exact Valid.valueAt_node hd h2 (by rw [getElem?_front, hn])

/-- A walk under a valuation of all variables ends at the value of the node. -/
theorem stop_walkIn (hd : d.Grounded) {v : Valuation} (hv : v.bits.size = d.numVars.toNat)
    (hid : id.toIndex < d.size) : (d.walkIn v id).stop = .leaf (d.valueAt v.point id) := by
  have hfront := lt_size_front.2 hid
  have hstop : (d.front.walkIn v id).stop = (d.walkIn v id).stop :=
    Valid.stop_walkOn_congr hd (fun _ _ => rfl) d.extends_front hfront (Nat.le_of_lt hfront)
      (Nat.le_of_lt hid)
  rw [← hstop, Valid.stop_walkIn hd hv hfront, hd.valueAt_front hid]

/-- Evaluation under a valuation of all variables delivers the value of the node. -/
theorem evalFrom_eq (hd : d.Grounded) {v : Valuation} (hv : v.bits.size = d.numVars.toNat)
    (hid : id.toIndex < d.size) : d.evalFrom v id = .ok (d.valueAt v.point id) := by
  rw [evalFrom, hd.stop_walkIn hv hid]

/-- The front has the same values. -/
theorem eval_front (hd : d.Grounded) {v : Valuation} (hv : v.bits.size = d.numVars.toNat) :
    d.front.eval v = d.eval v := by
  rw [eval, eval, hd.evalFrom_eq hv hd.root_lt, hd.valueAt_front hd.root_lt]
  exact (Valid.grounded hd).evalFrom_eq hv (Valid.root_lt hd)

end Grounded

end Diagram

end DecisionDiagram
