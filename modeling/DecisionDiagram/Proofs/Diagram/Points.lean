import DecisionDiagram.Proofs.Diagram.Grounded

/-!
# Points and valuations

The functions of nodes are functions of points, which have a value for every variable there
could be, while evaluation takes a valuation of the variables of the order.  The two see the
same: a node does not depend on variables that the order does not have, so its value at a
point is found by evaluation under the values of the point at the variables of the order.
-/

namespace DecisionDiagram

variable {n : Nat} {σ τ : Point} {x : Variable}

/-- The values of a point at the first `n` variables. -/
def Valuation.ofPoint (n : Nat) (σ : Point) : Valuation where
  bits := (Array.range n).map fun i => σ (.atIndex i)

@[simp] theorem Valuation.size_ofPoint : (ofPoint n σ).bits.size = n := by simp [ofPoint]

theorem Valuation.point_ofPoint (h : x.toIndex < n) : (ofPoint n σ).point x = σ x := by
  simp [ofPoint, point, h]

namespace Diagram

variable {d d' : Diagram} {id : NodeId}

/-- The function of a node depends only on the variables of the order. -/
theorem Valid.valueAt_congr_order (hd : d.Valid) (hid : id.toIndex < d.size)
    (h : ∀ x : Variable, x.index < d.numVars → σ x = τ x) : d.valueAt σ id = d.valueAt τ id := by
  have hchoose : ∀ x : Variable, x.index < d.numVars → some (σ x) = some (τ x) :=
    fun x hx => congrArg some (h x hx)
  rw [valueAt, valueAt, walkFrom, walkFrom,
    hd.stop_walkOn_congr hchoose (.refl _) hid (Nat.le_of_lt hid) (Nat.le_of_lt hid)]

namespace Grounded

theorem valueAt_congr_order (hd : d.Grounded) (hid : id.toIndex < d.size)
    (h : ∀ x : Variable, x.index < d.numVars → σ x = τ x) : d.valueAt σ id = d.valueAt τ id := by
  rw [hd.valueAt_front hid, hd.valueAt_front hid]
  exact Valid.valueAt_congr_order hd (lt_size_front.2 hid) h

/-- The value of a node at a point is where a walk ends under the values of the point at the
variables of the order. -/
theorem stop_walkIn_ofPoint (hd : d.Grounded) (hid : id.toIndex < d.size) (σ : Point) :
    (d.walkIn (.ofPoint d.numVars.toNat σ) id).stop = .leaf (d.valueAt σ id) := by
  rw [hd.stop_walkIn Valuation.size_ofPoint hid]
  refine congrArg _ (hd.valueAt_congr_order hid fun x hx => ?_)
  exact Valuation.point_ofPoint (UInt16.lt_iff_toNat_lt.1 hx)

theorem evalFrom_ofPoint (hd : d.Grounded) (hid : id.toIndex < d.size) (σ : Point) :
    d.evalFrom (.ofPoint d.numVars.toNat σ) id = .ok (d.valueAt σ id) := by
  rw [evalFrom, hd.stop_walkIn_ofPoint hid]

/-- Diagrams that have the same value under all valuations have the same function. -/
theorem valueAt_eq_of_eval_eq (hd : d.Grounded) (hd' : d'.Grounded) (ho : d'.order = d.order)
    (h : ∀ v : Valuation, v.bits.size = d.order.numVars.toNat → d'.eval v = d.eval v) (σ : Point) :
    d'.valueAt σ d'.root = d.valueAt σ d.root := by
  have hnum : d'.numVars = d.numVars := congrArg VarOrder.numVars ho
  have heval := h (.ofPoint d.numVars.toNat σ) Valuation.size_ofPoint
  rw [eval, eval, hd.evalFrom_ofPoint hd.root_lt, ← hnum, hd'.evalFrom_ofPoint hd'.root_lt] at heval
  exact Except.ok.inj heval

end Grounded

end Diagram

end DecisionDiagram
