import DecisionDiagram.Proofs.Diagram.Value
import DecisionDiagram.Proofs.Order.Values

/-!
# Evaluation under named assignments

A named assignment that gives a value to every name of the order is a point, and
evaluation by name delivers the value at this point.  What it has for other names is
never asked for.
-/

namespace DecisionDiagram

open Assignment (valueOf)

variable {α : Type u} [Assignment α] {a : α}

/-- The values that an assignment gives to the names of an order. -/
def VarOrder.point (o : VarOrder) (a : α) : Point :=
  fun x => (o.names[x.toIndex]?.bind (valueOf a)).getD false

theorem VarOrder.valueOf_eq_point {o : VarOrder} {x : Variable} {name : String}
    (ha : ∀ name ∈ o.names, (valueOf a name).isSome) (hn : o.names[x.toIndex]? = some name) :
    valueOf a name = some (o.point a x) := by
  obtain ⟨b, hb⟩ := Option.isSome_iff_exists.1 (ha name (Array.mem_of_getElem? hn))
  simp [point, hn, hb]

/-- With a value for every name of the order, evaluation delivers the value of the root
at the point of these values. -/
theorem Diagram.Valid.evalNamed_eq {d : Diagram} (hd : d.Valid)
    (ha : ∀ name ∈ d.order.names, (valueOf a name).isSome) :
    d.evalNamed a = .ok (d.valueAt (d.order.point a) d.root) := by
  have hchoose : ∀ x : Variable, x.index < d.numVars →
      d.order.names[x.toIndex]?.bind (valueOf a) = some (d.order.point a x) := by
    intro x hx
    obtain ⟨name, hn⟩ := VarOrder.exists_name hx
    rw [hn, Option.bind_some, VarOrder.valueOf_eq_point ha hn]
  have hstop : (d.walkNamed a).stop = .leaf (d.valueAt (d.order.point a) d.root) := by
    rw [← hd.stop_walkFrom hd.root_lt, walkNamed, walk, walkFrom, walkFrom]
    exact hd.stop_walkOn_congr hchoose (.refl _) hd.root_lt (Nat.le_of_lt hd.root_lt)
      (Nat.le_of_lt hd.root_lt)
  rw [evalNamed, hstop]

end DecisionDiagram
