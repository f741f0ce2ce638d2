import DecisionDiagram.Diagram.Walk

/-!
# The function of a node

In a valid diagram every walk along given values ends at a terminal, because links
lead to earlier positions.  So each node has a Boolean function: its value at a
point is the terminal reached from it.  `valueAt_node` is the recursion by which
these functions are computed, and `Valid.induct` is the induction over the table
that goes with it.
-/

namespace DecisionDiagram

/-- A value for every variable there could be. -/
abbrev Point := Variable → Bool

/-- The point with the values of a valuation; variables beyond its end are false. -/
def Valuation.point (v : Valuation) : Point := fun x => v.bits[x.toIndex]?.getD false

theorem Valuation.getElem?_eq_point (v : Valuation) {x : Variable} (h : x.toIndex < v.bits.size) :
    v.bits[x.toIndex]? = some (v.point x) := by
  rw [point, Array.getElem?_eq_getElem h]
  rfl

/-- An id is that of a terminal or of a position after both terminals. -/
theorem NodeId.ofBool_or_two_le (id : NodeId) : (∃ b, id = .ofBool b) ∨ 2 ≤ id.toIndex := by
  cases hb : id.toBool? with
  | some b => exact .inl ⟨b, toBool?_eq_some_iff.1 hb⟩
  | none => exact .inr (toBool?_eq_none_iff.1 hb)

/-- Every node of the first table stands at the same position of the second. -/
def Extends (nodes nodes' : Array Node) : Prop :=
  ∀ (i : Nat) (node : Node), nodes[i]? = some node → nodes'[i]? = some node

namespace Extends

variable {nodes nodes' nodes'' : Array Node}

theorem refl (nodes : Array Node) : Extends nodes nodes := fun _ _ h => h

theorem trans (h : Extends nodes nodes') (h' : Extends nodes' nodes'') : Extends nodes nodes'' :=
  fun i node hn => h' i node (h i node hn)

theorem size_le (h : Extends nodes nodes') : nodes.size ≤ nodes'.size := by
  refine Nat.le_of_not_lt fun hlt => ?_
  have hn := h nodes'.size _ (Array.getElem?_eq_getElem hlt)
  exact Nat.lt_irrefl _ (Array.getElem?_eq_some_iff.1 hn).1

theorem push (nodes : Array Node) (node : Node) : Extends nodes (nodes.push node) := by
  intro i node' hn
  have hlt := (Array.getElem?_eq_some_iff.1 hn).1
  rw [Array.getElem?_push_lt hlt]
  exact (Array.getElem?_eq_getElem hlt).symm.trans hn

end Extends

namespace Diagram

variable {d d' : Diagram} {choose choose' : Variable → Option Bool} {σ τ : Point}
  {id : NodeId} {node : Node}

/-! ### Induction over the table -/

theorem Valid.size_pos (hd : d.Valid) : 2 ≤ d.size := by
  have h := (Array.getElem?_eq_some_iff.1 hd.one_eq).1
  simp only [size]
  omega

theorem Valid.ofBool_lt (hd : d.Valid) (b : Bool) : (NodeId.ofBool b).toIndex < d.size := by
  have := hd.size_pos
  cases b <;> simp [NodeId.ofBool] <;> omega

/-- Ids tell the positions of a valid table apart. -/
theorem Valid.toIndex_ofIndex (hd : d.Valid) {i : Nat} (hi : i < d.size) :
    (NodeId.ofIndex i).toIndex = i :=
  NodeId.toIndex_ofIndex (Nat.lt_of_lt_of_le hi hd.size_le)

theorem Valid.getElem?_ofIndex (hd : d.Valid) {i : Nat} (hi : i < d.size) :
    d.nodes[(NodeId.ofIndex i).toIndex]? = some d.nodes[i] := by
  rw [hd.toIndex_ofIndex hi]
  exact Array.getElem?_eq_getElem hi

/-- The terminals of a valid diagram carry the number of variables. -/
theorem Valid.var_ofBool (hd : d.Valid) (b : Bool)
    (hn : d.nodes[(NodeId.ofBool b).toIndex]? = some node) : node.var = ⟨d.numVars⟩ := by
  cases b
  · have h := hd.zero_eq.symm.trans hn
    cases h
    rfl
  · have h := hd.one_eq.symm.trans hn
    cases h
    rfl

/-- The links of a terminal lead back to it. -/
theorem Valid.child_ofBool (hd : d.Valid) {c : Bool}
    (hn : d.nodes[(NodeId.ofBool c).toIndex]? = some node) (b : Bool) :
    node.child b = .ofBool c := by
  cases c with
  | false =>
    obtain rfl := Option.some.inj (hn.symm.trans hd.zero_eq)
    cases b <;> rfl
  | true =>
    obtain rfl := Option.some.inj (hn.symm.trans hd.one_eq)
    cases b <;> rfl

/-- Nodes that test a variable of the order are decision nodes. -/
theorem Valid.two_le_of_var_lt (hd : d.Valid) (hn : d.nodes[id.toIndex]? = some node)
    (hx : node.var.index < d.numVars) : 2 ≤ id.toIndex := by
  rcases id.ofBool_or_two_le with ⟨b, rfl⟩ | h2
  · rw [hd.var_ofBool b hn] at hx
    exact absurd hx (UInt16.lt_irrefl _)
  · exact h2

/-- Both links of a decision node lead into the table. -/
theorem Valid.child_lt_size (hd : d.Valid) (h2 : 2 ≤ id.toIndex)
    (hn : d.nodes[id.toIndex]? = some node) (b : Bool) : (node.child b).toIndex < d.size := by
  have hlt := (Array.getElem?_eq_some_iff.1 hn).1
  have hchild := (hd.fits id.toIndex node h2 hn).child_lt b
  simp only [size]
  omega

/-- A link leads to an earlier position, where a later variable stands. -/
theorem Valid.exists_child (hd : d.Valid) (h2 : 2 ≤ id.toIndex)
    (hn : d.nodes[id.toIndex]? = some node) (b : Bool) :
    ∃ child, d.nodes[(node.child b).toIndex]? = some child ∧
      (node.child b).toIndex < id.toIndex ∧ node.var.toIndex < child.var.toIndex := by
  have fit := hd.fits _ _ h2 hn
  have hchild := Array.getElem?_eq_getElem (hd.child_lt_size h2 hn b)
  exact ⟨_, hchild, fit.child_lt b, Variable.lt_iff.1 (fit.var_lt_child b _ hchild)⟩

/-- What holds of the terminals, and of each decision node if it holds of both its
children, holds of all nodes. -/
theorem Valid.induct (hd : d.Valid) {motive : (id : NodeId) → id.toIndex < d.size → Prop}
    (terminal : ∀ b h, motive (.ofBool b) h)
    (decision : ∀ id node h, 2 ≤ id.toIndex → d.nodes[id.toIndex]? = some node →
      (∀ b hb, motive (node.child b) hb) → motive id h)
    (id : NodeId) (hid : id.toIndex < d.size) : motive id hid := by
  induction hi : id.toIndex using Nat.strongRecOn generalizing id with
  | ind i ih =>
    subst hi
    rcases id.ofBool_or_two_le with ⟨b, rfl⟩ | h2
    · exact terminal b hid
    · have hn : d.nodes[id.toIndex]? = some d.nodes[id.toIndex] := Array.getElem?_eq_getElem hid
      refine decision id _ hid h2 hn fun b hchild => ?_
      exact ih _ ((hd.fits _ _ h2 hn).child_lt b) _ hchild rfl

/-- Any node of a valid table may be made the root. -/
theorem Valid.withRoot (hd : d.Valid) {root : NodeId} (h : root.toIndex < d.size) :
    ({ d with root } : Diagram).Valid where
  size_le := hd.size_le
  zero_eq := hd.zero_eq
  one_eq := hd.one_eq
  root_lt := h
  fits i node hi hn :=
    let fit := hd.fits i node hi hn
    ⟨fit.var_lt, fit.low_ne_high, fit.child_lt, fit.var_lt_child⟩

/-! ### Where walks stop -/

/-- A walk through a valid table does not depend on the room for steps, on the nodes
passed before, on nodes added to the table later, or on values of variables that the
order does not have. -/
theorem Valid.stop_walkOn_congr (hd : d.Valid)
    (hchoose : ∀ x : Variable, x.index < d.numVars → choose x = choose' x)
    (hnodes : Extends d.nodes d'.nodes)
    (hid : id.toIndex < d.size) {steps steps' : Nat} {passed passed' : List NodeId}
    (hs : id.toIndex ≤ steps) (hs' : id.toIndex ≤ steps') :
    (d.walkOn choose steps id passed).stop = (d'.walkOn choose' steps' id passed').stop := by
  induction id, hid using hd.induct generalizing steps steps' passed passed' with
  | terminal b _ =>
    rw [walkOn, walkOn]
    simp
  | decision id node _ h2 hn ih =>
    have hb : id.toBool? = none := NodeId.toBool?_eq_none_iff.2 h2
    have fit := hd.fits _ _ h2 hn
    obtain ⟨k, rfl⟩ : ∃ k, steps = k + 1 := ⟨steps - 1, by omega⟩
    obtain ⟨k', rfl⟩ : ∃ k', steps' = k' + 1 := ⟨steps' - 1, by omega⟩
    rw [walkOn, walkOn]
    simp only [hb, hn, hnodes _ _ hn, hchoose _ fit.var_lt]
    cases choose' node.var with
    | none => rfl
    | some b =>
      have := fit.child_lt b
      exact ih b (hd.child_lt_size h2 hn b) (by omega) (by omega)

theorem stop_walkFrom_ofBool (b : Bool) : (d.walkFrom choose (.ofBool b)).stop = .leaf b := by
  rw [walkFrom, walkOn]
  simp

/-- A walk from a decision node is the walk from the child that is chosen. -/
theorem Valid.stop_walkFrom_node (hd : d.Valid) (h2 : 2 ≤ id.toIndex)
    (hn : d.nodes[id.toIndex]? = some node) {b : Bool} (hc : choose node.var = some b) :
    (d.walkFrom choose id).stop = (d.walkFrom choose (node.child b)).stop := by
  have hb : id.toBool? = none := NodeId.toBool?_eq_none_iff.2 h2
  have hlt := (Array.getElem?_eq_some_iff.1 hn).1
  have hchild := (hd.fits _ _ h2 hn).child_lt b
  have hsize : d.size = d.size - 1 + 1 := by have := hd.size_pos; omega
  have hstep : d.walkFrom choose id = d.walkOn choose (d.size - 1) (node.child b) [id] := by
    rw [walkFrom, hsize, walkOn]
    simp only [hb, hn, hc]
    rfl
  rw [hstep]
  refine hd.stop_walkOn_congr (fun _ _ => rfl) (.refl _) ?_ ?_ ?_ <;>
    simp only [size] at * <;> omega

/-! ### Values -/

/-- The value at a point of the function that starts at a node. -/
def valueAt (d : Diagram) (σ : Point) (id : NodeId) : Bool :=
  (d.walkFrom (fun x => some (σ x)) id).stop == .leaf true

@[simp] theorem valueAt_ofBool (b : Bool) : d.valueAt σ (.ofBool b) = b := by
  rw [valueAt, stop_walkFrom_ofBool]
  cases b <;> rfl

@[simp] theorem valueAt_zero : d.valueAt σ .zero = false := valueAt_ofBool false

@[simp] theorem valueAt_one : d.valueAt σ .one = true := valueAt_ofBool true

/-- A decision node has the value of the child for the value of its variable. -/
theorem Valid.valueAt_node (hd : d.Valid) (h2 : 2 ≤ id.toIndex)
    (hn : d.nodes[id.toIndex]? = some node) :
    d.valueAt σ id = d.valueAt σ (node.child (σ node.var)) := by
  rw [valueAt, valueAt, hd.stop_walkFrom_node h2 hn rfl]

/-- With a value for every variable, walks end at a terminal. -/
theorem Valid.stop_walkFrom (hd : d.Valid) (hid : id.toIndex < d.size) :
    (d.walkFrom (fun x => some (σ x)) id).stop = .leaf (d.valueAt σ id) := by
  induction id, hid using hd.induct with
  | terminal b _ => rw [stop_walkFrom_ofBool, valueAt_ofBool]
  | decision id node _ h2 hn ih =>
    rw [hd.stop_walkFrom_node h2 hn rfl, hd.valueAt_node h2 hn, ih _ (hd.child_lt_size h2 hn _)]

/-- Nodes added to a table later leave the functions of its nodes alone. -/
theorem Valid.valueAt_extend (hd : d.Valid) (hnodes : Extends d.nodes d'.nodes)
    (hid : id.toIndex < d.size) : d'.valueAt σ id = d.valueAt σ id := by
  have hid' : id.toIndex < d'.size := Nat.lt_of_lt_of_le hid hnodes.size_le
  rw [valueAt, valueAt, walkFrom, walkFrom, hd.stop_walkOn_congr (fun _ _ => rfl) hnodes hid
    (Nat.le_of_lt hid) (Nat.le_of_lt hid')]

/-- The function of a node does not depend on the variables before its own. -/
theorem Valid.valueAt_congr (hd : d.Valid) (hn : d.nodes[id.toIndex]? = some node)
    (h : ∀ x, node.var ≤ x → σ x = τ x) : d.valueAt σ id = d.valueAt τ id := by
  have hid : id.toIndex < d.size := (Array.getElem?_eq_some_iff.1 hn).1
  induction id, hid using hd.induct generalizing node with
  | terminal b _ => rw [valueAt_ofBool, valueAt_ofBool]
  | decision id node' _ h2 hn' ih =>
    obtain rfl : node' = node := by simpa [hn'] using hn
    rw [hd.valueAt_node h2 hn, hd.valueAt_node h2 hn, h _ (Variable.le_iff.2 (Nat.le_refl _))]
    obtain ⟨child, hchild, -, hvar⟩ := hd.exists_child h2 hn (τ node'.var)
    refine ih _ (hd.child_lt_size h2 hn _) hchild fun x hx => h x ?_
    rw [Variable.le_iff] at hx ⊢
    omega

/-- A walk under a valuation that is long enough ends at the value of the node. -/
theorem Valid.stop_walkIn_of_le (hd : d.Valid) {v : Valuation}
    (hv : d.numVars.toNat ≤ v.bits.size) (hid : id.toIndex < d.size) :
    (d.walkIn v id).stop = .leaf (d.valueAt v.point id) := by
  have hbits : ∀ x : Variable, x.index < d.numVars → v.bits[x.toIndex]? = some (v.point x) := by
    intro x hx
    exact v.getElem?_eq_point (Nat.lt_of_lt_of_le (UInt16.lt_iff_toNat_lt.1 hx) hv)
  rw [← hd.stop_walkFrom hid, walkIn, walkFrom, walkFrom]
  exact hd.stop_walkOn_congr hbits (.refl _) hid (Nat.le_of_lt hid) (Nat.le_of_lt hid)

/-- Evaluation under a valuation that is long enough delivers the value of the node. -/
theorem Valid.evalFrom_of_le (hd : d.Valid) {v : Valuation} (hv : d.numVars.toNat ≤ v.bits.size)
    (hid : id.toIndex < d.size) : d.evalFrom v id = .ok (d.valueAt v.point id) := by
  rw [evalFrom, hd.stop_walkIn_of_le hv hid]

/-- A walk under a valuation of all variables ends at the value of the node. -/
theorem Valid.stop_walkIn (hd : d.Valid) {v : Valuation} (hv : v.bits.size = d.numVars.toNat)
    (hid : id.toIndex < d.size) : (d.walkIn v id).stop = .leaf (d.valueAt v.point id) :=
  hd.stop_walkIn_of_le (Nat.le_of_eq hv.symm) hid

/-- Evaluation under a valuation of all variables delivers the value of the node. -/
theorem Valid.evalFrom_eq (hd : d.Valid) {v : Valuation} (hv : v.bits.size = d.numVars.toNat)
    (hid : id.toIndex < d.size) : d.evalFrom v id = .ok (d.valueAt v.point id) :=
  hd.evalFrom_of_le (Nat.le_of_eq hv.symm) hid

end Diagram

end DecisionDiagram
