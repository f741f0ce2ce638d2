import DecisionDiagram.Proofs.Cover.Outgrown
import DecisionDiagram.Proofs.Diagram.Points
import DecisionDiagram.Proofs.Diagram.Separation
import DecisionDiagram.Proofs.Order.Names

/-!
# Constant functions are recognised

Whether a diagram is constant is read off its root.  The check compares the links of a node
and not the functions of its children, so a table may hold nodes that make no difference.
Even so no constant hides in it: every decision node that has an id of its own takes both
values, whether or not the root leads to it.  Behind the last id this is no longer so.
-/

namespace DecisionDiagram

namespace Diagram

variable {d : Diagram} {id : NodeId} {node : Node} {v : Valuation} {b : Bool}

/-- The value of the function that a decision node has by its variable and its links. -/
def evalNode (d : Diagram) (v : Valuation) (node : Node) : Except Fault Bool := do
  let value ← v.value node.var
  d.evalFrom v (node.child value)

theorem isTrue_iff : d.isTrue ↔ d.toBool? = some true := by
  rw [toBool?, NodeId.toBool?_eq_some_iff]
  simp [isTrue, NodeId.isOne, NodeId.ofBool]

theorem isFalse_iff : d.isFalse ↔ d.toBool? = some false := by
  rw [toBool?, NodeId.toBool?_eq_some_iff]
  simp [isFalse, NodeId.isZero, NodeId.ofBool]

namespace Grounded

theorem evalNode_eq (hd : d.Grounded) (hv : v.bits.size = d.numVars.toNat)
    (hvar : node.var.toIndex < d.numVars.toNat) (hchild : ∀ b, (node.child b).toIndex < d.size) :
    d.evalNode v node = .ok (d.valueAt v.point (node.child (v.point node.var))) := by
  have hvalue : v.value node.var = .ok (v.point node.var) :=
    Valuation.value_eq_ok_iff.2 (v.getElem?_eq_point (by omega))
  rw [evalNode, hvalue, ← hd.evalFrom_eq hv (hchild _)]
  rfl

/-- Evaluation from the id of a decision node is evaluation of the node. -/
theorem evalFrom_eq_evalNode (hd : d.Grounded) (hv : v.bits.size = d.numVars.toNat)
    (h2 : 2 ≤ id.toIndex) (hn : d.nodes[id.toIndex]? = some node) :
    d.evalFrom v id = d.evalNode v node := by
  have hvar : node.var.toIndex < d.numVars.toNat := UInt16.lt_iff_toNat_lt.1 (hd.fits h2 hn).var_lt
  rw [hd.evalFrom_eq hv (Array.getElem?_eq_some_iff.1 hn).1, hd.valueAt_node h2 hn,
    hd.evalNode_eq hv hvar (hd.child_lt_size h2 hn)]

/-- A decision node takes both values. -/
theorem exists_valueAt (hd : d.Grounded) (h2 : 2 ≤ id.toIndex) (hid : id.toIndex < d.size)
    (b : Bool) : ∃ σ, d.valueAt σ id = b := by
  by_contra hnone
  have hconst : ∀ σ, d.front.valueAt σ id = !b := by
    intro σ
    rw [← hd.valueAt_front hid, Bool.eq_not]
    exact fun h => hnone ⟨σ, h⟩
  have hleaf := Valid.eq_ofBool hd (lt_size_front.2 hid) hconst
  rw [hleaf] at h2
  exact NodeId.not_two_le_ofBool _ h2

theorem exists_evalFrom (hd : d.Grounded) (h2 : 2 ≤ id.toIndex) (hid : id.toIndex < d.size)
    (b : Bool) : ∃ v : Valuation, v.bits.size = d.numVars.toNat ∧ d.evalFrom v id = .ok b := by
  obtain ⟨σ, hσ⟩ := hd.exists_valueAt h2 hid b
  refine ⟨.ofPoint d.numVars.toNat σ, Valuation.size_ofPoint, ?_⟩
  rw [hd.evalFrom_ofPoint hid, hσ]

/-- The value read off the root is the one under all valuations, and there is none if
valuations differ. -/
theorem toBool?_eq_some_iff (hd : d.Grounded) :
    d.toBool? = some b ↔
      ∀ v : Valuation, v.bits.size = d.numVars.toNat → d.eval v = .ok b := by
  constructor
  · intro h v hv
    have hroot := NodeId.toBool?_eq_some_iff.1 h
    rw [eval, hd.evalFrom_eq hv hd.root_lt, hroot, valueAt_ofBool]
  · intro h
    have hvalue : ∀ σ, d.valueAt σ d.root = b := by
      intro σ
      have heval := h (.ofPoint d.numVars.toNat σ) Valuation.size_ofPoint
      rw [eval, hd.evalFrom_ofPoint hd.root_lt σ] at heval
      exact Except.ok.inj heval
    rcases d.root.ofBool_or_two_le with ⟨c, hroot⟩ | h2
    · have hc := hvalue fun _ => false
      rw [hroot, valueAt_ofBool] at hc
      rw [toBool?, hroot, NodeId.toBool?_ofBool, hc]
    · obtain ⟨σ, hσ⟩ := hd.exists_valueAt h2 hd.root_lt (!b)
      rw [hvalue] at hσ
      exact absurd hσ (Bool.eq_not_self b).1

end Grounded

/-- The second of two variables, read below a node that makes no difference, with its
negation left behind in the table. -/
def idle : Diagram where
  order := (Cover.sample true).order
  nodes := #[.zero 2, .one 2, ⟨⟨1⟩, .zero, .one⟩, ⟨⟨1⟩, .zero, .one⟩,
    ⟨⟨0⟩, .ofIndex 2, .ofIndex 3⟩, ⟨⟨1⟩, .one, .zero⟩]
  root := .ofIndex 4

/-- In a diagram that was read or compiled no decision node at a position below `2 ^ 32` is
constant: evaluation from its id is evaluation of the node, and takes both values. In a table
that passes the check this is every decision node. The constants, however long the table is,
are the diagrams whose root is a terminal. -/
theorem Obtained.recognises_constants (h : d.Obtained) :
    (∀ i node, 2 ≤ i → i < 4294967296 → d.nodes[i]? = some node →
      (∀ v : Valuation, v.bits.size = d.numVars.toNat →
        d.evalFrom v (.ofIndex i) = d.evalNode v node) ∧
      ∀ b, ∃ v : Valuation, v.bits.size = d.numVars.toNat ∧ d.evalNode v node = .ok b) ∧
    (∀ order nodes root, ofNodes order nodes root = .ok d → d.size ≤ 4294967296) ∧
    (∀ b, d.toBool? = some b ↔
      ∀ v : Valuation, v.bits.size = d.numVars.toNat → d.eval v = .ok b) ∧
    (d.isTrue ↔ ∀ v : Valuation, v.bits.size = d.numVars.toNat → d.eval v = .ok true) ∧
    (d.isFalse ↔ ∀ v : Valuation, v.bits.size = d.numVars.toNat → d.eval v = .ok false) := by
  have hd := h.grounded
  refine ⟨?_, fun _ _ _ hread => (valid_of_ofNodes hread).size_le,
    fun b => hd.toBool?_eq_some_iff, ?_, ?_⟩
  · intro i node h2 hi hn
    have hid : (NodeId.ofIndex i).toIndex = i := NodeId.toIndex_ofIndex hi
    have hlt : i < d.size := (Array.getElem?_eq_some_iff.1 hn).1
    rw [← hid] at h2 hn hlt
    refine ⟨fun v hv => hd.evalFrom_eq_evalNode hv h2 hn, fun b => ?_⟩
    obtain ⟨v, hv, heval⟩ := hd.exists_evalFrom h2 hlt b
    exact ⟨v, hv, (hd.evalFrom_eq_evalNode hv h2 hn).symm.trans heval⟩
  · rw [isTrue_iff, hd.toBool?_eq_some_iff]
  · rw [isFalse_iff, hd.toBool?_eq_some_iff]

theorem recognises_constants_idle :
    (∃ v : Valuation, v.bits.size = 2 ∧ idle.evalFrom v (.ofIndex 4) = .ok true) ∧
      (∃ v : Valuation, v.bits.size = 2 ∧ idle.evalFrom v (.ofIndex 5) = .ok true) ∧
      idle.toBool? = none ∧
      ∀ b, ¬∀ v : Valuation, v.bits.size = 2 → idle.eval v = .ok b := by
  have hread : idle.Obtained :=
    .read (show ofNodes idle.order idle.nodes idle.root = .ok idle by decide)
  have hnone : idle.toBool? = none := by decide
  obtain ⟨hnodes, -, hconst, -⟩ := Obtained.recognises_constants hread
  have htrue : ∀ i node, 2 ≤ i → i < 4294967296 → idle.nodes[i]? = some node →
      ∃ v : Valuation, v.bits.size = 2 ∧ idle.evalFrom v (.ofIndex i) = .ok true := by
    intro i node h2 hi hn
    obtain ⟨hfrom, hboth⟩ := hnodes i node h2 hi hn
    obtain ⟨v, hv, heval⟩ := hboth true
    exact ⟨v, hv, (hfrom v hv).trans heval⟩
  refine ⟨htrue 4 _ (by decide) (by decide) rfl, htrue 5 _ (by decide) (by decide) rfl, hnone,
    fun b h => ?_⟩
  have hsome := (hconst b).2 h
  rw [hnone] at hsome
  cases hsome

/-- Behind the last id a decision node can be constant: one that tests the second variable and
leads on, if it is true, to a node that tests it again. -/
theorem recognises_constants_outgrown :
    ∃ (o : VarOrder) (ho : o.numVars = 65) (d : Diagram) (i : Nat) (node : Node),
      VarOrder.ofNames (VarOrder.unaryNames 65) = .ok o ∧ (Cover.outgrown o ho).compile = .ok d ∧
      2 ≤ i ∧ d.nodes[i]? = some node ∧
      ∀ v : Valuation, v.bits.size = d.numVars.toNat → d.evalNode v node = .ok false := by
  obtain ⟨o, ho, hn⟩ := VarOrder.exists_ofNames_unaryNames (n := 65) (by decide)
  have ho' : o.numVars = 65 := UInt16.toNat_inj.1 hn
  obtain ⟨hsize, -, hsecond, hnode⟩ := Cover.diagram_outgrown ho'
  have hd := Cover.grounded_diagram (Cover.outgrown o ho')
  have hnum : (Cover.outgrown o ho').diagram.numVars.toNat = 65 := hn
  have hfalse : ∀ σ, (Cover.outgrown o ho').diagram.valueAt σ .zero = false :=
    fun σ => valueAt_ofBool false
  refine ⟨o, ho', _, 4294967299, _, ho, Cover.compile_eq _, by decide, hnode, fun v hv => ?_⟩
  have hvar : (⟨1⟩ : Variable).toIndex < (Cover.outgrown o ho').diagram.numVars.toNat := by
    rw [hnum]
    decide
  have hchild : ∀ b, ((⟨⟨1⟩, .zero, .ofIndex 2⟩ : Node).child b).toIndex <
      (Cover.outgrown o ho').diagram.size := by
    rw [hsize]
    decide
  rw [hd.evalNode_eq hv hvar hchild]
  cases hb : v.point ⟨1⟩ with
  | false => exact congrArg _ (hfalse v.point)
  | true =>
    have hn : (Cover.outgrown o ho').diagram.nodes[(NodeId.ofIndex 2).toIndex]? = some _ := hsecond
    have hstep := hd.valueAt_node (σ := v.point) (by decide) hn
    rw [hb] at hstep
    exact congrArg _ (hstep.trans (hfalse v.point))

end Diagram

end DecisionDiagram
