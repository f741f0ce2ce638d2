import DecisionDiagram.Diagram.Check
import DecisionDiagram.Proofs.Diagram.Value

/-!
# The check decides the rules

`Diagram.check` passes exactly the valid tables.  It looks at decision nodes by their
ids, which lose the high bits of a position; that no table with more positions than
ids gets through is owed to the first position that is taken for the terminal `0`,
since a terminal tests no variable of the order.
-/

namespace DecisionDiagram

theorem ite_error_eq_ok_iff {ε α : Type} {p : Prop} [Decidable p] {e : ε} {x : Except ε α} {a : α} :
    (if p then .error e else x) = .ok a ↔ ¬p ∧ x = .ok a := by
  by_cases h : p <;> simp [h]

namespace Diagram

variable {d : Diagram} {id : NodeId} {node : Node} {ids : List NodeId}

/-! ### One node -/

theorem liftM_node_eq_ok (hn : d.nodes[id.toIndex]? = some node) :
    (liftM (d.node id) : Except Failure Node) = pure node := by
  rw [node_eq_ok_iff.2 hn]
  rfl

/-- The check of a node names the first rule that it breaks. -/
theorem checkNode_eq (hn : d.nodes[id.toIndex]? = some node) :
    d.checkNode id =
      if d.numVars ≤ node.var.index then
        .error (malformed (.invalidVariable node.var.toIndex id.toIndex))
      else if id.toIndex ≤ node.low.toIndex then
        .error (malformed (.forwardLow node.low.toIndex id.toIndex))
      else if id.toIndex ≤ node.high.toIndex then
        .error (malformed (.forwardHigh node.high.toIndex id.toIndex))
      else if node.low = node.high then
        .error (malformed (.redundant id.toIndex node.low.toIndex))
      else if [node.low, node.high].any fun link =>
          d.nodes[link.toIndex]?.any fun child => child.var ≤ node.var then
        .error (malformed (.unordered id.toIndex))
      else .ok () := by
  have hlt := (Array.getElem?_eq_some_iff.1 hn).1
  have hlink : ∀ link : NodeId, ¬id.toIndex ≤ link.toIndex →
      ∃ child, d.nodes[link.toIndex]? = some child :=
    fun link h => ⟨_, Array.getElem?_eq_getElem (by omega)⟩
  rw [checkNode, liftM_node_eq_ok hn, pure_bind]
  by_cases hvar : d.numVars ≤ node.var.index
  · rw [if_pos hvar, if_pos hvar]
    rfl
  rw [if_neg hvar, if_neg hvar]
  by_cases hlow : id.toIndex ≤ node.low.toIndex
  · simp only [if_pos hlow]
    rfl
  simp only [if_neg hlow]
  by_cases hhigh : id.toIndex ≤ node.high.toIndex
  · simp only [if_pos hhigh]
    rfl
  simp only [if_neg hhigh]
  by_cases heq : node.low = node.high
  · simp only [if_pos heq]
    rfl
  simp only [if_neg heq]
  obtain ⟨low, hl⟩ := hlink _ hlow
  obtain ⟨high, hh⟩ := hlink _ hhigh
  rw [liftM_node_eq_ok hl, liftM_node_eq_ok hh]
  simp only [List.any_cons, List.any_nil, hl, hh, Option.any_some]
  simp only [pure_bind, Bool.or_false, Bool.or_eq_true, decide_eq_true_eq]
  by_cases hl' : low.var ≤ node.var
  · simp only [if_pos hl', if_pos (Or.inl hl')]
    rfl
  simp only [hl', if_false, false_or]
  by_cases hh' : high.var ≤ node.var
  · simp only [if_pos hh']
    rfl
  · simp only [if_neg hh']
    rfl

/-- A node passes if it fits the nodes with smaller ids. -/
theorem checkNode_eq_ok_iff (hn : d.nodes[id.toIndex]? = some node) :
    d.checkNode id = .ok () ↔ d.Fits id.toIndex node := by
  rw [checkNode_eq hn]
  simp only [ite_error_eq_ok_iff, and_true, List.any_cons, List.any_nil, Bool.or_false,
    Bool.or_eq_true, Option.any_eq_true, decide_eq_true_eq, not_or, not_exists, not_and]
  constructor
  · rintro ⟨hvar, hlow, hhigh, hne, hlowVar, hhighVar⟩
    refine ⟨UInt16.not_le.1 hvar, hne, ?_, ?_⟩
    · intro b
      cases b with
      | false => exact Nat.lt_of_not_le hlow
      | true => exact Nat.lt_of_not_le hhigh
    · intro b child hchild
      cases b with
      | false => exact UInt16.not_le.1 (hlowVar child hchild)
      | true => exact UInt16.not_le.1 (hhighVar child hchild)
  · intro fit
    refine ⟨UInt16.not_le.2 fit.var_lt, Nat.not_le_of_lt (fit.child_lt false),
      Nat.not_le_of_lt (fit.child_lt true), fit.low_ne_high, ?_, ?_⟩
    · intro child hchild
      exact UInt16.not_le.2 (fit.var_lt_child false child hchild)
    · intro child hchild
      exact UInt16.not_le.2 (fit.var_lt_child true child hchild)

/-! ### The whole table -/

theorem checkNodes_eq_ok_iff :
    d.checkNodes ids = .ok () ↔ ∀ id ∈ ids, d.checkNode id = .ok () := by
  induction ids with
  | nil => simp [checkNodes]
  | cons id ids ih =>
    rw [checkNodes, List.forall_mem_cons, ← ih]
    cases d.checkNode id <;> simp

theorem decisionIds_eq (d : Diagram) :
    d.decisionIds = (List.range' 2 (d.size - 2)).map NodeId.ofIndex := by
  rw [decisionIds, ← List.map_drop, List.range_eq_range', List.drop_range']

/-- The ids of the decision nodes are those of the positions from 2 on. -/
theorem mem_decisionIds : id ∈ d.decisionIds ↔ ∃ i, 2 ≤ i ∧ i < d.size ∧ .ofIndex i = id := by
  simp only [decisionIds_eq, List.mem_map, List.mem_range'_1]
  constructor
  · rintro ⟨i, ⟨h2, hi⟩, rfl⟩
    exact ⟨i, h2, by omega, rfl⟩
  · rintro ⟨i, h2, hi, rfl⟩
    exact ⟨i, ⟨h2, by omega⟩, rfl⟩

/-- In a valid table these ids lead to decision nodes. -/
theorem Valid.exists_of_mem_decisionIds (hd : d.Valid) (hid : id ∈ d.decisionIds) :
    2 ≤ id.toIndex ∧ ∃ node, d.nodes[id.toIndex]? = some node := by
  obtain ⟨i, h2, hi, rfl⟩ := mem_decisionIds.1 hid
  refine ⟨?_, _, hd.getElem?_ofIndex hi⟩
  rwa [hd.toIndex_ofIndex hi]

theorem check_eq_ok_iff :
    d.check = .ok () ↔ 2 ≤ d.size ∧ d.nodes[0]? = some (.zero d.numVars) ∧
      d.nodes[1]? = some (.one d.numVars) ∧ d.root.toIndex < d.size ∧
      ∀ id ∈ d.decisionIds, d.checkNode id = .ok () := by
  simp only [check, ite_error_eq_ok_iff, checkNodes_eq_ok_iff, Nat.not_lt, Nat.not_le, ne_eq,
    Decidable.not_not]

/-- A table passes the check exactly if it obeys the rules. -/
theorem check_eq_ok_iff_valid : d.check = .ok () ↔ d.Valid := by
  rw [check_eq_ok_iff]
  constructor
  · rintro ⟨-, hzero, hone, hroot, hnodes⟩
    have hsize : d.size ≤ 4294967296 := by
      refine Nat.le_of_not_lt fun hlt => ?_
      have hok := hnodes .zero (mem_decisionIds.2 ⟨4294967296, by omega, hlt, rfl⟩)
      have fit := (checkNode_eq_ok_iff (show d.nodes[NodeId.zero.toIndex]? = _ from hzero)).1 hok
      exact UInt16.lt_irrefl _ fit.var_lt
    refine ⟨hsize, hzero, hone, hroot, ?_⟩
    intro i node hi hn
    have hlt : i < d.size := (Array.getElem?_eq_some_iff.1 hn).1
    have hid : (NodeId.ofIndex i).toIndex = i := NodeId.toIndex_ofIndex (by omega)
    have hok := hnodes (.ofIndex i) (mem_decisionIds.2 ⟨i, hi, hlt, rfl⟩)
    have fit := (checkNode_eq_ok_iff (hid.symm ▸ hn)).1 hok
    rwa [hid] at fit
  · intro hd
    refine ⟨hd.size_pos, hd.zero_eq, hd.one_eq, hd.root_lt, ?_⟩
    intro id hid
    obtain ⟨h2, node, hn⟩ := hd.exists_of_mem_decisionIds hid
    rw [checkNode_eq_ok_iff hn]
    exact hd.fits _ _ h2 hn

/-- A table is read as it is, or not at all. -/
theorem ofNodes_eq_ok_iff {order : VarOrder} {nodes : Array Node} {root : NodeId} :
    ofNodes order nodes root = .ok d ↔ d = ⟨order, nodes, root⟩ ∧ d.Valid := by
  rw [ofNodes]
  cases hcheck : (⟨order, nodes, root⟩ : Diagram).check with
  | ok _ =>
    have hvalid := check_eq_ok_iff_valid.1 hcheck
    constructor
    · intro h
      cases h
      exact ⟨rfl, hvalid⟩
    · rintro ⟨rfl, -⟩
      rfl
  | error failure =>
    constructor
    · intro h
      cases h
    · rintro ⟨rfl, hvalid⟩
      rw [check_eq_ok_iff_valid.2 hvalid] at hcheck
      cases hcheck

end Diagram

end DecisionDiagram
