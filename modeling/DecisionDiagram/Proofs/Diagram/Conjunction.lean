import DecisionDiagram.Proofs.Cover.Obtained
import DecisionDiagram.Proofs.Diagram.Cardinality
import DecisionDiagram.Proofs.Order.Names

/-!
# Conjunctions of all variables

The conjunction of all the variables of an order has a chain of nodes, one for each
variable, and one satisfying valuation.  Already its first node is linked to the terminal
`0` over all other variables, so that from 1025 variables on its count is reported as
infinite.
-/

namespace DecisionDiagram

namespace Diagram

variable {o : VarOrder} {i : Nat} {g : NodeId → Nat}

/-- The nodes of the conjunction from the last variable to the first. -/
def conjunctionNode (o : VarOrder) : Nat → Node
  | 0 => .zero o.numVars
  | 1 => .one o.numVars
  | i + 2 => ⟨.atIndex (o.names.size - 1 - i), .zero, .ofIndex (i + 1)⟩

/-- The diagram that is true if all the variables of the order are. -/
def conjunction (o : VarOrder) : Diagram where
  order := o
  nodes := (Array.range (o.names.size + 2)).map (conjunctionNode o)
  root := .ofIndex (o.names.size + 1)

theorem child_conjunctionNode (i : Nat) (b : Bool) :
    (conjunctionNode o (i + 2)).child b = if b then .ofIndex (i + 1) else .zero := by
  cases b <;> rfl

theorem numVars_conjunction : (conjunction o).numVars.toNat = o.names.size := o.toNat_numVars

theorem size_conjunction : (conjunction o).size = o.names.size + 2 := by
  simp [size, conjunction]

theorem size_conjunction_le : (conjunction o).size ≤ 4294967296 := by
  have hsize := o.size_le
  simp only [maxVariables] at hsize
  rw [size_conjunction]
  omega

theorem getElem?_conjunction (hi : i < o.names.size + 2) :
    (conjunction o).nodes[i]? = some (conjunctionNode o i) := by
  simp [conjunction, hi]

theorem toIndex_conjunction (o : VarOrder) (hi : i < o.names.size + 2) :
    (NodeId.ofIndex i).toIndex = i :=
  NodeId.toIndex_ofIndex (Nat.lt_of_lt_of_le (size_conjunction.symm ▸ hi) size_conjunction_le)

theorem toIndex_root_conjunction : (conjunction o).root.toIndex = o.names.size + 1 :=
  toIndex_conjunction o (Nat.lt_succ_self _)

theorem node_conjunction (hi : i < o.names.size + 2) :
    (conjunction o).nodes[(NodeId.ofIndex i).toIndex]? = some (conjunctionNode o i) := by
  rw [toIndex_conjunction o hi, getElem?_conjunction hi]

/-! ### The rules -/

/-- The first node behind the terminals has the last variable, and so on. -/
theorem level_conjunction (hi : i ≤ o.names.size) :
    (conjunction o).level (.ofIndex (i + 1)) = o.names.size - i := by
  have hsize := o.size_le
  simp only [maxVariables] at hsize
  rw [level_of_node (node_conjunction (by omega))]
  cases i with
  | zero => exact o.toNat_numVars
  | succ i =>
    rw [conjunctionNode, Variable.toIndex_atIndex (by omega)]
    omega

theorem level_zero_conjunction : (conjunction o).level .zero = o.names.size :=
  (level_of_node (node_conjunction (i := 0) (Nat.succ_pos _))).trans o.toNat_numVars

theorem level_root_conjunction : (conjunction o).level (conjunction o).root = 0 := by
  rw [← Nat.sub_self o.names.size]
  exact level_conjunction (Nat.le_refl _)

theorem fits_conjunction (hi : i < o.names.size) :
    (conjunction o).Fits (i + 2) (conjunctionNode o (i + 2)) := by
  have hvar : (conjunctionNode o (i + 2)).var.toIndex = o.names.size - (i + 1) := by
    rw [← level_of_node (node_conjunction (by omega)), level_conjunction (by omega)]
  have hhigh : (NodeId.ofIndex (i + 1)).toIndex = i + 1 := toIndex_conjunction o (by omega)
  refine ⟨?_, ?_, fun b => ?_, fun b child hchild => ?_⟩
  · have hlt : (conjunctionNode o (i + 2)).var.toIndex < o.names.size := by omega
    rw [UInt16.lt_iff_toNat_lt, numVars_conjunction]
    exact hlt
  · intro h
    have hidx : 0 = (NodeId.ofIndex (i + 1)).toIndex := congrArg NodeId.toIndex h
    omega
  · rw [child_conjunctionNode]
    cases b with
    | false => exact Nat.succ_pos _
    | true => exact hhigh.symm ▸ Nat.lt_succ_self _
  · rw [Variable.lt_iff, hvar, ← level_of_node hchild, child_conjunctionNode]
    cases b with
    | false =>
      rw [if_neg Bool.false_ne_true, level_zero_conjunction]
      omega
    | true =>
      rw [if_pos rfl, level_conjunction (by omega)]
      omega

theorem valid_conjunction (o : VarOrder) : (conjunction o).Valid where
  size_le := size_conjunction_le
  zero_eq := getElem?_conjunction (Nat.succ_pos _)
  one_eq := getElem?_conjunction (Nat.succ_lt_succ (Nat.succ_pos _))
  root_lt := by
    rw [size_conjunction, toIndex_root_conjunction]
    exact Nat.lt_succ_self _
  fits := by
    intro i node h2 hn
    have hlt : i < (conjunction o).size := (Array.getElem?_eq_some_iff.1 hn).1
    rw [size_conjunction] at hlt
    obtain ⟨i, rfl⟩ := Nat.exists_eq_add_of_le' h2
    obtain rfl := Option.some.inj (hn.symm.trans (getElem?_conjunction hlt))
    exact fits_conjunction (by omega)

/-! ### The count and its report -/

/-- Every node of the chain is satisfied in one way. -/
theorem count_conjunction_node (hg : (conjunction o).Counted (conjunction o).size g)
    (hi : i ≤ o.names.size) : g (.ofIndex (i + 1)) = 1 := by
  induction i with
  | zero => exact hg.one_eq
  | succ i ih =>
    have hidx : (NodeId.ofIndex (i + 2)).toIndex = i + 2 := toIndex_conjunction o (by omega)
    have hnode := hg.node_eq (.ofIndex (i + 2)) _ (by omega)
      (by rw [hidx, size_conjunction]; omega) (node_conjunction (by omega))
    have hskip : (conjunction o).skipped (.ofIndex (i + 2)) (.ofIndex (i + 1)) = 0 := by
      rw [skipped, level_conjunction hi, level_conjunction (by omega)]
      omega
    have hlow : (conjunction o).sideWeight g (.ofIndex (i + 2)) .zero = 0 := by
      rw [sideWeight, hg.zero_eq]
      exact Nat.zero_mul _
    have hhigh : (conjunction o).sideWeight g (.ofIndex (i + 2)) (.ofIndex (i + 1)) = 1 := by
      rw [sideWeight, hskip, ih (by omega)]
      rfl
    rw [hnode, weight, conjunctionNode, hlow, hhigh]
    rfl

theorem count_conjunction (o : VarOrder) : (conjunction o).count = .ok 1 := by
  obtain ⟨g, hg, htally⟩ := (valid_conjunction o).tally_eq Nat
  have hfalse : ¬(conjunction o).isFalse := by
    intro h
    have hzero : (conjunction o).root.toIndex = 0 :=
      congrArg NodeId.toIndex (of_decide_eq_true h : (conjunction o).root = .zero)
    rw [toIndex_root_conjunction] at hzero
    cases hzero
  have hroot : g (conjunction o).root = 1 := count_conjunction_node hg (Nat.le_refl _)
  rw [count, htally, if_neg hfalse, hroot, level_root_conjunction]
  rfl

/-- Over more than 1024 variables the first node of the chain drops far. -/
theorem dropsFar_conjunction (h : 1024 < o.names.size) :
    (conjunction o).DropsFar (conjunction o).root := by
  obtain ⟨i, hi⟩ : ∃ i, o.names.size = i + 1 := ⟨o.names.size - 1, by omega⟩
  have hroot := toIndex_root_conjunction (o := o)
  have hn : (conjunction o).nodes[(conjunction o).root.toIndex]? =
      some (conjunctionNode o (i + 2)) := by
    rw [hroot, getElem?_conjunction (Nat.lt_succ_self _), hi]
  have hvar : (conjunctionNode o (i + 2)).var.toIndex = 0 := by
    rw [← level_of_node hn, level_root_conjunction]
  refine ⟨(conjunction o).root, _, false, .refl, by omega, hn, child_conjunctionNode i false, ?_⟩
  rw [hvar, numVars_conjunction]
  omega

/-- The conjunction of more than 1024 variables has one satisfying valuation, but its count
is reported as infinite. -/
theorem cardinality_conjunction (h : 1024 < o.names.size) :
    (conjunction o).models.ncard = 1 ∧ (conjunction o).cardinality = .ok Float.inf := by
  have hd := valid_conjunction o
  have hcount := hd.count_eq_ncard
  rw [count_conjunction] at hcount
  exact ⟨(Except.ok.inj hcount).symm, hd.cardinality_of_dropsFar (dropsFar_conjunction h)⟩

/-- A count of one that is reported as infinite. -/
theorem cardinality_conjunction_unary :
    ∃ o, VarOrder.ofNames (VarOrder.unaryNames 1025) = .ok o ∧ (conjunction o).Obtained ∧
      (conjunction o).models.ncard = 1 ∧ (conjunction o).cardinality = .ok Float.inf ∧
      Float.inf ≠ Float.ofNat 1 := by
  obtain ⟨o, ho, hn⟩ := VarOrder.exists_ofNames_unaryNames (n := 1025) (by decide)
  have hsize : o.names.size = 1025 := o.toNat_numVars.symm.trans hn
  obtain ⟨hcard, hinfinite⟩ := cardinality_conjunction (o := o) (by omega)
  exact ⟨o, ho, (valid_conjunction o).obtained, hcard, hinfinite, by decide⟩

end Diagram

end DecisionDiagram
