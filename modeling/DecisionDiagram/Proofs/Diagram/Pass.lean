import DecisionDiagram.Diagram.Count
import DecisionDiagram.Proofs.Diagram.Check
import DecisionDiagram.Proofs.Diagram.Grounded
import Mathlib.Algebra.Group.Nat.Defs

/-!
# The counting pass

The pass enters a number for each decision node, the sum of what its two sides weigh: the
number of the child, doubled for each variable that the link skips.  As children stand
before their parents, an entry is final when it is read.  So the numbers obey the same
recursion in the end, whatever kind of numbers they are, and no difference of variables
that is taken on the way goes below zero.
-/

namespace DecisionDiagram

namespace Diagram

variable {α : Type} [Counting α] {d : Diagram} {id id' : NodeId} {node child : Node} {b : Bool}
  {counts : Array α} {f : NodeId → α} {a : α} {k m : Nat}

/-- The position in the order of the variable of a node; terminals stand at its end. -/
def level (d : Diagram) (id : NodeId) : Nat := d.nodes[id.toIndex]?.elim 0 (·.var.toIndex)

/-- The number of variables that a link between two nodes skips. -/
def skipped (d : Diagram) (id child : NodeId) : Nat := d.level child - d.level id - 1

/-- What a child contributes to the number of its parent. -/
def sideWeight (d : Diagram) (f : NodeId → α) (id child : NodeId) : α :=
  Counting.mul (f child) (Counting.pow2 (d.skipped id child))

/-- What both children contribute together. -/
def weight (d : Diagram) (f : NodeId → α) (id : NodeId) (node : Node) : α :=
  Counting.add (d.sideWeight f id node.low) (d.sideWeight f id node.high)

theorem weight_eq (d : Diagram) (f : NodeId → α) (id : NodeId) (node : Node) :
    d.weight f id node = Counting.add (d.sideWeight f id (node.child false))
      (d.sideWeight f id (node.child true)) := rfl

/-- The numbers of the terminals are zero and one, and that of each decision node before
position `k` is what its children contribute. -/
structure Counted (d : Diagram) (k : Nat) (f : NodeId → α) : Prop where
  /-- There is no way to satisfy the terminal `0`. -/
  zero_eq : f .zero = Counting.zero
  /-- There is one way to satisfy the terminal `1`. -/
  one_eq : f .one = Counting.one
  /-- Decision nodes are satisfied on one of their sides. -/
  node_eq : ∀ (id : NodeId) (node : Node), 2 ≤ id.toIndex → id.toIndex < k →
    d.nodes[id.toIndex]? = some node → f id = d.weight f id node

/-! ### Levels -/

theorem level_of_node (hn : d.nodes[id.toIndex]? = some node) : d.level id = node.var.toIndex := by
  simp [level, hn]

theorem Grounded.level_ofBool (hd : d.Grounded) (b : Bool) :
    d.level (.ofBool b) = d.numVars.toNat := by
  have hn : d.nodes[(NodeId.ofBool b).toIndex]? = some _ :=
    Array.getElem?_eq_getElem (lt_size_front.1 (Valid.ofBool_lt hd b))
  rw [level_of_node hn, hd.var_ofBool b hn]
  rfl

theorem Grounded.level_zero (hd : d.Grounded) : d.level .zero = d.numVars.toNat :=
  hd.level_ofBool false

theorem Grounded.level_one (hd : d.Grounded) : d.level .one = d.numVars.toNat :=
  hd.level_ofBool true

/-- Links lead to higher levels. -/
theorem Grounded.level_lt_child (hd : d.Grounded) (h2 : 2 ≤ id.toIndex)
    (hn : d.nodes[id.toIndex]? = some node) (b : Bool) : d.level id < d.level (node.child b) := by
  obtain ⟨child, hchild, -, hup⟩ := hd.exists_child h2 hn b
  rw [level_of_node hn, level_of_node hchild]
  exact hup

/-- The differences that are taken to count the skipped variables do not go below zero. -/
theorem Grounded.toNat_gap (hd : d.Grounded) (h2 : 2 ≤ id.toIndex)
    (hn : d.nodes[id.toIndex]? = some node)
    (hchild : d.nodes[(node.child b).toIndex]? = some child) :
    node.var.index ≤ child.var.index ∧ 1 ≤ child.var.index - node.var.index ∧
      (child.var.index - node.var.index - 1).toNat = d.skipped id (node.child b) := by
  have hlt : node.var.index.toNat < child.var.index.toNat :=
    Variable.lt_iff.1 ((hd.fits h2 hn).var_lt_child b _ hchild)
  have hle : node.var.index ≤ child.var.index := UInt16.le_iff_toNat_le.2 (Nat.le_of_lt hlt)
  have hone : 1 ≤ child.var.index - node.var.index := by
    rw [UInt16.le_iff_toNat_le, UInt16.toNat_sub_of_le _ _ hle]
    exact Nat.sub_pos_of_lt hlt
  refine ⟨hle, hone, ?_⟩
  rw [UInt16.toNat_sub_of_le _ _ hone, UInt16.toNat_sub_of_le _ _ hle, skipped, level_of_node hn,
    level_of_node hchild]
  rfl

/-- At no decision node does a difference of variables go below zero. -/
theorem Valid.gaps (hd : d.Valid) (hid : id ∈ d.decisionIds) :
    ∃ node, d.node id = .ok node ∧ ∀ b, ∃ child, d.node (node.child b) = .ok child ∧
      node.var.index ≤ child.var.index ∧ 1 ≤ child.var.index - node.var.index := by
  obtain ⟨h2, node, hn⟩ := hd.exists_of_mem_decisionIds hid
  refine ⟨node, node_eq_ok_iff.2 hn, fun b => ?_⟩
  have hchild := Array.getElem?_eq_getElem (hd.child_lt_size h2 hn b)
  obtain ⟨hle, hone, -⟩ := hd.grounded.toNat_gap h2 hn hchild
  exact ⟨_, node_eq_ok_iff.2 hchild, hle, hone⟩

/-! ### One entry -/

/-- The number that is entered for a node, or zero. -/
def entry (counts : Array α) (id : NodeId) : α := counts[id.toIndex]?.getD Counting.zero

theorem entry_setIfInBounds_self (h : id.toIndex < counts.size) :
    entry (counts.setIfInBounds id.toIndex a) id = a := by
  simp [entry, h]

theorem entry_setIfInBounds_of_ne (h : id' ≠ id) :
    entry (counts.setIfInBounds id.toIndex a) id' = entry counts id' := by
  have hne : id.toIndex ≠ id'.toIndex := fun heq => h (NodeId.toIndex_inj.1 heq.symm)
  simp [entry, hne]

theorem Grounded.sideCount_eq (hd : d.Grounded) (h2 : 2 ≤ id.toIndex)
    (hn : d.nodes[id.toIndex]? = some node) (b : Bool) :
    d.sideCount counts node.var (node.child b) =
      .ok (d.sideWeight (entry counts) id (node.child b)) := by
  have hchild : d.nodes[(node.child b).toIndex]? = some _ :=
    Array.getElem?_eq_getElem (hd.child_lt_size h2 hn b)
  rw [sideCount, node_eq_ok_iff.2 hchild, sideWeight, ← (hd.toNat_gap h2 hn hchild).2.2]
  rfl

theorem Grounded.countNode_eq (hd : d.Grounded) (h2 : 2 ≤ id.toIndex)
    (hn : d.nodes[id.toIndex]? = some node) :
    d.countNode counts id =
      .ok (counts.setIfInBounds id.toIndex (d.weight (entry counts) id node)) := by
  have hlow : d.sideCount counts node.var node.low = _ := hd.sideCount_eq h2 hn false
  have hhigh : d.sideCount counts node.var node.high = _ := hd.sideCount_eq h2 hn true
  rw [countNode, node_eq_ok_iff.2 hn]
  simp only [bind, Except.bind, hlow, hhigh]
  rfl

/-- A new entry does not change what the children of a node before it contribute. -/
theorem Grounded.weight_setIfInBounds (hd : d.Grounded) (h2 : 2 ≤ id'.toIndex)
    (hle : id'.toIndex ≤ id.toIndex) (hn : d.nodes[id'.toIndex]? = some node) :
    d.weight (entry (counts.setIfInBounds id.toIndex a)) id' node =
      d.weight (entry counts) id' node := by
  have hside : ∀ b, entry (counts.setIfInBounds id.toIndex a) (node.child b) =
      entry counts (node.child b) := by
    intro b
    refine entry_setIfInBounds_of_ne fun heq => ?_
    have hlt := (hd.fits h2 hn).child_lt b
    rw [heq] at hlt
    exact Nat.not_lt_of_le hle hlt
  simp only [weight_eq, sideWeight, hside]

/-- With the entry of a node at position `k`, the nodes before `k + 1` have their
numbers. -/
theorem Counted.enter (hd : d.Grounded) (h : d.Counted k (entry counts)) (hid : id.toIndex = k)
    (h2 : 2 ≤ k) (hn : d.nodes[id.toIndex]? = some node) (hsize : counts.size = d.size) :
    d.Counted (k + 1)
      (entry (counts.setIfInBounds id.toIndex (d.weight (entry counts) id node))) := by
  subst hid
  have hne : ∀ {id' : NodeId}, id'.toIndex < id.toIndex → id' ≠ id := by
    rintro id' hlt rfl
    exact Nat.lt_irrefl _ hlt
  refine ⟨?_, ?_, fun id' node' h2' hlt hn' => ?_⟩
  · rw [entry_setIfInBounds_of_ne (hne (by rw [NodeId.toIndex_zero]; omega)), h.zero_eq]
  · rw [entry_setIfInBounds_of_ne (hne (by rw [NodeId.toIndex_one]; omega)), h.one_eq]
  · rw [hd.weight_setIfInBounds h2' (Nat.le_of_lt_succ hlt) hn']
    rcases Nat.lt_succ_iff_lt_or_eq.1 hlt with hlt | heq
    · rw [entry_setIfInBounds_of_ne (hne hlt), h.node_eq id' node' h2' hlt hn']
    · obtain rfl := NodeId.toIndex_inj.1 heq
      obtain rfl := Option.some.inj (hn'.symm.trans hn)
      exact entry_setIfInBounds_self (hsize.symm ▸ (Array.getElem?_eq_some_iff.1 hn).1)

/-! ### The whole pass -/

/-- As long as there are ids, the pass enters the numbers of the nodes from position `k`
on. -/
theorem Counted.foldlM (hd : d.Grounded) (h : d.Counted k (entry counts)) (h2 : 2 ≤ k)
    (hk : k + m ≤ d.size) (hids : k + m ≤ 4294967296) (hsize : counts.size = d.size) :
    ∃ counts', ((List.range' k m).map NodeId.ofIndex).foldlM d.countNode counts = .ok counts' ∧
      counts'.size = d.size ∧ d.Counted (k + m) (entry counts') := by
  induction m generalizing k counts with
  | zero => exact ⟨counts, rfl, hsize, h⟩
  | succ m ih =>
    have hidx : (NodeId.ofIndex k).toIndex = k := NodeId.toIndex_ofIndex (by omega)
    have hn : d.nodes[(NodeId.ofIndex k).toIndex]? = some _ :=
      Array.getElem?_eq_getElem (hidx.symm ▸ (by omega : k < d.size))
    have hnext : k + (m + 1) = k + 1 + m := by omega
    rw [hnext] at hk hids ⊢
    rw [List.range'_succ, List.map_cons, List.foldlM_cons, hd.countNode_eq (hidx.symm ▸ h2) hn]
    refine ih (h.enter hd hidx h2 hn hsize) (Nat.le_succ_of_le h2) hk hids ?_
    rw [Array.size_setIfInBounds, hsize]

/-- Before the pass only the terminals have their numbers. -/
theorem Grounded.counted_start (hd : d.Grounded) :
    d.Counted 2 (entry ((Array.replicate d.size (Counting.zero : α)).setIfInBounds
      NodeId.one.toIndex Counting.one)) := by
  have hone : NodeId.one.toIndex < d.size := lt_size_front.1 (Valid.ofBool_lt hd true)
  refine ⟨?_, ?_, fun id _ h2 hlt => absurd hlt (Nat.not_lt_of_le h2)⟩
  · rw [entry_setIfInBounds_of_ne (by decide)]
    have hpos : 0 < d.size := Nat.lt_of_le_of_lt (Nat.zero_le _) hone
    simp [entry, hpos]
  · refine entry_setIfInBounds_self ?_
    rw [Array.size_replicate]
    exact hone

/-- The result is taken from the entry of the root. -/
theorem tally_of_counts (hroot : d.root.toIndex < d.size) (hcounts : d.counts α = .ok counts) :
    d.tally α = .ok (if d.isFalse then Counting.zero else
      Counting.settle (Counting.mul (entry counts d.root) (Counting.pow2 (d.level d.root)))) := by
  have hn : d.nodes[d.root.toIndex]? = some _ := Array.getElem?_eq_getElem hroot
  rw [tally, hcounts, level_of_node hn, node_eq_ok_iff.2 hn]
  split <;> rfl

/-- The pass succeeds and leaves every node with its number, from which the result is
taken. -/
theorem Valid.tally_eq (α : Type) [Counting α] (hd : d.Valid) :
    ∃ f : NodeId → α, d.Counted d.size f ∧
      d.tally α = .ok (if d.isFalse then Counting.zero
        else Counting.settle (Counting.mul (f d.root) (Counting.pow2 (d.level d.root)))) := by
  have hsize := hd.size_pos
  have hle := hd.size_le
  have hsplit : 2 + (d.size - 2) = d.size := by omega
  obtain ⟨counts, hcounts, -, hcounted⟩ := hd.grounded.counted_start.foldlM (α := α) hd.grounded
    (Nat.le_refl 2) (m := d.size - 2) (by omega) (by omega) (by simp)
  rw [hsplit] at hcounted
  rw [← decisionIds_eq] at hcounts
  exact ⟨entry counts, hcounted, tally_of_counts hd.root_lt hcounts⟩

/-- Counting exactly, the terminal `0` needs no case of its own. -/
theorem tally_nat {a : Nat} (h : d.root = .zero → a = 0) (l : Nat) :
    (if d.isFalse then Counting.zero else Counting.settle (Counting.mul a (Counting.pow2 l))) =
      a * 2 ^ l := by
  split
  · next hfalse =>
    rw [h (of_decide_eq_true hfalse), Nat.zero_mul]
    rfl
  · rfl

end Diagram

end DecisionDiagram
