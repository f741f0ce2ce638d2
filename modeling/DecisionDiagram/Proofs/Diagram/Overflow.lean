import DecisionDiagram.Proofs.Diagram.Pass

/-!
# Counting behind the last id

The pass goes over the table by id.  In a table with more entries than there are ids it comes
back to the terminals, which link to themselves, and enters numbers for them: the difference
of variables goes below zero and wraps to `2 ^ 16 - 1`, so that the number of a terminal grows
by the factor `2 ^ (2 ^ 16)`.  After the terminals come the first decision nodes once more,
and their numbers grow with those of their children.
-/

namespace DecisionDiagram

namespace Diagram

variable {d : Diagram} {id : NodeId} {node : Node} {counts : Array Nat} {f g : NodeId → Nat}
  {c k m : Nat} {b : Bool}

/-! ### The terminals once more -/

theorem Grounded.getElem?_ofBool (hd : d.Grounded) (b : Bool) :
    d.nodes[(NodeId.ofBool b).toIndex]? = some ⟨⟨d.numVars⟩, .ofBool b, .ofBool b⟩ := by
  rw [← getElem?_front]
  cases b with
  | false => exact Valid.zero_eq hd
  | true => exact Valid.one_eq hd

/-- At the id of the terminal `0` a difference of variables goes below zero. -/
theorem Grounded.underflow (hd : d.Grounded) (hsize : 4294967296 < d.size) :
    .zero ∈ d.decisionIds ∧ ∃ node child, d.node .zero = .ok node ∧
      d.node node.low = .ok child ∧ ¬1 ≤ child.var.index - node.var.index := by
  have hn := node_eq_ok_iff.2 (hd.getElem?_ofBool false)
  refine ⟨mem_decisionIds.2 ⟨4294967296, by decide, hsize, rfl⟩, _, _, hn, hn, ?_⟩
  simp

/-- Two sides of equal weight. -/
theorem add_self_mul_pow2 (c k : Nat) :
    Counting.add (Counting.mul c (Counting.pow2 k)) (Counting.mul c (Counting.pow2 k)) =
      2 ^ (k + 1) * c := by
  have hsum : c * 2 ^ k + c * 2 ^ k = 2 ^ (k + 1) * c := by
    rw [Nat.pow_succ, Nat.mul_comm, Nat.mul_assoc, Nat.two_mul, Nat.mul_add]
  exact hsum

/-- A terminal is entered as if it decided a variable and both links skipped `2 ^ 16 - 1`. -/
theorem Grounded.countNode_ofBool (hd : d.Grounded) (b : Bool) :
    d.countNode counts (.ofBool b) = .ok (counts.setIfInBounds (NodeId.ofBool b).toIndex
      (2 ^ 65536 * entry counts (.ofBool b))) := by
  have hn := hd.getElem?_ofBool b
  have hgap : (d.numVars - d.numVars - 1).toNat + 1 = 65536 := by
    rw [UInt16.sub_self]
    decide
  rw [← hgap, ← add_self_mul_pow2]
  have hside : d.sideCount counts ⟨d.numVars⟩ (.ofBool b) = .ok (Counting.mul
      (entry counts (.ofBool b)) (Counting.pow2 (d.numVars - d.numVars - 1).toNat)) := by
    rw [sideCount, node_eq_ok_iff.2 hn]
    rfl
  rw [countNode, node_eq_ok_iff.2 hn]
  simp only [bind, Except.bind, hside]
  rfl

/-- A factor common to both children is one of the node. -/
theorem weight_mul (h : ∀ b, g (node.child b) = c * f (node.child b)) :
    d.weight g id node = c * d.weight f id node := by
  have hside : ∀ b, d.sideWeight g id (node.child b) = c * d.sideWeight f id (node.child b) := by
    intro b
    rw [sideWeight, h]
    exact Nat.mul_assoc _ _ _
  rw [weight_eq, hside, hside]
  exact (Nat.mul_add _ _ _).symm

/-! ### The pass goes on -/

/-- The entries before position `k` have been made again. -/
structure Renewed (f : NodeId → Nat) (k : Nat) (counts : Array Nat) : Prop where
  /-- What was made again has grown. -/
  eq_mul : ∀ id : NodeId, id.toIndex < k → entry counts id = 2 ^ 65536 * f id
  /-- The other entries are as they were. -/
  eq_old : ∀ id : NodeId, k ≤ id.toIndex → entry counts id = f id

theorem Renewed.enter (h : Renewed f k counts) (hid : id.toIndex = k) (hk : k < counts.size) :
    Renewed f (k + 1) (counts.setIfInBounds id.toIndex (2 ^ 65536 * f id)) := by
  subst hid
  constructor
  · intro id' hlt
    by_cases heq : id' = id
    · rw [heq, entry_setIfInBounds_self hk]
    · have hne : id'.toIndex ≠ id.toIndex := fun h => heq (NodeId.toIndex_inj.1 h)
      rw [entry_setIfInBounds_of_ne heq, h.eq_mul id' (by omega)]
  · intro id' hle
    have hne : id' ≠ id := by
      rintro rfl
      omega
    rw [entry_setIfInBounds_of_ne hne, h.eq_old id' (by omega)]

/-- The pass makes the next entry again. -/
theorem Renewed.countNode_eq (hd : d.Grounded) (hf : d.Counted d.size f)
    (h : Renewed f id.toIndex counts) (hid : id.toIndex < d.size) :
    d.countNode counts id = .ok (counts.setIfInBounds id.toIndex (2 ^ 65536 * f id)) := by
  rcases id.ofBool_or_two_le with ⟨b, rfl⟩ | h2
  · rw [hd.countNode_ofBool, h.eq_old _ (Nat.le_refl _)]
  · have hn : d.nodes[id.toIndex]? = some _ := Array.getElem?_eq_getElem hid
    rw [hd.countNode_eq h2 hn, hf.node_eq id _ h2 hid hn,
      weight_mul fun b => h.eq_mul _ ((hd.fits h2 hn).child_lt b)]

theorem Renewed.foldlM (hd : d.Grounded) (hf : d.Counted d.size f) (h : Renewed f k counts)
    (hk : k + m ≤ 4294967296) (hm : k + m ≤ d.size) (hsize : counts.size = d.size) :
    ∃ counts', ((List.range' k m).map NodeId.ofIndex).foldlM d.countNode counts = .ok counts' ∧
      Renewed f (k + m) counts' := by
  induction m generalizing k counts with
  | zero => exact ⟨counts, rfl, h⟩
  | succ m ih =>
    have hidx : (NodeId.ofIndex k).toIndex = k := NodeId.toIndex_ofIndex (by omega)
    have hnext : k + (m + 1) = k + 1 + m := by omega
    rw [hnext] at hk hm ⊢
    rw [List.range'_succ, List.map_cons, List.foldlM_cons,
      Renewed.countNode_eq hd hf (hidx.symm ▸ h) (by omega)]
    exact ih (h.enter hidx (by omega)) hk hm (by rw [Array.size_setIfInBounds, hsize])

/-! ### The whole pass -/

/-- The id of a position behind the last id is that of a position from the start on. -/
theorem map_ofIndex_range' (m : Nat) :
    (List.range' 4294967296 m).map NodeId.ofIndex = (List.range' 0 m).map NodeId.ofIndex := by
  rw [List.range'_eq_map_range, List.range'_eq_map_range, List.map_map, List.map_map]
  refine List.map_congr_left fun i _ => NodeId.toIndex_inj.1 ?_
  simp only [Function.comp_apply, NodeId.toIndex_ofIndex_mod]
  omega

/-- If the pass comes back to the id of the root, then the exact count is too large by the
factor `2 ^ (2 ^ 16)`. -/
theorem Grounded.count_of_size_gt (hd : d.Grounded) (hroot : 4294967296 + d.root.toIndex < d.size)
    (hsize : d.size ≤ 8589934592) :
    ∃ f : NodeId → Nat, d.Counted d.size f ∧
      d.count = .ok (2 ^ 65536 * (f d.root * 2 ^ d.level d.root)) := by
  obtain ⟨k, hk⟩ : ∃ k, 2 + k = 4294967296 := ⟨4294967294, rfl⟩
  obtain ⟨m, hm⟩ : ∃ m, d.size = 4294967296 + m := ⟨d.size - 4294967296, by omega⟩
  -- The first time around every node gets its number.
  obtain ⟨counts, hcounts, hlength, hcounted⟩ := hd.counted_start.foldlM (α := Nat) hd
    (Nat.le_refl 2) (m := k) (by omega) (by omega) (by simp)
  rw [NodeId.toIndex_one] at hcounts
  have hf : d.Counted d.size (entry counts) :=
    ⟨hcounted.zero_eq, hcounted.one_eq, fun id node h2 _ hn =>
      hcounted.node_eq id node h2 (hk ▸ id.toIndex_lt) hn⟩
  obtain ⟨counts', hcounts', hrenewed⟩ := Renewed.foldlM (f := entry counts) (k := 0) (m := m) hd hf
    ⟨fun _ h => absurd h (Nat.not_lt_zero _), fun _ _ => rfl⟩ (by omega) (by omega) hlength
  refine ⟨entry counts, hf, ?_⟩
  have hall : d.counts Nat = .ok counts' := by
    have hids : List.range' 2 (d.size - 2) = List.range' 2 k ++ List.range' 4294967296 m := by
      rw [← hk, List.range'_append_1]
      congr 1
      omega
    rw [Diagram.counts, decisionIds_eq, hids, List.map_append, List.foldlM_append,
      map_ofIndex_range', hcounts]
    exact hcounts'
  rw [count, tally_of_counts (by omega) hall, hrenewed.eq_mul d.root (by omega)]
  generalize 2 ^ 65536 = c
  have hzero : d.root = .zero → c * entry counts d.root = 0 := by
    intro hroot
    rw [hroot, hf.zero_eq]
    exact Nat.mul_zero c
  rw [tally_nat hzero, Nat.mul_assoc]

end Diagram

end DecisionDiagram
