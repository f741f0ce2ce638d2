import DecisionDiagram.Proofs.Diagram.Check

/-!
# What the check reports

The rules for a table are looked at in a fixed order.  `Diagram.Breaks` says which rule a
node breaks first, and `Diagram.FirstDefect` which rule a table breaks first, each without
mention of the check.  The check reports exactly this defect, and nothing else can go wrong
in it: a link is followed only after it was found to lead to an earlier position.

A table that is too long for its ids has a defect as well.  Its position `2 ^ 32` is taken
for the terminal `0`, which tests no variable of the order.
-/

namespace DecisionDiagram

namespace Diagram

variable {d : Diagram} {id : NodeId} {node : Node} {failure : Failure} {defect : TableDefect}
  {i s n : Nat}

/-! ### One node -/

/-- The first rule that a node breaks at position `i`, with the report of it. -/
inductive Breaks (d : Diagram) (i : Nat) (node : Node) : TableDefect → Prop
  /-- The variable is not in the order. -/
  | invalidVariable : d.numVars ≤ node.var.index →
    d.Breaks i node (.invalidVariable node.var.toIndex i)
  /-- The low link does not lead to an earlier position. -/
  | forwardLow : node.var.index < d.numVars → i ≤ node.low.toIndex →
    d.Breaks i node (.forwardLow node.low.toIndex i)
  /-- The high link does not lead to an earlier position. -/
  | forwardHigh : node.var.index < d.numVars → node.low.toIndex < i → i ≤ node.high.toIndex →
    d.Breaks i node (.forwardHigh node.high.toIndex i)
  /-- Both links lead to the same position. -/
  | redundant : node.var.index < d.numVars → node.low.toIndex < i → node.high.toIndex < i →
    node.low = node.high → d.Breaks i node (.redundant i node.low.toIndex)
  /-- One of the children does not come later in the order. -/
  | unordered (b : Bool) {child : Node} : node.var.index < d.numVars → node.low.toIndex < i →
    node.high.toIndex < i → node.low ≠ node.high →
    d.nodes[(node.child b).toIndex]? = some child → child.var ≤ node.var →
    d.Breaks i node (.unordered i)

theorem Breaks.checkNode (hn : d.nodes[id.toIndex]? = some node)
    (h : d.Breaks id.toIndex node defect) : d.checkNode id = .error (malformed defect) := by
  rw [checkNode_eq hn]
  cases h with
  | invalidVariable hvar => rw [if_pos hvar]
  | forwardLow hvar hlow => rw [if_neg (UInt16.not_le.2 hvar), if_pos hlow]
  | forwardHigh hvar hlow hhigh =>
    rw [if_neg (UInt16.not_le.2 hvar), if_neg (Nat.not_le_of_lt hlow), if_pos hhigh]
  | redundant hvar hlow hhigh heq =>
    rw [if_neg (UInt16.not_le.2 hvar), if_neg (Nat.not_le_of_lt hlow),
      if_neg (Nat.not_le_of_lt hhigh), if_pos heq]
  | @unordered b child hvar hlow hhigh hne hchild hle =>
    have hany : [node.low, node.high].any fun link =>
        d.nodes[link.toIndex]?.any fun child => child.var ≤ node.var := by
      cases b <;> simp_all
    rw [if_neg (UInt16.not_le.2 hvar), if_neg (Nat.not_le_of_lt hlow),
      if_neg (Nat.not_le_of_lt hhigh), if_neg hne, if_pos hany]

theorem exists_breaks (hn : d.nodes[id.toIndex]? = some node)
    (h : d.checkNode id = .error failure) :
    ∃ defect, failure = malformed defect ∧ d.Breaks id.toIndex node defect := by
  rw [checkNode_eq hn] at h
  by_cases hvar : d.numVars ≤ node.var.index
  · rw [if_pos hvar] at h
    exact ⟨_, (Except.error.inj h).symm, .invalidVariable hvar⟩
  rw [if_neg hvar] at h
  rw [UInt16.not_le] at hvar
  by_cases hlow : id.toIndex ≤ node.low.toIndex
  · rw [if_pos hlow] at h
    exact ⟨_, (Except.error.inj h).symm, .forwardLow hvar hlow⟩
  rw [if_neg hlow] at h
  rw [Nat.not_le] at hlow
  by_cases hhigh : id.toIndex ≤ node.high.toIndex
  · rw [if_pos hhigh] at h
    exact ⟨_, (Except.error.inj h).symm, .forwardHigh hvar hlow hhigh⟩
  rw [if_neg hhigh] at h
  rw [Nat.not_le] at hhigh
  by_cases heq : node.low = node.high
  · rw [if_pos heq] at h
    exact ⟨_, (Except.error.inj h).symm, .redundant hvar hlow hhigh heq⟩
  rw [if_neg heq] at h
  split at h
  · rename_i hany
    simp only [List.any_cons, List.any_nil, Bool.or_false, Bool.or_eq_true, Option.any_eq_true,
      decide_eq_true_eq] at hany
    rcases hany with ⟨child, hchild, hle⟩ | ⟨child, hchild, hle⟩
    · exact ⟨_, (Except.error.inj h).symm, .unordered false hvar hlow hhigh heq hchild hle⟩
    · exact ⟨_, (Except.error.inj h).symm, .unordered true hvar hlow hhigh heq hchild hle⟩
  · cases h

/-- The check of a node reports the first rule that it breaks. -/
theorem checkNode_eq_error_iff (hn : d.nodes[id.toIndex]? = some node) :
    d.checkNode id = .error failure ↔
      ∃ defect, failure = malformed defect ∧ d.Breaks id.toIndex node defect := by
  constructor
  · exact exists_breaks hn
  · rintro ⟨defect, rfl, h⟩
    exact h.checkNode hn

/-- A position that has an id of its own passes if its node fits. -/
theorem checkNode_ofIndex_eq_ok_iff (hi : i < 4294967296) (hn : d.nodes[i]? = some node) :
    d.checkNode (.ofIndex i) = .ok () ↔ d.Fits i node := by
  have hid : (NodeId.ofIndex i).toIndex = i := NodeId.toIndex_ofIndex hi
  rw [checkNode_eq_ok_iff (hid.symm ▸ hn), hid]

/-- Otherwise the first rule that its node breaks is reported. -/
theorem checkNode_ofIndex_eq_error_iff (hi : i < 4294967296) (hn : d.nodes[i]? = some node) :
    d.checkNode (.ofIndex i) = .error failure ↔
      ∃ defect, failure = malformed defect ∧ d.Breaks i node defect := by
  have hid : (NodeId.ofIndex i).toIndex = i := NodeId.toIndex_ofIndex hi
  rw [checkNode_eq_error_iff (hid.symm ▸ hn), hid]

/-! ### Node after node -/

/-- Nodes are checked by position up to the first that fails. -/
theorem checkNodes_range'_eq_error_iff (s n : Nat) :
    d.checkNodes ((List.range' s n).map NodeId.ofIndex) = .error failure ↔
      ∃ i, s ≤ i ∧ i < s + n ∧ (∀ j, s ≤ j → j < i → d.checkNode (.ofIndex j) = .ok ()) ∧
        d.checkNode (.ofIndex i) = .error failure := by
  induction n generalizing s with
  | zero =>
    simp only [List.range'_zero, List.map_nil, checkNodes, reduceCtorEq, false_iff]
    rintro ⟨i, hs, hi, -⟩
    omega
  | succ n ih =>
    rw [List.range'_succ, List.map_cons, checkNodes]
    cases hfirst : d.checkNode (.ofIndex s) with
    | ok _ =>
      simp only [ih]
      constructor
      · rintro ⟨i, hs, hi, hok, herr⟩
        refine ⟨i, by omega, by omega, fun j hj hji => ?_, herr⟩
        rcases Nat.eq_or_lt_of_le hj with rfl | hlt
        · exact hfirst
        · exact hok j hlt hji
      · rintro ⟨i, hs, hi, hok, herr⟩
        refine ⟨i, ?_, by omega, fun j hj hji => hok j (by omega) hji, herr⟩
        refine Nat.lt_of_le_of_ne hs fun heq => ?_
        rw [← heq, hfirst] at herr
        cases herr
    | error failure' =>
      simp only [Except.error.injEq]
      constructor
      · rintro rfl
        exact ⟨s, Nat.le_refl s, by omega, fun j hj hji => by omega, hfirst⟩
      · rintro ⟨i, hs, hi, hok, herr⟩
        rcases Nat.eq_or_lt_of_le hs with rfl | hlt
        · rw [hfirst] at herr
          exact Except.error.inj herr
        · rw [hok s (Nat.le_refl s) hlt] at hfirst
          cases hfirst

/-! ### The whole table -/

/-- The table starts with the terminals, and the root lies in it. -/
structure Framed (d : Diagram) : Prop where
  /-- The table starts with the terminal `0`. -/
  zero_eq : d.nodes[0]? = some (.zero d.numVars)
  /-- The terminal `1` comes next. -/
  one_eq : d.nodes[1]? = some (.one d.numVars)
  /-- The root is in the table. -/
  root_lt : d.root.toIndex < d.size

/-- The decision nodes before position `i` fit. -/
def FitsBelow (d : Diagram) (i : Nat) : Prop :=
  ∀ j node, 2 ≤ j → j < i → d.nodes[j]? = some node → d.Fits j node

/-- The first rule that a table and its root break, with the report of it. -/
inductive FirstDefect (d : Diagram) : TableDefect → Prop
  /-- There is no room for the terminals. -/
  | missingTerminals : d.size < 2 → d.FirstDefect .missingTerminals
  /-- The table does not start with the terminal `0`. -/
  | zeroTerminal : 2 ≤ d.size → d.nodes[0]? ≠ some (.zero d.numVars) →
    d.FirstDefect .zeroTerminal
  /-- The terminal `1` does not come next. -/
  | oneTerminal : 2 ≤ d.size → d.nodes[0]? = some (.zero d.numVars) →
    d.nodes[1]? ≠ some (.one d.numVars) → d.FirstDefect .oneTerminal
  /-- The root lies outside. -/
  | missingRoot : d.nodes[0]? = some (.zero d.numVars) → d.nodes[1]? = some (.one d.numVars) →
    d.size ≤ d.root.toIndex → d.FirstDefect (.missingRoot d.root.toIndex)
  /-- Among the positions that have an id of their own, this one holds the first node that
  does not fit. -/
  | node {i : Nat} {node : Node} {defect : TableDefect} : d.Framed → 2 ≤ i → i < 4294967296 →
    d.FitsBelow i → d.nodes[i]? = some node → d.Breaks i node defect → d.FirstDefect defect
  /-- All these nodes fit, but there are more positions than ids. -/
  | overlong : d.Framed → 4294967296 < d.size → d.FitsBelow 4294967296 →
    d.FirstDefect (.invalidVariable d.numVars.toNat 0)

theorem Framed.size_pos (h : d.Framed) : 2 ≤ d.size :=
  (Array.getElem?_eq_some_iff.1 h.one_eq).1

/-- In a framed table it is left to check the decision nodes. -/
theorem Framed.check_eq (h : d.Framed) : d.check = d.checkNodes d.decisionIds := by
  rw [check, if_neg (Nat.not_lt_of_le h.size_pos), if_neg (not_not_intro h.zero_eq),
    if_neg (not_not_intro h.one_eq), if_neg (Nat.not_le_of_lt h.root_lt)]

/-- The terminal `0` does not pass for a decision node. -/
theorem Framed.checkNode_zero (h : d.Framed) :
    d.checkNode .zero = .error (malformed (.invalidVariable d.numVars.toNat 0)) :=
  Breaks.checkNode h.zero_eq (.invalidVariable (UInt16.le_refl _))

theorem fitsBelow_iff (hsize : i ≤ d.size) (hi : i ≤ 4294967296) :
    d.FitsBelow i ↔ ∀ j, 2 ≤ j → j < i → d.checkNode (.ofIndex j) = .ok () := by
  constructor
  · intro h j h2 hj
    have hn : d.nodes[j]? = some _ := Array.getElem?_eq_getElem (Nat.lt_of_lt_of_le hj hsize)
    exact (checkNode_ofIndex_eq_ok_iff (Nat.lt_of_lt_of_le hj hi) hn).2 (h j _ h2 hj hn)
  · intro h j node h2 hj hn
    exact (checkNode_ofIndex_eq_ok_iff (Nat.lt_of_lt_of_le hj hi) hn).1 (h j h2 hj)

/-- A defect among the decision nodes is the first defect of a framed table. -/
theorem Framed.exists_firstDefect (h : d.Framed)
    (herror : d.checkNodes d.decisionIds = .error failure) :
    ∃ defect, failure = malformed defect ∧ d.FirstDefect defect := by
  have hpos := h.size_pos
  rw [decisionIds_eq, checkNodes_range'_eq_error_iff] at herror
  obtain ⟨i, h2, hi, hok, herr⟩ := herror
  have hlt : i < d.size := by omega
  by_cases hsmall : i < 4294967296
  · have hn : d.nodes[i]? = some _ := Array.getElem?_eq_getElem hlt
    obtain ⟨defect, hdefect, hbreaks⟩ := (checkNode_ofIndex_eq_error_iff hsmall hn).1 herr
    have hfits := (fitsBelow_iff (Nat.le_of_lt hlt) (Nat.le_of_lt hsmall)).2 hok
    exact ⟨defect, hdefect, .node h h2 hsmall hfits hn hbreaks⟩
  · -- Position `2 ^ 32` fails in any case, so no later one comes first.
    have hfails : d.checkNode (.ofIndex 4294967296) = _ := h.checkNode_zero
    obtain rfl : i = 4294967296 := by
      refine Nat.le_antisymm (Nat.le_of_not_lt fun hbig => ?_) (Nat.le_of_not_lt hsmall)
      rw [hok 4294967296 (by decide) hbig] at hfails
      cases hfails
    rw [hfails] at herr
    have hfits := (fitsBelow_iff (Nat.le_of_lt hlt) (Nat.le_refl _)).2 hok
    exact ⟨_, (Except.error.inj herr).symm, .overlong h hlt hfits⟩

theorem exists_firstDefect (h : d.check = .error failure) :
    ∃ defect, failure = malformed defect ∧ d.FirstDefect defect := by
  by_cases hsize : d.size < 2
  · rw [check, if_pos hsize] at h
    exact ⟨_, (Except.error.inj h).symm, .missingTerminals hsize⟩
  by_cases hzero : d.nodes[0]? = some (.zero d.numVars)
  · by_cases hone : d.nodes[1]? = some (.one d.numVars)
    · by_cases hroot : d.size ≤ d.root.toIndex
      · rw [check, if_neg hsize, if_neg (not_not_intro hzero), if_neg (not_not_intro hone),
          if_pos hroot] at h
        exact ⟨_, (Except.error.inj h).symm, .missingRoot hzero hone hroot⟩
      · have hframed : d.Framed := ⟨hzero, hone, Nat.lt_of_not_le hroot⟩
        exact hframed.exists_firstDefect (hframed.check_eq ▸ h)
    · rw [check, if_neg hsize, if_neg (not_not_intro hzero), if_pos hone] at h
      exact ⟨_, (Except.error.inj h).symm, .oneTerminal (Nat.le_of_not_lt hsize) hzero hone⟩
  · rw [check, if_neg hsize, if_pos hzero] at h
    exact ⟨_, (Except.error.inj h).symm, .zeroTerminal (Nat.le_of_not_lt hsize) hzero⟩

theorem FirstDefect.check_eq (h : d.FirstDefect defect) :
    d.check = .error (malformed defect) := by
  cases h with
  | missingTerminals hsize => rw [check, if_pos hsize]
  | zeroTerminal hsize hzero => rw [check, if_neg (Nat.not_lt_of_le hsize), if_pos hzero]
  | oneTerminal hsize hzero hone =>
    rw [check, if_neg (Nat.not_lt_of_le hsize), if_neg (not_not_intro hzero), if_pos hone]
  | missingRoot hzero hone hroot =>
    have hsize : 2 ≤ d.size := (Array.getElem?_eq_some_iff.1 hone).1
    rw [check, if_neg (Nat.not_lt_of_le hsize), if_neg (not_not_intro hzero),
      if_neg (not_not_intro hone), if_pos hroot]
  | @node i node _ hframed h2 hsmall hfits hn hbreaks =>
    have hlt : i < d.size := (Array.getElem?_eq_some_iff.1 hn).1
    rw [hframed.check_eq, decisionIds_eq, checkNodes_range'_eq_error_iff]
    refine ⟨i, h2, by omega, ?_, ?_⟩
    · exact (fitsBelow_iff (Nat.le_of_lt hlt) (Nat.le_of_lt hsmall)).1 hfits
    · exact (checkNode_ofIndex_eq_error_iff hsmall hn).2 ⟨defect, rfl, hbreaks⟩
  | overlong hframed hbig hfits =>
    rw [hframed.check_eq, decisionIds_eq, checkNodes_range'_eq_error_iff]
    refine ⟨4294967296, by decide, by omega, ?_, hframed.checkNode_zero⟩
    exact (fitsBelow_iff (Nat.le_of_lt hbig) (Nat.le_refl _)).1 hfits

/-- The check reports the first defect of the table. -/
theorem check_eq_error_iff :
    d.check = .error failure ↔ ∃ defect, failure = malformed defect ∧ d.FirstDefect defect := by
  constructor
  · exact exists_firstDefect
  · rintro ⟨defect, rfl, h⟩
    exact h.check_eq

/-! ### Reading a table -/

theorem ofNodes_eq_error_iff {order : VarOrder} {nodes : Array Node} {root : NodeId} :
    ofNodes order nodes root = .error failure ↔
      (⟨order, nodes, root⟩ : Diagram).check = .error failure := by
  rw [ofNodes]
  cases (⟨order, nodes, root⟩ : Diagram).check <;> simp [bind, Except.bind, pure, Except.pure]

/-- A raw table with a root is read as the diagram that it is if it obeys all the rules.
Otherwise its first defect is reported: rules for the table come before rules for nodes, and
nodes with smaller positions come before those with larger ones.  Nothing that the table
contains makes the check look outside of it. -/
theorem ofNodes_result (order : VarOrder) (nodes : Array Node) (root : NodeId) :
    (∀ d, ofNodes order nodes root = .ok d ↔ d = ⟨order, nodes, root⟩ ∧ d.Valid) ∧
      (∀ failure, ofNodes order nodes root = .error failure ↔ ∃ defect,
        failure = malformed defect ∧ FirstDefect ⟨order, nodes, root⟩ defect) ∧
      ∀ cause, ofNodes order nodes root ≠ .error (.fault cause) := by
  have herror : ∀ failure, ofNodes order nodes root = .error failure ↔ ∃ defect,
      failure = malformed defect ∧ FirstDefect ⟨order, nodes, root⟩ defect := by
    intro failure
    rw [ofNodes_eq_error_iff, check_eq_error_iff]
  refine ⟨fun d => ofNodes_eq_ok_iff, herror, ?_⟩
  intro cause h
  obtain ⟨defect, hdefect, -⟩ := (herror _).1 h
  cases hdefect

/-- Both terminals are wrong and the root is outside; what is reported is the terminal `0`. -/
example : ofNodes ∅ #[.one 0, .zero 0] (.ofIndex 7) = .error (malformed .zeroTerminal) := rfl

end Diagram

end DecisionDiagram
