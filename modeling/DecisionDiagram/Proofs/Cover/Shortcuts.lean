import DecisionDiagram.Proofs.Cover.Canonical

/-!
# Shortcuts of the expansion

The expansion passes over variables that no cube fixes, and stops as soon as the function
is constant.  The plain recursion does neither and splits on every variable down to the
last.  It too builds a tree, the full one; and with sharing the result of building a tree
is determined by its function.  So the shortcuts leave no trace in the table: what the
full tree asks for in addition is either there already or redundant.
-/

namespace DecisionDiagram

variable {n : UInt16} {v : Variable} {rows : List Row} {left : Nat} {σ : Point}

namespace Tree

/-- The decision on every one of the `left` variables from `v` on. -/
def full : (left : Nat) → (v : Variable) → (rows : List Row) → Tree
  | 0, _, rows => .leaf (!rows.isEmpty)
  | left + 1, v, rows =>
    .branch v (full left v.succ (rows.filter (·.allows v true)))
      (full left v.succ (rows.filter (·.allows v false)))

/-- The recursion without shortcuts builds the full tree. -/
theorem expandFully_eq_build (left : Nat) (v : Variable) (rows : List Row) (p : Pool) :
    Cover.expandFully left v rows p = (full left v rows).build p := by
  induction left generalizing v rows p with
  | zero => rfl
  | succ left ih =>
    simp only [Cover.expandFully, ih]
    rfl

theorem ordered_full (h : v.toIndex + left = n.toNat) :
    (full left v rows).Ordered n.toNat v.toIndex := by
  induction left generalizing v rows with
  | zero => exact .leaf _ _
  | succ left ih =>
    have hv : v.toIndex < n.toNat := by omega
    have hsucc := Variable.toIndex_succ hv
    have hrest : v.succ.toIndex + left = n.toNat := by omega
    exact .branch (Nat.le_refl _) hv (hsucc ▸ ih hrest) (hsucc ▸ ih hrest)

/-- The full tree is true where some cube agrees from the current variable on. -/
theorem eval_full (h : v.toIndex + left = n.toNat) (hrows : ∀ row ∈ rows, row.Faithful n) :
    (full left v rows).eval σ = true ↔ ∃ row ∈ rows, row.cube.AgreesFrom v.toIndex σ := by
  induction left generalizing v rows with
  | zero =>
    rw [exists_agreesFrom_end hrows (by omega)]
    simp [full, eval]
  | succ left ih =>
    have hv : v.toIndex < n.toNat := by omega
    have hrest : v.succ.toIndex + left = n.toNat := by rw [Variable.toIndex_succ hv]; omega
    have hside := faithful_filter hrows v
    rw [exists_agreesFrom_iff hv, full, eval]
    cases σ v with
    | true => exact ih hrest (hside true)
    | false => exact ih hrest (hside false)

end Tree

namespace Cover

variable {c : Cover}

/-- The tree of a cover that decides every variable of the order. -/
def fullTree (c : Cover) : Tree := .full c.order.numVars.toNat ⟨0⟩ c.rows

theorem fullExpansion_eq_build (c : Cover) :
    c.fullExpansion = c.fullTree.build (.start c.order.numVars c.sharing) :=
  Tree.expandFully_eq_build ..

theorem ordered_fullTree (c : Cover) : c.fullTree.Ordered c.order.numVars.toNat 0 :=
  Tree.ordered_full (v := ⟨0⟩) (Nat.zero_add _)

theorem eval_fullTree (c : Cover) (σ : Point) : c.fullTree.eval σ = c.tree.eval σ := by
  rw [Bool.eq_iff_iff, fullTree, tree, Tree.eval_full (v := ⟨0⟩) (Nat.zero_add _) c.faithful_rows,
    Tree.eval_ofRows (v := ⟨0⟩) (Nat.zero_add _) c.faithful_rows]

/-- With sharing, the recursion without shortcuts has the result of the one with them. -/
theorem sameResult_fullExpansion (hs : c.sharing = true) (hsize : c.diagram.size ≤ 4294967296) :
    Pool.SameResult c.expansion c.fullExpansion := by
  have hids : (Pool.start c.order.numVars c.sharing).ids.isSome := by
    rw [hs]
    rfl
  rw [expansion_eq_build, fullExpansion_eq_build]
  exact c.ordered_tree.build_congr c.ordered_fullTree (fun σ => (c.eval_fullTree σ).symm)
    (Pool.sound_start _ _) hids (.refl _) (c.size_build_tree ▸ hsize)

/-- Compiled with sharing, a cover gives the table and the root of the recursion that
splits on every variable of the order. -/
theorem compile_eq_fullExpansion (c : Cover) (hs : c.sharing = true) :
    ∃ d, c.compile = .ok d ∧ (d.size ≤ 4294967296 →
      d = ⟨c.order, c.fullExpansion.2.nodes, c.fullExpansion.1⟩) := by
  refine ⟨c.diagram, c.compile_eq, ?_⟩
  intro hsize
  obtain ⟨hroot, halike⟩ := sameResult_fullExpansion hs hsize
  rw [diagram, hroot, halike.nodes_eq]

theorem compile_eq_fullExpansion_sample :
    (sample true).compile =
      .ok ⟨(sample true).order, (sample true).fullExpansion.2.nodes,
        (sample true).fullExpansion.1⟩ := by
  obtain ⟨d, hd, h⟩ := compile_eq_fullExpansion (sample true) rfl
  have hsize : d.size ≤ 4294967296 := Nat.le_trans (size_compile_le hd) (by decide)
  rw [hd, ← h hsize]

end Cover

end DecisionDiagram
