import DecisionDiagram.Proofs.Tree.Rows

/-!
# The task stack carries out the recursion

Working off an expansion task puts one id on the result stack, the one that the
recursive expansion delivers, and leaves the pool that it leaves; the tasks below
are not touched.  So compiling a cover always succeeds, and its table and root are
those of the recursion, that is, of the cover's decision tree built in a fresh pool.
-/

namespace DecisionDiagram

namespace Cover

section Loop

variable {n : UInt16} {v x : Variable} {rows highs lows : List Row} {tasks : List Task}
  {results : List NodeId} {p : Pool} {b : Bool}

/-! ### One step of the loop -/

theorem run_constant (h : split n v rows = .constant b) :
    run n (.expand v rows :: tasks) results p = run n tasks (.ofBool b :: results) p := by
  rw [run]
  split <;> simp_all

theorem run_branch (h : split n v rows = .branch x highs lows) :
    run n (.expand v rows :: tasks) results p =
      run n (.expand x.succ highs :: .expand x.succ lows :: .join x :: tasks) results p := by
  rw [run]
  split <;> simp_all

theorem run_join (low high : NodeId) :
    run n (.join x :: tasks) (low :: high :: results) p =
      run n tasks ((p.intern x low high).1 :: results) (p.intern x low high).2 := by
  rw [run]

/-- What a task does is decided by the split of its cubes, wherever it starts. -/
theorem run_expand_congr (h : split n v rows = split n x rows) :
    run n (.expand v rows :: tasks) results p = run n (.expand x rows :: tasks) results p := by
  cases hs : split n x rows with
  | constant b => rw [run_constant (h.trans hs), run_constant hs]
  | branch y highs lows => rw [run_branch (h.trans hs), run_branch hs]

/-! ### The whole loop -/

/-- An expansion task is worked off as the recursion says, on any stack of tasks. -/
theorem run_expand {left : Nat} (h : varsLeft n v = left) :
    run n (.expand v rows :: tasks) results p =
      run n tasks ((expand left v rows p).1 :: results) (expand left v rows p).2 := by
  induction left generalizing v rows tasks results p with
  | zero =>
    have hend : v.index = n := by
      have := v.index.toNat_lt
      have := n.toNat_lt
      simp only [varsLeft, UInt16.toNat_sub] at h
      exact UInt16.toNat_inj.1 (by omega)
    refine run_constant ?_
    rw [split]
    by_cases hempty : rows.isEmpty
    · simp [hempty]
    · simp [hempty, hend]
  | succ left ih =>
    have hend : v.index ≠ n := by
      intro hv
      simp [varsLeft, hv] at h
    have hnext : varsLeft n v.succ = left := by have := varsLeft_succ hend; omega
    have hsplit := split.eq_1 n v rows
    rw [expand]
    by_cases hempty : rows.isEmpty
    · rw [if_pos hempty] at hsplit ⊢
      exact run_constant hsplit
    rw [if_neg hempty, dif_neg hend] at hsplit
    rw [if_neg hempty]
    by_cases hfree : rows.any (·.freeFrom ≤ v.index)
    · rw [if_pos hfree] at hsplit ⊢
      exact run_constant hsplit
    rw [if_neg hfree] at hsplit ⊢
    by_cases hfixes : rows.any (·.cube.fixes v)
    · rw [if_pos hfixes] at hsplit ⊢
      rw [run_branch hsplit, ih hnext, ih hnext, run_join]
    · rw [if_neg hfixes] at hsplit ⊢
      rw [run_expand_congr hsplit, ih hnext]

end Loop

/-! ### Compilation -/

/-- The rows that an expansion of the cover starts from. -/
def rows (c : Cover) : List Row := c.cubes.toList.map Row.ofCube

/-- The decision tree of a cover. -/
def tree (c : Cover) : Tree := .ofRows c.order.numVars.toNat ⟨0⟩ c.rows

theorem expansion_eq_build (c : Cover) :
    c.expansion = c.tree.build (.start c.order.numVars c.sharing) := Tree.expand_eq_build ..

theorem varsLeft_zero (n : UInt16) : varsLeft n ⟨0⟩ = n.toNat := by
  simp [varsLeft]

/-- The loop on the whole cover ends with exactly one result. -/
theorem run_rows (c : Cover) :
    run c.order.numVars [.expand ⟨0⟩ c.rows] [] (.start c.order.numVars c.sharing) =
      .ok ([c.expansion.1], c.expansion.2) := by
  rw [run_expand (varsLeft_zero _), run]
  rfl

/-- The table and root that compiling a cover ends with. -/
def diagram (c : Cover) : Diagram := ⟨c.order, c.expansion.2.nodes, c.expansion.1⟩

theorem compileLogged_eq (c : Cover) :
    c.compileLogged = .ok (c.diagram,
      .started c.cubes.size c.order.numVars c.sharing :: c.expansion.2.events.toList ++
        [.finished c.diagram.size c.diagram.root]) := by
  have h := c.run_rows
  simp only [rows] at h
  rw [compileLogged, h]
  rfl

/-- Compiling a cover always succeeds. -/
theorem compile_eq (c : Cover) : c.compile = .ok c.diagram := by
  rw [compile, compileLogged_eq]
  rfl

end Cover

end DecisionDiagram
