import DecisionDiagram.Proofs.Cover.Run
import DecisionDiagram.Proofs.Order.Values
import DecisionDiagram.Proofs.Tree.Build

/-!
# The function of a cover

A cover holds at a point that agrees with one of its cubes.  This is the function of
its decision tree, and so, as long as the finished table fits its ids, the function
of the compiled diagram: compiling never fails, and the diagram evaluates to `true`
under exactly the valuations that complete some cube.  With or without sharing makes
no difference here, since building a tree keeps its function in both.
-/

namespace DecisionDiagram

variable {n : UInt16} {c : Cube} {v : Valuation} {σ : Point} {x : Variable} {b : Bool}

namespace Cover

variable {c : Cover}

/-- The cover is true at a point that agrees with one of its cubes. -/
def Holds (c : Cover) (σ : Point) : Prop := ∃ cube ∈ c.cubes, cube.AgreesFrom 0 σ

theorem covers_iff_holds (hv : v.bits.size = c.order.numVars.toNat) :
    c.Covers v ↔ c.Holds v.point := by
  refine exists_congr fun cube => and_congr_right fun hcube => ?_
  exact Valuation.completes_iff_agreesFrom hv (c.within cube hcube)

theorem covers_iff (hv : v.bits.size = c.order.numVars.toNat) :
    c.Covers v ↔ ∃ cube ∈ c.cubes, v.completes cube = .ok true := by
  refine exists_congr fun cube => and_congr_right fun hcube => ?_
  exact Valuation.completes_iff hv (c.within cube hcube)

/-! ### The tree of a cover -/

theorem faithful_rows (c : Cover) : ∀ row ∈ c.rows, row.Faithful c.order.numVars := by
  intro row hrow
  obtain ⟨cube, hcube, rfl⟩ := List.mem_map.1 hrow
  exact .ofCube (c.within cube (Array.mem_toList_iff.1 hcube))

theorem ordered_tree (c : Cover) : c.tree.Ordered c.order.numVars.toNat 0 :=
  Tree.ordered_ofRows (v := ⟨0⟩) (Nat.zero_add _)

theorem eval_tree (c : Cover) (σ : Point) : c.tree.eval σ = true ↔ c.Holds σ := by
  rw [tree, Tree.eval_ofRows (v := ⟨0⟩) (Nat.zero_add _) c.faithful_rows]
  constructor
  · rintro ⟨row, hrow, h⟩
    obtain ⟨cube, hcube, rfl⟩ := List.mem_map.1 hrow
    exact ⟨cube, Array.mem_toList_iff.1 hcube, h⟩
  · rintro ⟨cube, hcube, h⟩
    exact ⟨.ofCube cube, List.mem_map_of_mem (Array.mem_toList_iff.2 hcube), h⟩

/-! ### The compiled diagram -/

theorem size_build_tree (c : Cover) :
    (c.tree.build (.start c.order.numVars c.sharing)).2.nodes.size = c.diagram.size := by
  rw [← expansion_eq_build]
  rfl

/-- The diagram is at most as large as a full binary tree with both terminals. -/
theorem size_diagram_le (c : Cover) : c.diagram.size ≤ 2 ^ c.order.numVars.toNat + 1 := by
  have hbuild := c.tree.size_build_le (.start c.order.numVars c.sharing)
  have hdecisions := c.ordered_tree.decisions_lt
  rw [size_build_tree, Pool.size_start] at hbuild
  rw [Nat.sub_zero] at hdecisions
  omega

theorem size_compile_le {d : Diagram} (h : c.compile = .ok d) :
    d.size ≤ 2 ^ c.order.numVars.toNat + 1 := by
  rw [compile_eq] at h
  cases h
  exact c.size_diagram_le

theorem delivers_expansion (c : Cover) (hsize : c.diagram.size ≤ 4294967296) :
    Pool.Delivers c.order 0 (.start c.order.numVars c.sharing) c.diagram.root c.expansion.2 := by
  have h := c.ordered_tree.build (Nat.zero_le _) (Pool.sound_start c.order c.sharing)
    (c.size_build_tree ▸ hsize)
  rwa [← expansion_eq_build] at h

theorem valid_diagram (c : Cover) (hsize : c.diagram.size ≤ 4294967296) : c.diagram.Valid := by
  have h := c.delivers_expansion hsize
  exact h.sound.valid.withRoot h.stands.lt_size

theorem valueAt_diagram (c : Cover) (hsize : c.diagram.size ≤ 4294967296) :
    c.diagram.valueAt σ c.diagram.root = true ↔ c.Holds σ := by
  have h := c.delivers_expansion hsize
  have hval := c.ordered_tree.valueAt_build (σ := σ) (Nat.zero_le _)
    (Pool.sound_start c.order c.sharing) (c.size_build_tree ▸ hsize)
  rw [← expansion_eq_build] at hval
  have hroot : c.diagram.valueAt σ c.diagram.root =
      (c.expansion.2.diagram c.order .zero).valueAt σ c.diagram.root :=
    h.sound.valid.valueAt_extend (.refl _) h.stands.lt_size
  rw [← eval_tree, hroot, ← hval]
  rfl

theorem eval_diagram (hsize : c.diagram.size ≤ 4294967296)
    (hv : v.bits.size = c.order.numVars.toNat) :
    ∃ b, c.diagram.eval v = .ok b ∧ (b = true ↔ c.Covers v) := by
  have hd := c.valid_diagram hsize
  refine ⟨_, hd.evalFrom_eq hv hd.root_lt, ?_⟩
  rw [c.valueAt_diagram hsize, covers_iff_holds hv]

/-- A compiled cover evaluates to `true` under exactly the valuations that pass the
test for completion for some of its cubes; no test and no evaluation fails. -/
theorem eval_compile (c : Cover) :
    ∃ d, c.compile = .ok d ∧ (d.size ≤ 4294967296 →
      ∀ v : Valuation, v.bits.size = c.order.numVars.toNat →
        (∀ cube ∈ c.cubes, ∃ r, v.completes cube = .ok r) ∧
        ∃ b, d.eval v = .ok b ∧
          (b = true ↔ ∃ cube ∈ c.cubes, v.completes cube = .ok true)) := by
  refine ⟨c.diagram, c.compile_eq, ?_⟩
  intro hsize v hv
  refine ⟨fun cube hcube => ⟨_, Valuation.completes_eq_ok hv (c.within cube hcube)⟩, ?_⟩
  obtain ⟨b, heval, hb⟩ := eval_diagram hsize hv
  exact ⟨b, heval, hb.trans (covers_iff hv)⟩

/-- Two cubes over two variables: `a` without `b`, and `b`. -/
def sample (sharing : Bool) : Cover where
  order := .two "a" "b" (by decide)
  cubes := #[.ofValues [(⟨0⟩, true), (⟨1⟩, false)], .ofValues [(⟨1⟩, true)]]
  sharing := sharing
  within := by decide

theorem eval_compile_sample :
    ∃ d, (sample false).compile = .ok d ∧ d.eval ⟨#[true, false]⟩ = .ok true ∧
      d.eval ⟨#[false, false]⟩ = .ok false := by
  obtain ⟨d, hd, h⟩ := eval_compile (sample false)
  have hsize : d.size ≤ 4294967296 := Nat.le_trans (size_compile_le hd) (by decide)
  obtain ⟨-, b, hb, hiff⟩ := h hsize ⟨#[true, false]⟩ rfl
  obtain ⟨-, b', hb', hiff'⟩ := h hsize ⟨#[false, false]⟩ rfl
  have htrue : b = true := by
    rw [hiff]
    decide
  have hfalse : b' = false := by
    rw [← Bool.not_eq_true, hiff']
    decide
  exact ⟨d, hd, htrue ▸ hb, hfalse ▸ hb'⟩

end Cover

end DecisionDiagram
