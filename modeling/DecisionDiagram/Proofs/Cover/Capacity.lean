import DecisionDiagram.Proofs.Cover.Constraints
import DecisionDiagram.Proofs.Cover.Stages
import DecisionDiagram.Proofs.Cube.Completions
import DecisionDiagram.Proofs.Diagram.Constants
import DecisionDiagram.Proofs.Order.Names
import DecisionDiagram.Proofs.Tree.Parity

/-!
# How far ids suffice

A table over `n` variables has at most `2 ^ n + 1` entries, so that up to 31 variables every
position has an id of its own while the table is made.  Without sharing the bound is reached
for each `n`, by the function that is true if an odd number of variables are.  With 32
variables the last node of its table, which is the root, has the position `2 ^ 32`, and its id
is that of the terminal `0`.
-/

namespace DecisionDiagram

open Function (update)

/-! ### Odd minterms -/

namespace Cube

variable {n : UInt16} {c : Cube} {σ : Point} {x : Variable}

/-- The cube that fixes the first variables to the values of a point. -/
def ofPoint (n : UInt16) (σ : Point) : Cube where
  cells := (Array.range n.toNat).map fun i => some (σ (.atIndex i))
  size_le := by
    rw [Array.size_map, Array.size_range]
    exact Nat.le_of_lt n.toNat_lt

theorem get?_ofPoint :
    (ofPoint n σ).get? x = if x.toIndex < n.toNat then some (σ x) else none := by
  by_cases hx : x.toIndex < n.toNat <;> simp [get?, ofPoint, hx]

theorem within_ofPoint : (ofPoint n σ).Within n := by
  intro x hx
  rw [fixes, get?_ofPoint] at hx
  split at hx
  · next hlt => exact UInt16.lt_iff_toNat_lt.2 hlt
  · cases hx

theorem agreesFrom_ofPoint : (ofPoint n σ).AgreesFrom 0 σ := by
  intro x b _ hb
  rw [get?_ofPoint] at hb
  split at hb
  · exact Option.some.inj hb
  · cases hb

/-- The cube fixes each of the first `n` variables, an odd number of them to `true`. -/
structure OddMinterm (n : UInt16) (c : Cube) : Prop where
  /-- All variables are fixed. -/
  fixes : ∀ x : Variable, x.toIndex < n.toNat → c.fixes x
  /-- An odd number of them are true. -/
  odd : countFrom 0 n.toNat (fun x => c.get? x == some true) % 2 = 1

/-- A minterm has the parity of the points that agree with it. -/
theorem parity_of_agreesFrom (hfix : ∀ x : Variable, x.toIndex < n.toNat → c.fixes x)
    (hσ : c.AgreesFrom 0 σ) :
    parity 0 n.toNat σ = (countFrom 0 n.toNat (fun x => c.get? x == some true) % 2 == 1) := by
  have hcount : countFrom 0 n.toNat σ = countFrom 0 n.toNat fun x => c.get? x == some true := by
    refine countFrom_congr (Nat.le_of_lt n.toNat_lt) fun x _ hx => ?_
    obtain ⟨b, hb⟩ := Option.isSome_iff_exists.1 (hfix x hx)
    rw [hσ x b (Nat.zero_le _) hb, hb]
    cases b <;> rfl
  rw [parity, hcount]

theorem OddMinterm.parity (h : c.OddMinterm n) (hσ : c.AgreesFrom 0 σ) :
    parity 0 n.toNat σ = true := by
  rw [parity_of_agreesFrom h.fixes hσ, h.odd]
  rfl

theorem oddMinterm_ofPoint (h : DecisionDiagram.parity 0 n.toNat σ = true) :
    (ofPoint n σ).OddMinterm n := by
  have hfix : ∀ x : Variable, x.toIndex < n.toNat → (ofPoint n σ).fixes x := by
    intro x hx
    rw [Cube.fixes, get?_ofPoint, if_pos hx]
    rfl
  rw [parity_of_agreesFrom hfix agreesFrom_ofPoint, beq_iff_eq] at h
  exact ⟨hfix, h⟩

/-- A minterm is the cube of any point that agrees with it. -/
theorem same_ofPoint (hc : c.Within n) (hfix : ∀ x : Variable, x.toIndex < n.toNat → c.fixes x)
    (hσ : c.AgreesFrom 0 σ) : c.Same (ofPoint n σ) := by
  intro x
  rw [get?_ofPoint]
  split
  · next hx =>
    obtain ⟨b, hb⟩ := Option.isSome_iff_exists.1 (hfix x hx)
    rw [hσ x b (Nat.zero_le _) hb, hb]
  · next hx =>
    cases hb : c.get? x with
    | none => rfl
    | some b => exact absurd (hc.toIndex_lt hb) hx

end Cube

namespace Cover

variable {c : Cover} {o : VarOrder} {σ : Point} {s : Stage}

/-- The cubes are the minterms with an odd number of true variables, in any order and any
number of times. -/
structure ListsOdd (c : Cover) : Prop where
  /-- Each cube is such a minterm. -/
  odd : ∀ cube ∈ c.cubes, cube.OddMinterm c.order.numVars
  /-- Each such minterm is listed. -/
  complete : ∀ cube : Cube, cube.Within c.order.numVars → cube.OddMinterm c.order.numVars →
    ∃ cube' ∈ c.cubes, cube.Same cube'

/-- The minterms over an order with an odd number of true variables, to be compiled without
sharing. -/
def oddMinterms (o : VarOrder) : Cover where
  order := o
  cubes := (((Cube.completions ∅ o.numVars.toNat).filter fun v =>
    parity 0 o.numVars.toNat v.point).map fun v => .ofPoint o.numVars v.point).toArray
  sharing := false
  within := by
    intro cube hcube
    obtain ⟨v, -, rfl⟩ := List.mem_map.1 (List.mem_toArray.1 hcube)
    exact Cube.within_ofPoint

theorem listsOdd_oddMinterms (o : VarOrder) : (oddMinterms o).ListsOdd where
  odd := by
    intro cube hcube
    obtain ⟨v, hv, rfl⟩ := List.mem_map.1 (List.mem_toArray.1 hcube)
    exact Cube.oddMinterm_ofPoint (List.mem_filter.1 hv).2
  complete := by
    intro cube hwithin hodd
    let v : Valuation := .ofPoint o.numVars.toNat fun x => cube.get? x == some true
    have hagrees : cube.AgreesFrom 0 v.point := by
      intro x b _ hb
      have hbit : v.point x = (cube.get? x == some true) :=
        Valuation.point_ofPoint (hwithin.toIndex_lt hb)
      rw [hbit, hb]
      cases b <;> rfl
    have hv : v ∈ Cube.completions ∅ o.numVars.toNat := by
      refine (Cube.mem_completions_iff fun x hx => ?_).2 ⟨Valuation.size_ofPoint, fun x b hb => ?_⟩
      · exact absurd hx (by simp [Cube.fixes, EmptyCollection.emptyCollection])
      · exact absurd hb (by simp [EmptyCollection.emptyCollection])
    refine ⟨.ofPoint o.numVars v.point, ?_, Cube.same_ofPoint hwithin hodd.fixes hagrees⟩
    refine List.mem_toArray.2 (List.mem_map_of_mem (List.mem_filter.2 ⟨hv, ?_⟩))
    exact hodd.parity hagrees

/-- A cover that lists the odd minterms holds where an odd number of variables are true. -/
theorem ListsOdd.holds_iff (h : c.ListsOdd) :
    c.Holds σ ↔ parity 0 c.order.numVars.toNat σ = true := by
  constructor
  · rintro ⟨cube, hcube, hσ⟩
    exact (h.odd cube hcube).parity hσ
  · intro hodd
    obtain ⟨cube, hcube, hsame⟩ :=
      h.complete _ Cube.within_ofPoint (Cube.oddMinterm_ofPoint hodd)
    refine ⟨cube, hcube, fun x b hx hb => ?_⟩
    exact Cube.agreesFrom_ofPoint x b hx ((hsame x).trans hb)

theorem ListsOdd.eval_tree (h : c.ListsOdd) (σ : Point) :
    c.tree.eval σ = (false ^^ parity 0 c.order.numVars.toNat σ) := by
  rw [Bool.false_xor, Bool.eq_iff_iff, Cover.eval_tree, h.holds_iff]

/-- Without sharing, the table for the odd minterms is full, and its root is its last node. -/
theorem ListsOdd.diagram_eq (h : c.ListsOdd) (hs : c.sharing = false)
    (hpos : 0 < c.order.numVars.toNat) (hle : c.order.numVars.toNat ≤ 32) :
    c.diagram.size = 2 ^ c.order.numVars.toNat + 1 ∧
      c.diagram.root = .ofIndex (2 ^ c.order.numVars.toNat) := by
  have hids := Pool.ids_start_eq_none hs c.order.numVars
  have hbound : 2 ^ c.order.numVars.toNat ≤ 4294967296 :=
    Nat.pow_le_pow_right (n := 2) (by decide) hle
  obtain ⟨hsize, hroot⟩ := c.ordered_tree.build_of_parity hpos h.eval_tree
    (Pool.sound_start c.order c.sharing) hids (by rw [Pool.size_start, Nat.sub_zero]; omega)
  rw [size_build_tree, Pool.size_start, Nat.sub_zero] at hsize
  rw [size_build_tree, ← expansion_eq_build] at hroot
  have hfull : c.diagram.size = 2 ^ c.order.numVars.toNat + 1 := by omega
  rw [hfull, Nat.add_sub_cancel] at hroot
  exact ⟨hfull, hroot⟩

theorem ListsOdd.size_diagram (h : c.ListsOdd) (hs : c.sharing = false)
    (hle : c.order.numVars.toNat ≤ 32) : c.diagram.size = 2 ^ c.order.numVars.toNat + 1 := by
  rcases Nat.eq_zero_or_pos c.order.numVars.toNat with hzero | hpos
  · have hsize := c.size_diagram_le
    rw [hzero] at hsize ⊢
    have htwo := (c.valid_diagram (Nat.le_trans hsize (by decide))).size_pos
    omega
  · exact (h.diagram_eq hs hpos hle).1

/-- With at least one variable the function is not constant. -/
theorem ListsOdd.exists_covers (h : c.ListsOdd) (hpos : 0 < c.order.numVars.toNat) (b : Bool) :
    ∃ v : Valuation, v.bits.size = c.order.numVars.toNat ∧ (c.Covers v ↔ b = true) := by
  have hn := Nat.le_of_lt c.order.numVars.toNat_lt
  have hfirst : (Variable.atIndex 0).toIndex = 0 := Variable.toIndex_atIndex (by decide)
  refine ⟨.ofPoint c.order.numVars.toNat (update (fun _ => false) (.atIndex 0) b),
    Valuation.size_ofPoint, ?_⟩
  rw [covers_iff_holds Valuation.size_ofPoint, h.holds_iff,
    parity_congr hn fun x _ hx => Valuation.point_ofPoint hx, parity_update hfirst hpos hn,
    parity_false, Bool.xor_false]

/-- With up to 31 variables there is an id for the next position at every stage. -/
theorem toIndex_ofIndex_of_steps (hn : c.order.numVars.toNat ≤ 31)
    (hs : Steps c.order.numVars c.firstStage s) :
    (NodeId.ofIndex s.pool.nodes.size).toIndex = s.pool.nodes.size := by
  have hgrows : s.pool.nodes.size ≤ c.diagram.size := (steps_lastStage hs).extends.size_le
  have hsize := c.size_diagram_le
  have hbound : 2 ^ c.order.numVars.toNat ≤ 2147483648 :=
    Nat.pow_le_pow_right (n := 2) (by decide) hn
  exact NodeId.toIndex_ofIndex (by omega)

/-- A compiled table has at most `2 ^ n + 1` entries, with and without sharing.  So with up to
31 variables every position that is turned into an id on the way is kept.  The bound is sharp
for each order of up to 32 variables: it is reached without sharing by the list of the minterms
with an odd number of true variables.  With 32 variables the id of the last node, which is the
root, is therefore that of the terminal `0`, and the diagram passes for a constant although the
function is none. -/
theorem compile_capacity :
    (∀ c : Cover, ∃ d, c.compile = .ok d ∧ d.size ≤ 2 ^ c.order.numVars.toNat + 1 ∧
      (c.order.numVars.toNat ≤ 31 → ∀ s, Steps c.order.numVars c.firstStage s →
        (NodeId.ofIndex s.pool.nodes.size).toIndex = s.pool.nodes.size)) ∧
    (∀ o : VarOrder, ∃ c : Cover, c.order = o ∧ c.sharing = false ∧ c.ListsOdd) ∧
    ∀ c : Cover, c.sharing = false → c.ListsOdd → c.order.numVars.toNat ≤ 32 →
      ∃ d, c.compile = .ok d ∧ d.size = 2 ^ c.order.numVars.toNat + 1 ∧
        (c.order.numVars.toNat = 32 →
          d.root = .ofIndex (d.size - 1) ∧ d.root.toIndex ≠ d.size - 1 ∧ d.isFalse = true ∧
          (∀ v : Valuation, v.bits.size = 32 → d.eval v = .ok false) ∧
          (∃ v : Valuation, v.bits.size = 32 ∧ c.Covers v) ∧
          ∃ v : Valuation, v.bits.size = 32 ∧ ¬c.Covers v) := by
  refine ⟨fun c => ?_, fun o => ⟨oddMinterms o, rfl, rfl, listsOdd_oddMinterms o⟩, ?_⟩
  · exact ⟨c.diagram, c.compile_eq, c.size_diagram_le, fun hn s => toIndex_ofIndex_of_steps hn⟩
  · intro c hs hodd hle
    refine ⟨c.diagram, c.compile_eq, hodd.size_diagram hs hle, ?_⟩
    intro h32
    have hpos : 0 < c.order.numVars.toNat := by omega
    obtain ⟨hsize, hroot⟩ := hodd.diagram_eq hs hpos hle
    rw [h32] at hsize hroot
    have hzero : c.diagram.root = .zero := hroot.trans (by decide)
    have hfalse : c.diagram.toBool? = some false := by
      rw [Diagram.toBool?, hzero]
      rfl
    have heval := c.grounded_diagram.toBool?_eq_some_iff.1 hfalse
    have hnum : c.diagram.numVars.toNat = 32 := h32
    rw [hnum] at heval
    obtain ⟨v, hv, hcovers⟩ := hodd.exists_covers hpos true
    obtain ⟨v', hv', hnot⟩ := hodd.exists_covers hpos false
    refine ⟨?_, ?_, Diagram.isFalse_iff.2 hfalse, heval, ⟨v, hv.trans h32, hcovers.2 rfl⟩,
      ⟨v', hv'.trans h32, fun h => Bool.false_ne_true (hnot.1 h)⟩⟩
    · rw [hroot, hsize, Nat.add_sub_cancel]
    · rw [hzero, hsize]
      decide

theorem compile_capacity_unary :
    (NodeId.ofIndex (sample false).firstStage.pool.nodes.size).toIndex = 2 ∧
    ∃ (o : VarOrder) (c : Cover) (d : Diagram), VarOrder.ofNames (VarOrder.unaryNames 32) = .ok o ∧
      c.order = o ∧ c.sharing = false ∧ c.compile = .ok d ∧ d.size = 4294967297 ∧
      d.isFalse = true ∧ ∃ v : Valuation, v.bits.size = 32 ∧ c.Covers v := by
  obtain ⟨hbound, hexists, hsharp⟩ := compile_capacity
  constructor
  · obtain ⟨d, -, -, hkept⟩ := hbound (sample false)
    exact hkept (by decide) _ .refl
  · obtain ⟨o, ho, h32⟩ := VarOrder.exists_ofNames_unaryNames (n := 32) (by decide)
    obtain ⟨c, rfl, hs, hodd⟩ := hexists o
    obtain ⟨d, hd, hsize, hwrong⟩ := hsharp c hs hodd (by omega)
    obtain ⟨-, -, hfalse, -, hcovered, -⟩ := hwrong h32
    rw [h32] at hsize
    exact ⟨c.order, c, d, ho, rfl, hs, hd, hsize, hfalse, hcovered⟩

end Cover

end DecisionDiagram
