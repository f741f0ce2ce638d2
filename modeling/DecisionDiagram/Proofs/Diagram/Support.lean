import DecisionDiagram.Diagram.Support
import DecisionDiagram.Proofs.Cover.Minimal
import DecisionDiagram.Proofs.Diagram.Partial

/-!
# The support and the variables that matter

A diagram depends on a variable if under some valuation its value changes when the value of
the variable is reversed.  The support is read off the table and may be larger: a node can
make no difference, and need not even be below the root.  It is never too small, so that
values for the names of the support are all that evaluation asks for.  In a compact diagram
the support is exact.  If the root ignores a variable then so do all nodes below it, and
without repeated nodes a node does not ignore its own variable.
-/

namespace DecisionDiagram

open Assignment (valueOf)
open Function (update update_comm update_of_ne)

/-! ### One value reversed -/

namespace Valuation

variable {v w : Valuation} {x : Variable}

theorem flip_eq_ok_iff :
    v.flip x = .ok w ↔ x.toIndex < v.bits.size ∧ w = ⟨v.bits.modify x.toIndex not⟩ := by
  rw [flip]
  split <;> simp_all [eq_comm]

theorem exists_flip (hx : x.toIndex < v.bits.size) : ∃ w, v.flip x = .ok w :=
  ⟨_, flip_eq_ok_iff.2 ⟨hx, rfl⟩⟩

theorem size_of_flip (h : v.flip x = .ok w) : w.bits.size = v.bits.size := by
  rw [(flip_eq_ok_iff.1 h).2, Array.size_modify]

theorem point_of_flip (h : v.flip x = .ok w) : w.point = update v.point x (!v.point x) := by
  obtain ⟨hx, rfl⟩ := flip_eq_ok_iff.1 h
  funext y
  simp only [point, Function.update_apply, Array.getElem?_modify, Variable.toIndex_inj]
  by_cases hy : x = y
  · subst hy
    simp [hx]
  · rw [if_neg hy, if_neg (Ne.symm hy)]

end Valuation

theorem VarOrder.mem_vars {o : VarOrder} {x : Variable} : x ∈ o.vars ↔ x.index < o.numVars := by
  simp only [vars, List.mem_map, List.mem_range]
  constructor
  · rintro ⟨i, hi, rfl⟩
    have hidx : (Variable.atIndex i).toIndex = i :=
      Variable.toIndex_atIndex (Nat.lt_trans hi o.numVars.toNat_lt)
    exact UInt16.lt_iff_toNat_lt.2 (hidx.trans_lt hi)
  · intro hx
    exact ⟨x.toIndex, UInt16.lt_iff_toNat_lt.1 hx, Variable.atIndex_toIndex x⟩

namespace Diagram

variable {d : Diagram} {id id' : NodeId} {node : Node} {x : Variable} {σ : Point} {b : Bool}

/-- Under some valuation of the variables of the order the value of the diagram changes when
the value of the variable is reversed. -/
def DependsOn (d : Diagram) (x : Variable) : Prop :=
  ∃ (v w : Valuation) (b : Bool), v.bits.size = d.numVars.toNat ∧ v.flip x = .ok w ∧
    d.eval v = .ok b ∧ d.eval w = .ok !b

theorem ignores_iff : d.Ignores x id ↔ ∀ σ, d.valueAt (update σ x (!σ x)) id = d.valueAt σ id := by
  constructor
  · intro h σ
    exact h σ _
  · intro h σ b
    by_cases hb : b = σ x
    · simp [hb]
    · rw [Bool.eq_not.2 hb, h]

theorem Grounded.eval_of_flip (hd : d.Grounded) {v w : Valuation}
    (hv : v.bits.size = d.numVars.toNat) (hflip : v.flip x = .ok w) :
    d.eval w = .ok (d.valueAt (update v.point x (!v.point x)) d.root) := by
  have hw : w.bits.size = d.numVars.toNat := (Valuation.size_of_flip hflip).trans hv
  rw [eval, hd.evalFrom_eq hw hd.root_lt, Valuation.point_of_flip hflip]

/-- The variables that a diagram depends on are those of the order that its root does not
ignore. -/
theorem Grounded.dependsOn_iff (hd : d.Grounded) :
    d.DependsOn x ↔ x.index < d.numVars ∧ ¬d.Ignores x d.root := by
  constructor
  · rintro ⟨v, w, b, hv, hflip, hb, hb'⟩
    constructor
    · rw [UInt16.lt_iff_toNat_lt, ← hv]
      exact (Valuation.flip_eq_ok_iff.1 hflip).1
    · intro hignores
      rw [eval, hd.evalFrom_eq hv hd.root_lt] at hb
      rw [hd.eval_of_flip hv hflip, hignores, hb] at hb'
      exact (Bool.eq_not_self b).1 (Except.ok.inj hb')
  · rintro ⟨hx, hignores⟩
    rw [ignores_iff, not_forall] at hignores
    obtain ⟨σ, hne⟩ := hignores
    have hx : x.toIndex < d.numVars.toNat := UInt16.lt_iff_toNat_lt.1 hx
    have hv : (Valuation.ofPoint d.numVars.toNat σ).bits.size = d.numVars.toNat :=
      Valuation.size_ofPoint
    obtain ⟨w, hflip⟩ := Valuation.exists_flip (hx.trans_eq hv.symm)
    refine ⟨_, w, d.valueAt σ d.root, hv, hflip, hd.evalFrom_ofPoint hd.root_lt σ, ?_⟩
    rw [hd.eval_of_flip hv hflip, Valuation.point_ofPoint hx, ← Bool.eq_not.2 hne]
    apply congrArg
    apply hd.valueAt_congr_order hd.root_lt
    intro y hy
    by_cases hyx : y = x
    · simp [hyx]
    · simp [hyx, Valuation.point_ofPoint (UInt16.lt_iff_toNat_lt.1 hy)]

/-! ### Variables outside the support -/

theorem mem_testedVars :
    x ∈ d.testedVars ↔ ∃ (i : Nat) (node : Node), 2 ≤ i ∧ d.nodes[i]? = some node ∧ node.var = x := by
  rw [testedVars, List.mem_map]
  constructor
  · rintro ⟨node, hnode, hx⟩
    obtain ⟨i, hn⟩ := List.mem_iff_getElem?.1 hnode
    rw [List.getElem?_drop, Array.getElem?_toList] at hn
    exact ⟨2 + i, node, Nat.le_add_right 2 i, hn, hx⟩
  · rintro ⟨i, node, h2, hn, hx⟩
    refine ⟨node, List.mem_iff_getElem?.2 ⟨i - 2, ?_⟩, hx⟩
    rw [List.getElem?_drop, Array.getElem?_toList, Nat.add_sub_cancel' h2, hn]

/-- The variables of the nodes that links can lead to are in the support. -/
theorem Grounded.mem_support (hd : d.Grounded) (h2 : 2 ≤ id.toIndex)
    (hn : d.nodes[id.toIndex]? = some node) : node.var ∈ d.support :=
  Diagram.mem_support.2 ⟨VarOrder.mem_vars.2 (hd.fits h2 hn).var_lt,
    mem_testedVars.2 ⟨_, node, h2, hn, rfl⟩⟩

theorem Valid.exists_node (hd : d.Valid) (hx : x ∈ d.support) :
    ∃ (id : NodeId) (node : Node), 2 ≤ id.toIndex ∧ d.nodes[id.toIndex]? = some node ∧
      node.var = x := by
  obtain ⟨i, node, h2, hn, hvar⟩ := mem_testedVars.1 (mem_support.1 hx).2
  have hid := hd.toIndex_ofIndex (Array.getElem?_eq_some_iff.1 hn).1
  exact ⟨.ofIndex i, node, hid.symm ▸ h2, hid.symm ▸ hn, hvar⟩

/-- A variable outside the support is ignored by all nodes. -/
theorem Grounded.ignores_of_not_mem (hd : d.Grounded) (hx : x ∉ d.support)
    (hid : id.toIndex < d.size) : d.Ignores x id := by
  induction id, hid using hd.induct with
  | terminal b _ =>
    intro σ c
    simp
  | decision id node _ h2 hn ih =>
    intro σ c
    have hne : node.var ≠ x := by
      rintro rfl
      exact hx (hd.mem_support h2 hn)
    rw [hd.valueAt_node h2 hn, hd.valueAt_node h2 hn, update_of_ne hne]
    exact ih _ (hd.child_lt_size h2 hn _) σ c

/-- The support has all variables that the diagram depends on. -/
theorem Grounded.mem_support_of_dependsOn (hd : d.Grounded) (h : d.DependsOn x) :
    x ∈ d.support := by
  by_contra hx
  exact (hd.dependsOn_iff.1 h).2 (hd.ignores_of_not_mem hx hd.root_lt)

/-- Evaluation succeeds if there are values for the names of the support. -/
theorem Grounded.evalNamed_of_support {α : Type u} [Assignment α] (hd : d.Grounded) {a : α}
    (ha : ∀ x ∈ d.support, ∀ name, d.order.nameOf x = .ok name → (valueOf a name).isSome) :
    ∃ b, d.evalNamed a = .ok b := by
  cases heval : d.evalNamed a with
  | ok b => exact ⟨b, rfl⟩
  | error e =>
    obtain ⟨ids, id, x, name, hcourse, hname, hnone, -⟩ := hd.exists_stuck heval
    obtain ⟨-, h2, node, hn, rfl, -⟩ := hcourse.of_stuck
    have hsome := ha node.var (hd.mem_support h2 hn) name (readAt_eq_ok_iff.2 hname)
    rw [hnone] at hsome
    cases hsome

/-! ### Variables of the support -/

/-- What a node ignores is ignored by the nodes that its links lead to. -/
theorem Valid.ignores_of_links (hd : d.Valid) (h : d.Ignores x id) (hlink : d.Links id id') :
    d.Ignores x id' := by
  obtain ⟨node, b, hn, rfl⟩ := hlink
  intro σ c
  rcases id.ofBool_or_two_le with ⟨leaf, rfl⟩ | h2
  · simp [hd.child_ofBool hn]
  · rw [hd.valueAt_child h2 hn, hd.valueAt_child h2 hn]
    by_cases hx : node.var = x
    · rw [hx, h, h, h]
    · rw [update_comm (Ne.symm hx), h]

theorem Valid.ignores_of_reaches (hd : d.Valid) (h : d.Ignores x id) (hreach : d.Reaches id id') :
    d.Ignores x id' := by
  induction hreach with
  | refl => exact h
  | tail _ hlink ih => exact hd.ignores_of_links ih hlink

/-- In a compact diagram the support is the set of variables that the diagram depends on. -/
theorem Compact.mem_support_iff (hc : d.Compact) (hd : d.Valid) :
    x ∈ d.support ↔ d.DependsOn x := by
  constructor
  · intro hx
    obtain ⟨id, node, h2, hn, rfl⟩ := hd.exists_node hx
    rw [hd.grounded.dependsOn_iff]
    refine ⟨(hd.fits _ _ h2 hn).var_lt, ?_⟩
    intro hroot
    obtain ⟨id', hidx, hreach⟩ := hc.reached _ h2 (Array.getElem?_eq_some_iff.1 hn).1
    obtain rfl := NodeId.toIndex_inj.1 hidx
    exact hd.not_ignores hc.distinct h2 hn (hd.ignores_of_reaches hroot hreach)
  · exact hd.grounded.mem_support_of_dependsOn

/-- With sharing, the support of a compiled diagram is the set of variables that the diagram
depends on.  The support of any diagram that was read or compiled has all of these, and
values for its names are enough for evaluation to succeed. -/
theorem support_exact {α : Type u} [Assignment α] :
    (∀ c : Cover, c.sharing = true →
      ∃ d, c.compile = .ok d ∧ (d.size ≤ 4294967296 → ∀ x, x ∈ d.support ↔ d.DependsOn x)) ∧
    ∀ d : Diagram, d.Obtained →
      (∀ x, d.DependsOn x → x ∈ d.support) ∧
      ∀ a : α,
        (∀ x ∈ d.support, ∀ name, d.order.nameOf x = .ok name → (valueOf a name).isSome) →
        ∃ b, d.evalNamed a = .ok b := by
  constructor
  · intro c hs
    refine ⟨c.diagram, c.compile_eq, ?_⟩
    intro hsize x
    exact (Cover.compact_diagram hs hsize).mem_support_iff (c.valid_diagram hsize)
  · intro d h
    have hd := h.grounded
    constructor
    · intro x
      exact hd.mem_support_of_dependsOn
    · intro a
      exact hd.evalNamed_of_support

/-- The first of two variables, by cubes that fix the second one as well. -/
def cancelling : Cover where
  order := (Cover.sample true).order
  cubes := #[.ofValues [(⟨0⟩, true), (⟨1⟩, false)], .ofValues [(⟨0⟩, true), (⟨1⟩, true)]]
  sharing := true
  within := by decide

theorem eval_cancelling (hsize : cancelling.diagram.size ≤ 4294967296) (x y : Bool) :
    cancelling.diagram.eval ⟨#[x, y]⟩ = .ok x := by
  obtain ⟨b, hb, hcovers⟩ := Cover.eval_diagram (c := cancelling) (v := ⟨#[x, y]⟩) hsize rfl
  rw [Cover.covers_iff rfl] at hcovers
  have hvalue : b = x := by
    rw [Bool.eq_iff_iff, hcovers]
    cases x <;> cases y <;> decide
  rw [hb, hvalue]

theorem support_exact_cancelling :
    ∃ d, cancelling.compile = .ok d ∧ ⟨0⟩ ∈ d.support ∧ ⟨1⟩ ∉ d.support ∧
      ∃ b, d.evalNamed [("a", true)] = .ok b := by
  obtain ⟨hshared, hobtained⟩ := support_exact (α := List (String × Bool))
  obtain ⟨d, hd, hexact⟩ := hshared cancelling rfl
  have hsize : d.size ≤ 4294967296 := Nat.le_trans (Cover.size_compile_le hd) (by decide)
  obtain ⟨hsupport, hnamed⟩ := hobtained d (.compiled hd)
  rw [Cover.compile_eq] at hd
  cases hd
  have heval := eval_cancelling hsize
  have hfirst : cancelling.diagram.DependsOn ⟨0⟩ :=
    ⟨⟨#[true, true]⟩, ⟨#[false, true]⟩, true, rfl, rfl, heval true true, heval false true⟩
  have hsecond : ⟨1⟩ ∉ cancelling.diagram.support := by
    rw [hexact hsize]
    rintro ⟨⟨⟨bits⟩⟩, w, b, hv, hflip, hb, hb'⟩
    obtain ⟨x, y, rfl⟩ := List.length_eq_two.1 hv
    obtain rfl : (⟨#[x, !y]⟩ : Valuation) = w := Except.ok.inj hflip
    rw [heval] at hb hb'
    rw [← Except.ok.inj hb] at hb'
    exact (Bool.eq_not_self x).1 (Except.ok.inj hb')
  refine ⟨_, Cover.compile_eq _, hsupport _ hfirst, hsecond, hnamed _ ?_⟩
  intro x hx name hname
  have hname := readAt_eq_ok_iff.1 hname
  have hlt : x.toIndex < 2 := (Array.getElem?_eq_some_iff.1 hname).1
  rcases Nat.lt_or_ge x.toIndex 1 with h0 | h1
  · rw [Nat.lt_one_iff.1 h0] at hname
    cases hname
    decide
  · have hidx : x.toIndex = 1 := by omega
    obtain rfl : x = ⟨1⟩ := Variable.toIndex_inj.1 hidx
    exact absurd hx hsecond

end Diagram

end DecisionDiagram
