import DecisionDiagram.Proofs.Cover.Function
import DecisionDiagram.Proofs.Diagram.Points
import DecisionDiagram.Proofs.Tree.Canonical
import Mathlib.Data.List.Basic

/-!
# Shared diagrams are canonical

Two covers over one order, compiled with sharing, give the same diagram exactly if
they cover the same valuations: the same table entry by entry and the same root.
The trees of the two covers need not have anything in common but their function.
-/

namespace DecisionDiagram

variable {σ : Point}

namespace Cover

variable {c c₁ c₂ : Cover}

/-- A cover asks for variables of its order only. -/
theorem holds_congr {τ : Point}
    (h : ∀ x : Variable, x.toIndex < c.order.numVars.toNat → σ x = τ x) : c.Holds σ ↔ c.Holds τ := by
  rw [← eval_tree, ← eval_tree, c.ordered_tree.eval_congr fun x _ => h x]

/-- Every point is a valuation of the order as far as a cover can see. -/
theorem covers_ofPoint : c.Covers (.ofPoint c.order.numVars.toNat σ) ↔ c.Holds σ := by
  rw [covers_iff_holds Valuation.size_ofPoint]
  exact holds_congr fun x hx => Valuation.point_ofPoint hx

/-- Covers of the same valuations have trees with the same function. -/
theorem eval_tree_eq (ho : c₁.order = c₂.order)
    (h : ∀ v : Valuation, v.bits.size = c₁.order.numVars.toNat → (c₁.Covers v ↔ c₂.Covers v)) :
    ∀ σ, c₁.tree.eval σ = c₂.tree.eval σ := by
  intro σ
  have hv := h (.ofPoint c₁.order.numVars.toNat σ) Valuation.size_ofPoint
  rw [covers_ofPoint, ho, covers_ofPoint] at hv
  rw [Bool.eq_iff_iff, eval_tree, eval_tree, hv]

/-- With sharing, the compiled diagram depends only on the function of the cover. -/
theorem diagram_eq_of_covers (ho : c₁.order = c₂.order) (hs₁ : c₁.sharing = true)
    (hs₂ : c₂.sharing = true) (hsize₁ : c₁.diagram.size ≤ 4294967296)
    (h : ∀ v : Valuation, v.bits.size = c₁.order.numVars.toNat → (c₁.Covers v ↔ c₂.Covers v)) :
    c₁.diagram = c₂.diagram := by
  have hstart : Pool.Alike (.start c₁.order.numVars c₁.sharing)
      (.start c₂.order.numVars c₂.sharing) := by
    rw [ho, hs₁, hs₂]
    exact .refl _
  have hids : (Pool.start c₁.order.numVars c₁.sharing).ids.isSome := by
    rw [hs₁]
    rfl
  have hresult := c₁.ordered_tree.build_congr (ho ▸ c₂.ordered_tree) (eval_tree_eq ho h)
    (Pool.sound_start _ _) hids hstart (c₁.size_build_tree ▸ hsize₁)
  rw [← expansion_eq_build, ← expansion_eq_build] at hresult
  rw [diagram, diagram, ho, hresult.1, hresult.2.nodes_eq]

/-- Compiled with sharing, two covers over one order give equal diagrams if and only
if they cover the same valuations. -/
theorem compile_eq_iff_covers (c₁ c₂ : Cover) (ho : c₁.order = c₂.order)
    (hs₁ : c₁.sharing = true) (hs₂ : c₂.sharing = true) :
    ∃ d₁ d₂, c₁.compile = .ok d₁ ∧ c₂.compile = .ok d₂ ∧
      (d₁.size ≤ 4294967296 → d₂.size ≤ 4294967296 →
        (d₁ = d₂ ↔ ∀ v : Valuation, v.bits.size = c₁.order.numVars.toNat →
          (c₁.Covers v ↔ c₂.Covers v))) := by
  refine ⟨c₁.diagram, c₂.diagram, c₁.compile_eq, c₂.compile_eq, ?_⟩
  intro hsize₁ hsize₂
  refine ⟨fun heq v hv => ?_, diagram_eq_of_covers ho hs₁ hs₂ hsize₁⟩
  obtain ⟨b₁, heval₁, hb₁⟩ := eval_diagram hsize₁ hv
  obtain ⟨b₂, heval₂, hb₂⟩ := eval_diagram hsize₂ (ho ▸ hv)
  rw [heq, heval₂] at heval₁
  cases heval₁
  rw [← hb₁, ← hb₂]

/-- The sample with its variables exchanged, which covers the same valuations. -/
def mirror : Cover where
  order := (sample true).order
  cubes := #[.ofValues [(⟨0⟩, false), (⟨1⟩, true)], .ofValues [(⟨0⟩, true)]]
  sharing := true
  within := by decide

theorem compile_mirror :
    ∃ d, (sample true).compile = .ok d ∧ mirror.compile = .ok d := by
  obtain ⟨d₁, d₂, hd₁, hd₂, h⟩ := compile_eq_iff_covers (sample true) mirror rfl rfl rfl
  have hsize₁ : d₁.size ≤ 4294967296 := Nat.le_trans (size_compile_le hd₁) (by decide)
  have hsize₂ : d₂.size ≤ 4294967296 := Nat.le_trans (size_compile_le hd₂) (by decide)
  have heq : d₁ = d₂ := by
    refine (h hsize₁ hsize₂).2 fun v hv => ?_
    rw [covers_iff hv, covers_iff (c := mirror) hv]
    obtain ⟨⟨bits⟩⟩ := v
    obtain ⟨a, b, rfl⟩ := List.length_eq_two.1 hv
    cases a <;> cases b <;> decide
  exact ⟨d₁, hd₁, heq ▸ hd₂⟩

end Cover

end DecisionDiagram
