import DecisionDiagram.Cover.Pool
import DecisionDiagram.Proofs.Diagram.Value
import Mathlib.Algebra.Group.Nat.Defs

/-!
# Decision trees

A decision tree says what an expansion decides, apart from the pool in which nodes
are made.  `Tree.build` makes the nodes of a tree in a pool, high side first; every
construction is a tree that is built.  A tree is `Ordered` if its variables come in
order along each branch.
-/

namespace DecisionDiagram

/-- A decision tree. -/
inductive Tree
  /-- A constant. -/
  | leaf (value : Bool)
  /-- A decision between the trees for `true` and for `false`. -/
  | branch (var : Variable) (high low : Tree)
  deriving DecidableEq, Repr

namespace Tree

variable {n k j : Nat} {σ τ : Point} {t high low : Tree} {x : Variable}

/-- The value of the tree at a point. -/
def eval (σ : Point) : Tree → Bool
  | leaf value => value
  | branch x high low => if σ x then high.eval σ else low.eval σ

/-- The number of decisions. -/
def decisions : Tree → Nat
  | leaf _ => 0
  | branch _ high low => high.decisions + low.decisions + 1

/-- The variables are below `n`, start from `k`, and grow along each branch. -/
inductive Ordered (n : Nat) : (k : Nat) → Tree → Prop
  /-- A constant has no variables. -/
  | leaf (k : Nat) (value : Bool) : Ordered n k (leaf value)
  /-- Both sides go on after the variable. -/
  | branch {k : Nat} {x : Variable} {high low : Tree} : k ≤ x.toIndex → x.toIndex < n →
    Ordered n (x.toIndex + 1) high → Ordered n (x.toIndex + 1) low → Ordered n k (branch x high low)

theorem Ordered.mono (ht : t.Ordered n k) (h : j ≤ k) : t.Ordered n j := by
  cases ht with
  | leaf => exact .leaf j _
  | branch hk hn hhigh hlow => exact .branch (Nat.le_trans h hk) hn hhigh hlow

/-- An ordered tree only asks for variables in its range. -/
theorem Ordered.eval_congr (ht : t.Ordered n k)
    (h : ∀ x : Variable, k ≤ x.toIndex → x.toIndex < n → σ x = τ x) : t.eval σ = t.eval τ := by
  induction ht with
  | leaf => rfl
  | @branch k x _ _ hk hn _ _ ihHigh ihLow =>
    have hlater : ∀ y : Variable, x.toIndex + 1 ≤ y.toIndex → y.toIndex < n → σ y = τ y :=
      fun y hy => h y (by omega)
    rw [eval, eval, h _ hk hn, ihHigh hlater, ihLow hlater]

/-- There are not more decisions than inner nodes in a full binary tree. -/
theorem Ordered.decisions_lt (ht : t.Ordered n k) : t.decisions < 2 ^ (n - k) := by
  induction ht with
  | leaf => exact Nat.two_pow_pos _
  | @branch k x high low hk hn _ _ ihHigh ihLow =>
    have hdouble : 2 ^ (n - x.toIndex) = 2 ^ (n - (x.toIndex + 1)) * 2 := by
      rw [← Nat.pow_succ]
      congr 1
      omega
    have hmono : 2 ^ (n - x.toIndex) ≤ 2 ^ (n - k) := Nat.pow_le_pow_right (by decide) (by omega)
    rw [decisions]
    omega

/-- Makes the nodes of a tree in a pool, high side first, and delivers the id of its
root. -/
def build : Tree → Pool → NodeId × Pool
  | leaf value, p => (.ofBool value, p)
  | branch x high low, p =>
    let (highId, p) := high.build p
    let (lowId, p) := low.build p
    p.intern x lowId highId

@[simp] theorem build_leaf (value : Bool) (p : Pool) : (leaf value).build p = (.ofBool value, p) :=
  rfl

theorem build_branch (x : Variable) (high low : Tree) (p : Pool) :
    (branch x high low).build p =
      (low.build (high.build p).2).2.intern x (low.build (high.build p).2).1 (high.build p).1 :=
  rfl

end Tree

end DecisionDiagram
