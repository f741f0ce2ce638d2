import DecisionDiagram.Proofs.Tree.Canonical

/-!
# Essential trees

Without sharing, a decision leaves no node only if its two sides come to the same id, which
they do only if they are the same function.  A tree is essential if this happens at none of
its decisions.  Then the table grows by a node for each of them, up to the one for which
there is no id any more.
-/

namespace DecisionDiagram

namespace Tree

variable {o : VarOrder} {k : Nat} {t high low : Tree} {p : Pool} {x : Variable}

/-- At each decision the sides are different functions. -/
def Essential : Tree → Prop
  | leaf _ => True
  | branch _ high low => (∃ σ, high.eval σ ≠ low.eval σ) ∧ high.Essential ∧ low.Essential

/-- Without sharing, a decision between different functions makes a node. -/
theorem build_branch_eq_push (hhigh : high.Ordered o.numVars.toNat (x.toIndex + 1))
    (hlow : low.Ordered o.numVars.toNat (x.toIndex + 1)) (hx : x.toIndex < o.numVars.toNat)
    (hne : ∃ σ, high.eval σ ≠ low.eval σ) (hp : p.Sound o) (hids : p.ids = none)
    (hsHigh : (high.build p).2.nodes.size ≤ 4294967296)
    (hsLow : (low.build (high.build p).2).2.nodes.size ≤ 4294967296) :
    (branch x high low).build p = (low.build (high.build p).2).2.push
      ⟨x, (low.build (high.build p).2).1, (high.build p).1⟩ := by
  have hdHigh := hhigh.build hx hp hsHigh
  have hdLow := hlow.build hx hdHigh.sound hsLow
  have hsides : (low.build (high.build p).2).1 ≠ (high.build p).1 := by
    intro heq
    obtain ⟨σ, hσ⟩ := hne
    have hkept : ((low.build (high.build p).2).2.diagram o .zero).valueAt σ (high.build p).1 =
        ((high.build p).2.diagram o .zero).valueAt σ (high.build p).1 :=
      hdHigh.sound.valid.valueAt_extend hdLow.keeps hdHigh.stands.lt_size
    refine hσ ?_
    rw [← hhigh.valueAt_build hx hp hsHigh, ← hlow.valueAt_build hx hdHigh.sound hsLow, heq, hkept]
  have hnone := low.ids_build_eq_none (high.ids_build_eq_none hids)
  rw [build_branch, Pool.intern_of_find?_eq_none hsides (Pool.find?_eq_none_of_ids hnone)]

/-- Without sharing, an essential tree has a node for each decision, as long as all of them
but the last have ids. -/
theorem Ordered.size_build_eq (ht : t.Ordered o.numVars.toNat k) (hess : t.Essential)
    (hp : p.Sound o) (hids : p.ids = none) (hsize : p.nodes.size + t.decisions ≤ 4294967297) :
    (t.build p).2.nodes.size = p.nodes.size + t.decisions := by
  induction ht generalizing p with
  | leaf k value => rfl
  | @branch k x high low hkx hx hth htl ihHigh ihLow =>
    obtain ⟨hne, hessHigh, hessLow⟩ := hess
    rw [decisions] at hsize ⊢
    have hsHigh := ihHigh hessHigh hp hids (by omega)
    have hhigh := hth.build hx hp (by omega)
    have hsLow := ihLow hessLow hhigh.sound (high.ids_build_eq_none hids) (by omega)
    rw [build_branch_eq_push hth htl hx hne hp hids (by omega) (by omega), Pool.nodes_push,
      Array.size_push, hsLow, hsHigh]
    omega

/-- The root of an essential tree is the last of its nodes, which need not have an id of its
own. -/
theorem Ordered.build_fst_eq (ht : t.Ordered o.numVars.toNat k) (hess : t.Essential)
    (hpos : 0 < t.decisions) (hp : p.Sound o) (hids : p.ids = none)
    (hsize : p.nodes.size + t.decisions ≤ 4294967297) :
    (t.build p).1 = .ofIndex (p.nodes.size + t.decisions - 1) := by
  cases ht with
  | leaf k value => cases hpos
  | @branch k x high low hkx hx hhigh hlow =>
    obtain ⟨hne, hessHigh, hessLow⟩ := hess
    rw [decisions] at hsize ⊢
    have hsHigh := hhigh.size_build_eq hessHigh hp hids (by omega)
    have hsound := (hhigh.build hx hp (by omega)).sound
    have hsLow := hlow.size_build_eq hessLow hsound (high.ids_build_eq_none hids) (by omega)
    rw [build_branch_eq_push hhigh hlow hx hne hp hids (by omega) (by omega), Pool.fst_push, hsLow,
      hsHigh]
    congr 1
    omega

end Tree

end DecisionDiagram
