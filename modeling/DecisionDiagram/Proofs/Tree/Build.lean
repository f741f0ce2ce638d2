import DecisionDiagram.Proofs.Pool.Sound
import DecisionDiagram.Proofs.Tree.Basic

/-!
# Building a tree

Building an ordered tree in a sound pool delivers, in a sound pool that extends the
first, an id whose function is that of the tree.  Nothing is assumed but that the
positions of the finished table can be told apart.  The induction is on the tree,
with one request for a node for each of its decisions.
-/

namespace DecisionDiagram

namespace Tree

variable {o : VarOrder} {n k : Nat} {t : Tree} {p : Pool} {σ : Point}

theorem extends_build (t : Tree) (p : Pool) : Extends p.nodes (t.build p).2.nodes := by
  induction t generalizing p with
  | leaf value => exact .refl _
  | branch x high low ihHigh ihLow =>
    rw [build_branch]
    exact ((ihHigh p).trans (ihLow _)).trans (Pool.extends_intern _ _ _ _)

@[simp] theorem isSome_ids_build (t : Tree) (p : Pool) :
    (t.build p).2.ids.isSome = p.ids.isSome := by
  induction t generalizing p with
  | leaf value => rfl
  | branch x high low ihHigh ihLow =>
    rw [build_branch, Pool.isSome_ids_intern, ihLow, ihHigh]

theorem ids_build_eq_none (t : Tree) (h : p.ids = none) : (t.build p).2.ids = none := by
  rw [← Option.not_isSome_iff_eq_none, isSome_ids_build, h]
  decide

/-- The table grows by at most one node for each decision. -/
theorem size_build_le (t : Tree) (p : Pool) :
    (t.build p).2.nodes.size ≤ p.nodes.size + t.decisions := by
  induction t generalizing p with
  | leaf value => exact Nat.le_refl _
  | branch x high low ihHigh ihLow =>
    have hhigh := ihHigh p
    have hlow := ihLow (high.build p).2
    have hnode := (low.build (high.build p).2).2.size_intern_le x (low.build (high.build p).2).1
      (high.build p).1
    rw [build_branch, decisions]
    omega

/-- A finished table that is small enough was small enough before each step. -/
theorem size_build_branch {x : Variable} {high low : Tree}
    (h : ((branch x high low).build p).2.nodes.size ≤ 4294967296) :
    (high.build p).2.nodes.size ≤ 4294967296 ∧
      (low.build (high.build p).2).2.nodes.size ≤ 4294967296 := by
  rw [build_branch] at h
  have hlow := (extends_build low (high.build p).2).size_le
  have hnode := ((low.build (high.build p).2).2.extends_intern x (low.build (high.build p).2).1
    (high.build p).1).size_le
  omega

theorem Ordered.build (ht : t.Ordered o.numVars.toNat k) (hk : k ≤ o.numVars.toNat)
    (hp : p.Sound o) (hsize : (t.build p).2.nodes.size ≤ 4294967296) :
    Pool.Delivers o k p (t.build p).1 (t.build p).2 := by
  induction ht generalizing p with
  | leaf k value => exact .of_nodes_eq hp rfl (hp.stands_ofBool hk value)
  | @branch k x high low hkx hx _ _ ihHigh ihLow =>
    obtain ⟨hsHigh, hsLow⟩ := size_build_branch hsize
    have hhigh := ihHigh hx hp hsHigh
    have hlow := ihLow hx hhigh.sound hsLow
    have hnode := hlow.sound.intern hx hlow.stands (hhigh.stands.extend hlow.keeps) hsize
    have hsides := (hhigh.trans hlow).mono (Nat.le_succ x.toIndex)
    exact (hsides.trans hnode).mono hkx

/-- A construction that outgrows its ids passes a sound pool that exhausts them. -/
theorem Ordered.exists_full_pool (ht : t.Ordered o.numVars.toNat k) (hk : k ≤ o.numVars.toNat)
    (hp : p.Sound o) (hbig : 4294967296 < (t.build p).2.nodes.size) :
    ∃ q : Pool, q.Sound o ∧ q.nodes.size = 4294967296 ∧ Extends q.nodes (t.build p).2.nodes := by
  induction ht generalizing p with
  | leaf k value => exact absurd hp.valid.size_le (Nat.not_le_of_lt hbig)
  | @branch k x high low hkx hx hth htl ihHigh ihLow =>
    have hnode := (low.build (high.build p).2).2.extends_intern x (low.build (high.build p).2).1
      (high.build p).1
    have hgrows := (low.build (high.build p).2).2.size_intern_le x (low.build (high.build p).2).1
      (high.build p).1
    rw [build_branch] at hbig ⊢
    by_cases hsHigh : 4294967296 < (high.build p).2.nodes.size
    · obtain ⟨q, hq, hfull, hext⟩ := ihHigh hx hp hsHigh
      exact ⟨q, hq, hfull, hext.trans ((extends_build _ _).trans hnode)⟩
    have hhigh := hth.build hx hp (Nat.le_of_not_lt hsHigh)
    by_cases hsLow : 4294967296 < (low.build (high.build p).2).2.nodes.size
    · obtain ⟨q, hq, hfull, hext⟩ := ihLow hx hhigh.sound hsLow
      exact ⟨q, hq, hfull, hext.trans hnode⟩
    · -- The node itself is the first for which there is no id.
      have hlow := htl.build hx hhigh.sound (Nat.le_of_not_lt hsLow)
      exact ⟨_, hlow.sound, by omega, hnode⟩

/-- The id that is delivered has the function of the tree. -/
theorem Ordered.valueAt_build (ht : t.Ordered o.numVars.toNat k) (hk : k ≤ o.numVars.toNat)
    (hp : p.Sound o) (hsize : (t.build p).2.nodes.size ≤ 4294967296) :
    ((t.build p).2.diagram o .zero).valueAt σ (t.build p).1 = t.eval σ := by
  induction ht generalizing p with
  | leaf k value => exact Diagram.valueAt_ofBool value
  | @branch k x high low hkx hx hth htl ihHigh ihLow =>
    obtain ⟨hsHigh, hsLow⟩ := size_build_branch hsize
    have hhigh := hth.build hx hp hsHigh
    have hlow := htl.build hx hhigh.sound hsLow
    have hstands := hhigh.stands.extend hlow.keeps
    have hnode := hlow.sound.intern hx hlow.stands hstands hsize
    have hkept : ((low.build (high.build p).2).2.diagram o .zero).valueAt σ (high.build p).1 =
        ((high.build p).2.diagram o .zero).valueAt σ (high.build p).1 :=
      hhigh.sound.valid.valueAt_extend hlow.keeps hhigh.stands.lt_size
    rw [build_branch, hlow.sound.valueAt_intern hx hlow.stands hstands hnode.sound, hkept,
      ihHigh hx hp hsHigh, ihLow hx hhigh.sound hsLow, eval]

end Tree

end DecisionDiagram
