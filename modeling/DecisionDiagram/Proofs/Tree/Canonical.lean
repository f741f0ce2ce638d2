import DecisionDiagram.Proofs.Diagram.Separation
import DecisionDiagram.Proofs.Tree.Build

/-!
# Shared construction depends on the function alone

With sharing, a tree whose function some node of the pool already has is built
without adding anything, and the id of that node is delivered.  It follows that two
ordered trees with the same function, built in the same pool, leave the same table
and deliver the same id, whatever variables they decide on: numbering included, the
result is a function of the function.
-/

namespace DecisionDiagram

open Function

namespace Pool

variable {o : VarOrder} {p q r : Pool} {x : Variable} {low high id root : NodeId} {node : Node}

/-! ### Pools up to their logs -/

/-- Two pools that differ at most in their logs. -/
structure Alike (p q : Pool) : Prop where
  /-- The tables are equal, position by position. -/
  nodes_eq : p.nodes = q.nodes
  /-- The maps are equal. -/
  ids_eq : p.ids = q.ids

namespace Alike

theorem refl (p : Pool) : Alike p p := ⟨rfl, rfl⟩

theorem symm (h : Alike p q) : Alike q p := ⟨h.nodes_eq.symm, h.ids_eq.symm⟩

theorem trans (h : Alike p q) (h' : Alike q r) : Alike p r :=
  ⟨h.nodes_eq.trans h'.nodes_eq, h.ids_eq.trans h'.ids_eq⟩

theorem log (p : Pool) (e : Event) : Alike (p.log e) p := ⟨rfl, rfl⟩

theorem find?_eq (h : Alike p q) (node : Node) : p.find? node = q.find? node := by
  rw [find?, find?, h.ids_eq]

theorem diagram_eq (h : Alike p q) : p.diagram o root = q.diagram o root := by
  rw [diagram, diagram, h.nodes_eq]

theorem sound (h : Alike p q) (hp : p.Sound o) : q.Sound o where
  valid := h.diagram_eq ▸ hp.valid
  find?_iff hs node id := by
    rw [← h.find?_eq, ← h.nodes_eq]
    exact hp.find?_iff (h.ids_eq ▸ hs) node id

end Alike

/-- Two results of a construction that differ at most in what was logged. -/
def SameResult (a b : NodeId × Pool) : Prop := a.1 = b.1 ∧ Alike a.2 b.2

namespace SameResult

variable {a b c : NodeId × Pool}

theorem symm (h : SameResult a b) : SameResult b a := ⟨h.1.symm, h.2.symm⟩

theorem trans (h : SameResult a b) (h' : SameResult b c) : SameResult a c :=
  ⟨h.1.trans h'.1, h.2.trans h'.2⟩

end SameResult

/-- A request for a node has the same result in pools that differ in their logs. -/
theorem Alike.intern (h : Alike p q) (x : Variable) (low high : NodeId) :
    SameResult (p.intern x low high) (q.intern x low high) := by
  have hlog : ∀ e, Alike (p.log e) (q.log e) := fun e => ⟨h.nodes_eq, h.ids_eq⟩
  rcases p.intern_cases x low high with ⟨rfl, hp⟩ | ⟨hne, id, hf, hp⟩ | ⟨hne, hf, hp⟩
  · rw [hp, q.intern_self]
    exact ⟨rfl, hlog _⟩
  · rw [hp, intern_of_find?_eq_some hne (h.find?_eq _ ▸ hf)]
    exact ⟨rfl, hlog _⟩
  · rw [hp, intern_of_find?_eq_none hne (h.find?_eq _ ▸ hf)]
    refine ⟨?_, ?_, ?_⟩
    · rw [fst_push, fst_push, h.nodes_eq]
    · rw [nodes_push, nodes_push, h.nodes_eq]
    · simp only [push, h.nodes_eq, h.ids_eq]

theorem sameResult_intern_self (p : Pool) (x : Variable) (id : NodeId) :
    SameResult (p.intern x id id) (id, p) := by
  rw [intern_self]
  exact ⟨rfl, Alike.log p _⟩

/-- A request for a node that is there delivers it. -/
theorem Sound.intern_of_getElem? (hp : p.Sound o) (hs : p.ids.isSome) (hne : low ≠ high)
    (hn : p.nodes[id.toIndex]? = some ⟨x, low, high⟩) :
    SameResult (p.intern x low high) (id, p) := by
  rw [intern_of_find?_eq_some hne ((hp.find?_iff hs _ _).2 hn)]
  exact ⟨rfl, Alike.log p _⟩

/-- A map that mirrors the table leaves no room for repeated nodes. -/
theorem Sound.distinct (hp : p.Sound o) (hs : p.ids.isSome) : (p.diagram o root).Distinct := by
  intro id id' node hn hn'
  have h := (hp.find?_iff hs node id).2 hn
  rw [(hp.find?_iff hs node id').2 hn'] at h
  exact (Option.some.inj h).symm

end Pool

namespace Tree

open Pool

variable {o : VarOrder} {n k k' : Nat} {t t' high low : Tree} {p p' : Pool} {σ : Point}
  {x : Variable} {b : Bool} {id : NodeId}

/-! ### Cofactors -/

/-- A variable before the range of a tree does not matter for it. -/
theorem Ordered.eval_update_of_lt (ht : t.Ordered n k) (hx : x.toIndex < k) :
    t.eval (update σ x b) = t.eval σ := by
  refine ht.eval_congr ?_
  intro y hy _
  refine update_of_ne ?_ _ _
  rintro rfl
  omega

/-- The sides of a branch are its cofactors. -/
theorem eval_branch_update (hhigh : high.Ordered n (x.toIndex + 1))
    (hlow : low.Ordered n (x.toIndex + 1)) :
    (branch x high low).eval (update σ x b) = if b then high.eval σ else low.eval σ := by
  rw [eval, update_self, hhigh.eval_update_of_lt (Nat.lt_succ_self _),
    hlow.eval_update_of_lt (Nat.lt_succ_self _)]

/-- If a branch has the function of a later tree then so have both its sides. -/
theorem eval_side_of_lt (hhigh : high.Ordered n (x.toIndex + 1))
    (hlow : low.Ordered n (x.toIndex + 1)) (ht : t.Ordered n k) (hx : x.toIndex < k)
    (h : ∀ σ, (branch x high low).eval σ = t.eval σ) (b : Bool) (σ : Point) :
    (if b then high.eval σ else low.eval σ) = t.eval σ := by
  rw [← eval_branch_update hhigh hlow, h, ht.eval_update_of_lt hx]

/-! ### Trees whose function is there -/

/-- A branch whose sides are both there comes down to one request for a node. -/
theorem build_branch_of_sides {highId lowId : NodeId}
    (hhigh : SameResult (high.build p) (highId, p))
    (hlow : ∀ q, Alike q p → SameResult (low.build q) (lowId, q)) :
    SameResult ((branch x high low).build p) (p.intern x lowId highId) := by
  obtain ⟨hidHigh, hq⟩ := hhigh
  obtain ⟨hidLow, hr⟩ := hlow _ hq
  rw [build_branch, hidHigh, hidLow]
  exact (hr.trans hq).intern x lowId highId

/-- If a node of the pool has the function of a tree, building the tree delivers that
node and adds nothing. -/
theorem Ordered.build_of_valueAt (ht : t.Ordered o.numVars.toNat k) (hp : p.Sound o)
    (hs : p.ids.isSome) (hid : id.toIndex < p.nodes.size)
    (h : ∀ σ, (p.diagram o .zero).valueAt σ id = t.eval σ) :
    SameResult (t.build p) (id, p) := by
  induction ht generalizing p id with
  | leaf k value =>
    rw [hp.valid.eq_ofBool hid h]
    exact ⟨rfl, .refl p⟩
  | @branch k x high low hkx hx hth htl ihHigh ihLow =>
    have hd := hp.valid
    have hdist : (p.diagram o .zero).Distinct := hp.distinct hs
    have hcof : ∀ (σ : Point) (b : Bool), (p.diagram o .zero).valueAt (update σ x b) id =
        if b then high.eval σ else low.eval σ :=
      fun σ b => (h _).trans (eval_branch_update hth htl)
    -- The low side is built in a pool that differs from `p` in its log.
    have hlow : ∀ lowId : NodeId, lowId.toIndex < p.nodes.size →
        (∀ σ, (p.diagram o .zero).valueAt σ lowId = low.eval σ) →
        ∀ q, Alike q p → SameResult (low.build q) (lowId, q) := by
      intro lowId hlt hval q hq
      refine ihLow (hq.symm.sound hp) (hq.ids_eq ▸ hs) (hq.nodes_eq ▸ hlt) ?_
      rw [hq.diagram_eq]
      exact hval
    have hn : p.nodes[id.toIndex]? = some p.nodes[id.toIndex] := Array.getElem?_eq_getElem hid
    generalize p.nodes[id.toIndex] = node at hn
    rcases Nat.lt_trichotomy node.var.toIndex x.toIndex with hlt | heq | hgt
    · -- The node would test a variable that the tree does not ask for.
      have h2 := hd.two_le_of_var_lt hn (UInt16.lt_iff_toNat_lt.2 (Nat.lt_trans hlt hx))
      have ht := Ordered.branch (Nat.le_refl _) hx hth htl
      refine absurd (fun σ b => ?_) (hd.not_ignores hdist h2 hn)
      rw [h, h, ht.eval_update_of_lt hlt]
    · -- The node tests the variable of the branch: its children are the sides.
      obtain rfl := Variable.toIndex_inj.1 heq
      have h2 := hd.two_le_of_var_lt hn (UInt16.lt_iff_toNat_lt.2 hx)
      have hchild : ∀ (c : Bool) (σ : Point), (p.diagram o .zero).valueAt σ (node.child c) =
          if c then high.eval σ else low.eval σ :=
        fun c σ => (hd.valueAt_child h2 hn c).trans (hcof σ c)
      have hhigh := ihHigh hp hs (hd.child_lt_size h2 hn true) (hchild true)
      have hsides := build_branch_of_sides (x := node.var) hhigh
        (hlow _ (hd.child_lt_size h2 hn false) (hchild false))
      exact hsides.trans (hp.intern_of_getElem? hs (hd.fits _ _ h2 hn).low_ne_high hn)
    · -- The node comes later: it is both sides at once.
      have hboth : ∀ (c : Bool) (σ : Point), (p.diagram o .zero).valueAt σ id =
          if c then high.eval σ else low.eval σ := by
        intro c σ
        rw [← hcof, hd.ignores_of_lt hn (Variable.lt_iff.2 hgt)]
      have hsides := build_branch_of_sides (x := x) (ihHigh hp hs hid (hboth true))
        (hlow _ hid (hboth false))
      exact hsides.trans (p.sameResult_intern_self x id)

/-- A branch whose sides have the same function adds nothing to its high side. -/
theorem build_branch_of_eval_eq (hhigh : high.Ordered o.numVars.toNat (x.toIndex + 1))
    (hlow : low.Ordered o.numVars.toNat (x.toIndex + 1)) (hx : x.toIndex < o.numVars.toNat)
    (h : ∀ σ, high.eval σ = low.eval σ) (hp : p.Sound o) (hs : p.ids.isSome)
    (hsize : (high.build p).2.nodes.size ≤ 4294967296) :
    SameResult ((branch x high low).build p) (high.build p) := by
  have hd := hhigh.build hx hp hsize
  have hval := fun σ => hhigh.valueAt_build (σ := σ) hx hp hsize
  obtain ⟨hid, hq⟩ := hlow.build_of_valueAt hd.sound (by rw [isSome_ids_build, hs])
    hd.stands.lt_size fun σ => (hval σ).trans (h σ)
  rw [build_branch, hid]
  exact (hq.intern x _ _).trans ((high.build p).2.sameResult_intern_self x _)

/-! ### Trees with the same function -/

/-- Two ordered trees with the same function have the same result in the same pool, if
one of them fits the ids. -/
theorem Ordered.build_congr (ht : t.Ordered o.numVars.toNat k) (ht' : t'.Ordered o.numVars.toNat k')
    (h : ∀ σ, t.eval σ = t'.eval σ) (hp : p.Sound o) (hs : p.ids.isSome) (hpp' : Alike p p')
    (hsize : (t.build p).2.nodes.size ≤ 4294967296) :
    SameResult (t.build p) (t'.build p') := by
  -- Where the variables differ, only one of the trees is taken apart.
  induction hm : t.decisions + t'.decisions using Nat.strongRecOn
    generalizing t t' k k' p p' with
  | ind m ih =>
    subst hm
    have hp' := hpp'.sound hp
    have hs' : p'.ids.isSome := hpp'.ids_eq ▸ hs
    cases ht with
    | leaf _ value =>
      have hconst := ht'.build_of_valueAt hp' hs' (hp'.valid.ofBool_lt value)
        fun σ => (Diagram.valueAt_ofBool value).trans (h σ)
      have hstart : SameResult ((Tree.leaf value).build p) (.ofBool value, p') := ⟨rfl, hpp'⟩
      exact hstart.trans hconst.symm
    | @branch _ x high low hkx hx hth htl =>
      have htx := Ordered.branch (Nat.le_refl _) hx hth htl
      cases ht' with
      | leaf _ value =>
        have hconst := htx.build_of_valueAt hp hs (hp.valid.ofBool_lt value)
          fun σ => (Diagram.valueAt_ofBool value).trans (h σ).symm
        have hend : SameResult (.ofBool value, p) ((Tree.leaf value).build p') := ⟨rfl, hpp'⟩
        exact hconst.trans hend
      | @branch _ x' high' low' hkx' hx' hth' htl' =>
        have htx' := Ordered.branch (Nat.le_refl _) hx' hth' htl'
        obtain ⟨hsHigh, hsLow⟩ := size_build_branch hsize
        rcases Nat.lt_trichotomy x.toIndex x'.toIndex with hlt | heq | hgt
        · have hside := eval_side_of_lt hth htl htx' hlt h
          have hred := build_branch_of_eval_eq hth htl hx
            (fun σ => (hside true σ).trans (hside false σ).symm) hp hs hsHigh
          refine hred.trans (ih _ ?_ hth htx' (hside true) hp hs hpp' hsHigh rfl)
          simp only [decisions]
          omega
        · obtain rfl := Variable.toIndex_inj.1 heq
          have hside : ∀ (b : Bool) (σ : Point), (if b then high.eval σ else low.eval σ) =
              if b then high'.eval σ else low'.eval σ := by
            intro b σ
            rw [← eval_branch_update hth htl, h, eval_branch_update hth' htl']
          obtain ⟨hidHigh, hq⟩ := ih _ (by simp only [decisions]; omega) hth hth' (hside true)
            hp hs hpp' hsHigh rfl
          have hd := hth.build hx hp hsHigh
          obtain ⟨hidLow, hr⟩ := ih _ (by simp only [decisions]; omega) htl htl' (hside false)
            hd.sound (by rw [isSome_ids_build, hs]) hq hsLow rfl
          rw [build_branch, build_branch, hidHigh, hidLow]
          exact hr.intern x _ _
        · have hside := eval_side_of_lt hth' htl' htx hgt fun σ => (h σ).symm
          have hrest := ih _ (by simp only [decisions]; omega) htx hth'
            (fun σ => (hside true σ).symm) hp hs hpp' hsize rfl
          have hred := build_branch_of_eval_eq hth' htl' hx'
            (fun σ => (hside true σ).trans (hside false σ).symm) hp' hs'
            (hrest.2.nodes_eq ▸ hsize)
          exact hrest.trans hred.symm

end Tree

end DecisionDiagram
