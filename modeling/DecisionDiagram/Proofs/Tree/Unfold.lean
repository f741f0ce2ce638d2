import DecisionDiagram.Proofs.Tree.Canonical
import DecisionDiagram.Proofs.Tree.Reach
import DecisionDiagram.Proofs.Tree.Routes

/-!
# Unfolding a table into a tree

A node unfolds to the tree of the decisions below it.  A construction may decide on more
than that, since a decision whose two sides come to the same id leaves no node.  But the
second side has then added nothing, so that building the unfolded tree instead repeats
the construction node by node.  No use is made of sharing: the argument is about what is
asked of the pool, not about functions.
-/

namespace DecisionDiagram

namespace Pool

variable {p q : Pool} {x : Variable} {low high : NodeId}

/-! ### Building that adds nothing -/

theorem Alike.build (h : Alike p q) (t : Tree) : SameResult (t.build p) (t.build q) := by
  induction t generalizing p q with
  | leaf value => exact ⟨rfl, h⟩
  | branch x high low ihHigh ihLow =>
    obtain ⟨hidHigh, hhigh⟩ := ihHigh h
    obtain ⟨hidLow, hlow⟩ := ihLow hhigh
    rw [Tree.build_branch, Tree.build_branch, hidHigh, hidLow]
    exact hlow.intern x _ _

theorem alike_intern_of_size (h : (p.intern x low high).2.nodes.size = p.nodes.size) :
    Alike (p.intern x low high).2 p := by
  rcases p.intern_cases x low high with ⟨-, hp⟩ | ⟨-, id, -, hp⟩ | ⟨-, -, hp⟩ <;> rw [hp] at h ⊢
  · exact .log p _
  · exact .log p _
  · simp at h

/-- A tree that leaves the size of the table as it was leaves the whole pool as it was. -/
theorem alike_build_of_size {t : Tree} (h : (t.build p).2.nodes.size = p.nodes.size) :
    Alike (t.build p).2 p := by
  induction t generalizing p with
  | leaf value => exact .refl p
  | branch x high low ihHigh ihLow =>
    have hhigh := (Tree.extends_build high p).size_le
    have hlow := (Tree.extends_build low (high.build p).2).size_le
    have hnode := ((low.build (high.build p).2).2.extends_intern x (low.build (high.build p).2).1
      (high.build p).1).size_le
    rw [Tree.build_branch] at h ⊢
    have halike := ihLow (p := (high.build p).2) (by omega)
    exact (alike_intern_of_size (by omega)).trans (halike.trans (ihHigh (by omega)))

end Pool

/-- The decisions from a node on, with every use of a node written out. -/
inductive Diagram.Unfolds (d : Diagram) : NodeId → Tree → Prop
  /-- A terminal is a constant. -/
  | leaf (b : Bool) : d.Unfolds (.ofBool b) (.leaf b)
  /-- A decision node unfolds on both sides. -/
  | branch {id : NodeId} {node : Node} {high low : Tree} : 2 ≤ id.toIndex →
    d.nodes[id.toIndex]? = some node → d.Unfolds node.high high → d.Unfolds node.low low →
    d.Unfolds id (.branch node.var high low)

namespace Diagram

variable {d d' : Diagram} {id : NodeId} {node : Node} {t u : Tree} {b : Bool}

/-! ### Unfolding -/

theorem unfolds_ofBool_iff : d.Unfolds (.ofBool b) t ↔ t = .leaf b := by
  constructor
  · intro h
    generalize hid : NodeId.ofBool b = id at h
    cases h with
    | leaf c =>
      rw [NodeId.ofBool_inj.1 hid]
    | branch h2 => exact absurd (hid ▸ h2) (NodeId.not_two_le_ofBool b)
  · rintro rfl
    exact .leaf b

theorem unfolds_node_iff (h2 : 2 ≤ id.toIndex) (hn : d.nodes[id.toIndex]? = some node) :
    d.Unfolds id t ↔ ∃ high low, t = .branch node.var high low ∧
      d.Unfolds node.high high ∧ d.Unfolds node.low low := by
  constructor
  · intro h
    cases h with
    | leaf c => exact absurd h2 (NodeId.not_two_le_ofBool c)
    | @branch _ node' high low _ hn' hhigh hlow =>
      obtain rfl : node = node' := Option.some.inj (hn.symm.trans hn')
      exact ⟨high, low, rfl, hhigh, hlow⟩
  · rintro ⟨high, low, rfl, hhigh, hlow⟩
    exact .branch h2 hn hhigh hlow

/-- A node has at most one tree. -/
theorem Unfolds.unique (h : d.Unfolds id t) (h' : d.Unfolds id u) : t = u := by
  induction h generalizing u with
  | leaf b => exact (unfolds_ofBool_iff.1 h').symm
  | branch h2 hn _ _ ihHigh ihLow =>
    obtain ⟨high, low, rfl, hhigh, hlow⟩ := (unfolds_node_iff h2 hn).1 h'
    rw [ihHigh hhigh, ihLow hlow]

theorem Unfolds.extend (h : d.Unfolds id t) (hext : Extends d.nodes d'.nodes) :
    d'.Unfolds id t := by
  induction h with
  | leaf b => exact .leaf b
  | branch h2 hn _ _ ihHigh ihLow => exact .branch h2 (hext _ _ hn) ihHigh ihLow

theorem Valid.exists_unfolds (hd : d.Valid) (hid : id.toIndex < d.size) :
    ∃ t, d.Unfolds id t := by
  induction id, hid using hd.induct with
  | terminal b _ => exact ⟨_, .leaf b⟩
  | decision id node _ h2 hn ih =>
    obtain ⟨high, hhigh⟩ := ih true (hd.child_lt_size h2 hn true)
    obtain ⟨low, hlow⟩ := ih false (hd.child_lt_size h2 hn false)
    exact ⟨_, .branch h2 hn hhigh hlow⟩

/-- The variables of the tree come in order. -/
theorem Unfolds.ordered (hd : d.Valid) (h : d.Unfolds id t)
    (hn : d.nodes[id.toIndex]? = some node) : t.Ordered d.numVars.toNat node.var.toIndex := by
  induction h generalizing node with
  | leaf b => exact .leaf _ b
  | @branch id node' high low h2 hn' _ _ ihHigh ihLow =>
    obtain rfl : node = node' := Option.some.inj (hn.symm.trans hn')
    obtain ⟨childHigh, hchildHigh, -, hltHigh⟩ := hd.exists_child h2 hn true
    obtain ⟨childLow, hchildLow, -, hltLow⟩ := hd.exists_child h2 hn false
    exact .branch (Nat.le_refl _) (UInt16.lt_iff_toNat_lt.1 (hd.fits _ _ h2 hn).var_lt)
      ((ihHigh hchildHigh).mono hltHigh) ((ihLow hchildLow).mono hltLow)

end Diagram

namespace Tree

open Pool

variable {o : VarOrder} {k : Nat} {t u : Tree} {p : Pool}

/-- What has been built unfolds to a tree that is built in the same way. -/
theorem Ordered.build_unfolds (ht : t.Ordered o.numVars.toNat k) (hk : k ≤ o.numVars.toNat)
    (hp : p.Sound o) (hsize : (t.build p).2.nodes.size ≤ 4294967296)
    (hu : ((t.build p).2.diagram o .zero).Unfolds (t.build p).1 u) :
    SameResult (u.build p) (t.build p) := by
  induction ht generalizing p u with
  | leaf k value =>
    obtain rfl := Diagram.unfolds_ofBool_iff.1 hu
    exact ⟨rfl, .refl p⟩
  | @branch k x high low hkx hx hth htl ihHigh ihLow =>
    obtain ⟨hsHigh, hsLow⟩ := size_build_branch hsize
    have hhigh := hth.build hx hp hsHigh
    have hlow := htl.build hx hhigh.sound hsLow
    have hext := (low.build (high.build p).2).2.extends_intern x (low.build (high.build p).2).1
      (high.build p).1
    obtain ⟨treeHigh, hunfHigh⟩ := hhigh.sound.valid.exists_unfolds hhigh.stands.lt_size
    obtain ⟨treeLow, hunfLow⟩ := hlow.sound.valid.exists_unfolds hlow.stands.lt_size
    have hsameHigh := ihHigh hx hp hsHigh hunfHigh
    have hsameLow := ihLow hx hhigh.sound hsLow hunfLow
    by_cases hne : (low.build (high.build p).2).1 = (high.build p).1
    · -- The high side stands for both, since nothing was added for the low side.
      have hlast := htl.last_build hx hhigh.sound hsLow
      have hlt : (high.build p).1.toIndex < (high.build p).2.nodes.size := hhigh.stands.lt_size
      have hgrows := (extends_build low (high.build p).2).size_le
      rw [hne] at hlast
      have halike : Alike (low.build (high.build p).2).2 (high.build p).2 :=
        alike_build_of_size (by omega)
      have hresult : SameResult ((Tree.branch x high low).build p) (high.build p) := by
        rw [build_branch, hne]
        exact (halike.intern x _ _).trans (sameResult_intern_self _ x _)
      rw [hresult.1] at hu
      obtain rfl : u = treeHigh := hu.unique (hunfHigh.extend (hlow.keeps.trans hext))
      exact hsameHigh.trans hresult.symm
    · have hn := hlow.sound.getElem?_intern (x := x) hne hsize
      have hnode := hlow.sound.intern hx hlow.stands (hhigh.stands.extend hlow.keeps) hsize
      have h2 := hnode.sound.valid.two_le_of_var_lt hn (UInt16.lt_iff_toNat_lt.2 hx)
      obtain ⟨uHigh, uLow, rfl, huHigh, huLow⟩ := (Diagram.unfolds_node_iff h2 hn).1 hu
      obtain rfl : uHigh = treeHigh := huHigh.unique (hunfHigh.extend (hlow.keeps.trans hext))
      obtain rfl : uLow = treeLow := huLow.unique (hunfLow.extend hext)
      have hrest := (hsameHigh.2.build uLow).trans hsameLow
      rw [build_branch, build_branch, hsameHigh.1, hrest.1]
      exact hrest.2.intern x _ _

end Tree

namespace Diagram

variable {d : Diagram} {id : NodeId} {t : Tree}

/-! ### The routes of what is unfolded -/

theorem Unfolds.routes (h : d.Unfolds id t) : d.Routes id t.routes := by
  induction h with
  | leaf b =>
    cases b with
    | false => exact .zero
    | true => exact .one
  | branch h2 hn _ _ ihHigh ihLow => exact .node h2 hn ihLow ihHigh

/-- A node from which no route leads is the terminal `0`. -/
theorem Routes.eq_zero (hd : d.Valid) (h : d.Routes id []) (hid : id.toIndex < d.size) :
    id = .zero := by
  refine hd.eq_ofBool hid (b := false) fun σ => ?_
  rw [← Bool.not_eq_true, hd.grounded.valueAt_iff hid]
  rintro ⟨r, hr, -⟩
  exact absurd (h.mem_iff.2 hr) (by simp)

theorem Unfolds.live (hd : d.Valid) (h : d.Unfolds id t) : t.Live := by
  induction h with
  | leaf b => exact True.intro
  | branch h2 hn hhigh hlow ihHigh ihLow =>
    refine ⟨fun hnone => ?_, ihHigh, ihLow⟩
    have hroutes := (Unfolds.branch h2 hn hhigh hlow).routes
    rw [hnone] at hroutes
    have hid := (Array.getElem?_eq_some_iff.1 hn).1
    rw [hroutes.eq_zero hd hid] at h2
    exact absurd h2 (by decide)

end Diagram

end DecisionDiagram
