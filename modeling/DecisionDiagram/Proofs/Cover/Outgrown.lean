import DecisionDiagram.Proofs.Cover.Obtained
import DecisionDiagram.Proofs.Tree.Pairs

/-!
# A table that outgrows its ids

Without sharing a few cubes can make more nodes than there are ids.  Here 31 of the 33 cubes
ask for a pair of variables each, and the tree of these pairs fills the table up to the
position `2 ^ 32`, whose id is that of the terminal `0`.  From there on ids no longer tell
where a node is: what is made next links to the wrong nodes.
-/

namespace DecisionDiagram

variable {o : VarOrder} {p q r : Pool} {i k left : Nat} {x : Variable} {id h l : NodeId}
  {t high low : Tree} {row : Row} {rows : List Row} {b : Bool}

namespace Cube

/-- Besides a pair of variables, the cube fixes the first three. -/
def pair (i : Nat) : Cube :=
  .ofValues [(⟨0⟩, false), (⟨1⟩, true), (⟨2⟩, true), (.atIndex i, true), (.atIndex (i + 1), true)]

/-- The cube whose node is made before those of the pairs. -/
def early : Cube := .ofValues [(⟨0⟩, true), (⟨1⟩, false)]

/-- The cube whose node is made right after those of the pairs. -/
def late : Cube := .ofValues [(⟨0⟩, false), (⟨1⟩, true), (⟨2⟩, false), (⟨3⟩, true)]

theorem get?_pair (h3 : 3 ≤ i) (hi : i < 65535) :
    (pair i).get? x = if x.toIndex = 0 then some false
      else if x.toIndex < 3 ∨ x.toIndex = i ∨ x.toIndex = i + 1 then some true else none := by
  have hat : ∀ j, j < 65536 → (x = .atIndex j ↔ x.toIndex = j) := fun j hj => by
    rw [← Variable.toIndex_inj, Variable.toIndex_atIndex hj]
  have h0 : x = ⟨0⟩ ↔ x.toIndex = 0 := hat 0 (by decide)
  have h1 : x = ⟨1⟩ ↔ x.toIndex = 1 := hat 1 (by decide)
  have h2 : x = ⟨2⟩ ↔ x.toIndex = 2 := hat 2 (by decide)
  simp only [pair, ofValues, List.foldl_cons, List.foldl_nil, get?_set, get?_empty,
    hat i (by omega), hat (i + 1) (by omega), h0, h1, h2]
  split_ifs <;> first | rfl | omega

theorem within_pair {n : UInt16} (h3 : 3 ≤ i) (hi : i + 1 < n.toNat) : (pair i).Within n := by
  have hn := n.toNat_lt
  intro x hx
  refine UInt16.lt_iff_toNat_lt.2 (Nat.lt_of_not_le fun hle => ?_)
  have hbeyond : n.toNat ≤ x.toIndex := hle
  rw [fixes, get?_pair h3 (by omega), if_neg (by omega), if_neg (by omega)] at hx
  exact absurd hx (by decide)

end Cube

/-- Over 65 variables, two cubes and the cubes of 31 pairs, to be compiled without sharing. -/
def Cover.outgrown (o : VarOrder) (ho : o.numVars = 65) : Cover where
  order := o
  cubes := (.early :: .late :: (List.range' 3 31 2).map Cube.pair).toArray
  sharing := false
  within := by
    rw [ho]
    intro cube hcube
    rcases List.mem_cons.1 (List.mem_toArray.1 hcube) with rfl | hcube
    · decide
    rcases List.mem_cons.1 hcube with rfl | hcube
    · decide
    obtain ⟨i, hi, rfl⟩ := List.mem_map.1 hcube
    obtain ⟨j, hj, rfl⟩ := List.mem_range'.1 hi
    exact Cube.within_pair (by omega) (show 3 + 2 * j + 1 < 65 by omega)

namespace Tree

/-! ### The tree of the cubes -/

/-- The tree below three decisions, with a node to be made before it and one after it. -/
def embed (t : Tree) : Tree :=
  .branch ⟨0⟩ (.branch ⟨1⟩ (.leaf false) (.leaf true))
    (.branch ⟨1⟩ (.branch ⟨2⟩ t (.branch ⟨3⟩ (.leaf true) (.leaf false))) (.leaf false))

/-- Rows that agree on a variable all allow the one value and none the other. -/
theorem filter_allows (hrows : ∀ row ∈ rows, row.cube.get? x = some b) (c : Bool) :
    rows.filter (·.allows x c) = if c = b then rows else [] := by
  split
  · next hc =>
    refine List.filter_eq_self.2 fun row hrow => ?_
    rw [Row.allows, hrows row hrow, hc]
    cases b <;> decide
  · next hc =>
    refine List.filter_eq_nil_iff.2 fun row hrow => ?_
    rw [Row.allows, hrows row hrow, Bool.eq_not.2 hc]
    simp

theorem ofRows_early (left : Nat) : ofRows (left + 1) ⟨1⟩ [.ofCube .early] =
    .branch ⟨1⟩ (.leaf false) (.leaf true) := by
  have hhigh : [Row.ofCube .early].filter (·.allows ⟨1⟩ true) = [] := by decide
  have hlow : [Row.ofCube .early].filter (·.allows ⟨1⟩ false) = [.ofCube .early] := by decide
  rw [ofRows_of_fixes (by decide) List.mem_cons_self (by decide), hhigh, hlow, ofRows_nil,
    ofRows_of_free List.mem_cons_self (by decide)]

theorem ofRows_late (left : Nat) : ofRows (left + 1) ⟨3⟩ [.ofCube .late] =
    .branch ⟨3⟩ (.leaf true) (.leaf false) := by
  have hhigh : [Row.ofCube .late].filter (·.allows ⟨3⟩ true) = [.ofCube .late] := by decide
  have hlow : [Row.ofCube .late].filter (·.allows ⟨3⟩ false) = [] := by decide
  rw [ofRows_of_fixes (by decide) List.mem_cons_self (by decide), hhigh, hlow, ofRows_nil,
    ofRows_of_free List.mem_cons_self (by decide)]

/-- Rows that agree on the first three variables, and ask for more, are decided in the
middle. -/
theorem ofRows_embed (h0 : ∀ row ∈ rows, row.cube.get? ⟨0⟩ = some false)
    (h1 : ∀ row ∈ rows, row.cube.get? ⟨1⟩ = some true)
    (h2 : ∀ row ∈ rows, row.cube.get? ⟨2⟩ = some true)
    (hasks : ∀ x : Variable, x.toIndex < 3 → ∀ row ∈ rows, ¬row.freeFrom ≤ x.index) :
    ofRows (left + 4) ⟨0⟩ (.ofCube .early :: .ofCube .late :: rows) =
      embed (ofRows (left + 1) ⟨3⟩ rows) := by
  have hrest0 : ∀ row ∈ .ofCube .late :: rows, row.cube.get? ⟨0⟩ = some false :=
    List.forall_mem_cons.2 ⟨by decide, h0⟩
  have hrest1 : ∀ row ∈ .ofCube .late :: rows, row.cube.get? ⟨1⟩ = some true :=
    List.forall_mem_cons.2 ⟨by decide, h1⟩
  have hasks0 : ∀ row ∈ .ofCube .early :: .ofCube .late :: rows, ¬row.freeFrom ≤ 0 :=
    List.forall_mem_cons.2 ⟨by decide, List.forall_mem_cons.2 ⟨by decide, hasks ⟨0⟩ (by decide)⟩⟩
  have hasks1 : ∀ row ∈ .ofCube .late :: rows, ¬row.freeFrom ≤ 1 :=
    List.forall_mem_cons.2 ⟨by decide, hasks ⟨1⟩ (by decide)⟩
  have hasks2 : ∀ row ∈ .ofCube .late :: rows, ¬row.freeFrom ≤ 2 :=
    List.forall_mem_cons.2 ⟨by decide, hasks ⟨2⟩ (by decide)⟩
  have hhigh0 : (Row.ofCube .early :: .ofCube .late :: rows).filter (·.allows ⟨0⟩ true) =
      [.ofCube .early] := by
    rw [List.filter_cons_of_pos (by decide), filter_allows hrest0, if_neg Bool.false_ne_true.symm]
  have hlow0 : (Row.ofCube .early :: .ofCube .late :: rows).filter (·.allows ⟨0⟩ false) =
      .ofCube .late :: rows := by
    rw [List.filter_cons_of_neg (by decide), filter_allows hrest0, if_pos rfl]
  have hhigh2 : (Row.ofCube .late :: rows).filter (·.allows ⟨2⟩ true) = rows := by
    rw [List.filter_cons_of_neg (by decide), filter_allows h2, if_pos rfl]
  have hlow2 : (Row.ofCube .late :: rows).filter (·.allows ⟨2⟩ false) = [.ofCube .late] := by
    rw [List.filter_cons_of_pos (by decide), filter_allows h2, if_neg Bool.false_ne_true]
  have hsecond : ofRows (left + 2) ⟨2⟩ (.ofCube .late :: rows) =
      .branch ⟨2⟩ (ofRows (left + 1) ⟨3⟩ rows) (.branch ⟨3⟩ (.leaf true) (.leaf false)) := by
    rw [ofRows_of_fixes hasks2 List.mem_cons_self (by decide), hhigh2, hlow2, ← ofRows_late left]
    rfl
  have hfirst : ofRows (left + 3) ⟨1⟩ (.ofCube .late :: rows) =
      .branch ⟨1⟩ (ofRows (left + 2) ⟨2⟩ (.ofCube .late :: rows)) (.leaf false) := by
    rw [ofRows_of_fixes hasks1 List.mem_cons_self (by decide), filter_allows hrest1,
      filter_allows hrest1, if_pos rfl, if_neg Bool.false_ne_true, ofRows_nil]
    rfl
  rw [ofRows_of_fixes hasks0 List.mem_cons_self (by decide), hhigh0, hlow0, embed,
    ← ofRows_early (left + 2), ← hsecond, ← hfirst]
  rfl

end Tree

namespace Cover

/-- The rows of `k` pairs from position `i` on. -/
def pairRows (i k : Nat) : List Row := ((List.range' i k 2).map Cube.pair).map .ofCube

theorem get?_of_mem_pairRows (h3 : 3 ≤ i) (hi : i + 2 * k ≤ 65536) (hrow : row ∈ pairRows i k)
    (hx : x.toIndex < 3) : row.cube.get? x = some (x.toIndex != 0) := by
  obtain ⟨cube, hcube, rfl⟩ := List.mem_map.1 hrow
  obtain ⟨j, hj, rfl⟩ := List.mem_map.1 hcube
  obtain ⟨m, hm, rfl⟩ := List.mem_range'.1 hj
  have hcell : (Cube.pair (i + 2 * m)).get? x = _ := Cube.get?_pair (by omega) (by omega)
  rw [Row.ofCube, hcell]
  split
  · next h0 => simp [h0]
  · next h0 => simp [h0, hx]

theorem asksPairs_pairRows (h3 : 3 ≤ i) (hi : i + 2 * k ≤ 65536) :
    AsksPairs 3 i (pairRows i k) := by
  induction k generalizing i with
  | zero => exact True.intro
  | succ k ih =>
    refine ⟨fun x hx => ?_, ih (by omega) (by omega)⟩
    have hcell : (Cube.pair i).get? x = _ := Cube.get?_pair h3 (by omega)
    rw [Row.ofCube, hcell, if_neg (by omega)]
    simp [Nat.not_lt_of_le hx]

theorem rows_outgrown (ho : o.numVars = 65) :
    (outgrown o ho).rows = .ofCube .early :: .ofCube .late :: pairRows 3 31 := by
  simp [rows, outgrown, pairRows]

theorem tree_outgrown (ho : o.numVars = 65) : (outgrown o ho).tree = .embed (.pairs 31 3) := by
  have hn : (outgrown o ho).order.numVars.toNat = 65 := congrArg UInt16.toNat ho
  have hfaithful : ∀ row ∈ pairRows 3 31, row.Faithful (outgrown o ho).order.numVars := by
    intro row hrow
    refine (outgrown o ho).faithful_rows row ?_
    rw [rows_outgrown]
    exact List.mem_cons_of_mem _ (List.mem_cons_of_mem _ hrow)
  have hpairs : AsksPairs 3 3 (pairRows 3 31) := asksPairs_pairRows (Nat.le_refl 3) (by decide)
  have hlength : (pairRows 3 31).length = 31 := by simp [pairRows]
  have hcells : ∀ x : Variable, x.toIndex < 3 → ∀ row ∈ pairRows 3 31,
      row.cube.get? x = some (x.toIndex != 0) :=
    fun x hx row hrow => get?_of_mem_pairRows (Nat.le_refl 3) (by decide) hrow hx
  have hasks : ∀ x : Variable, x.toIndex < 3 → ∀ row ∈ pairRows 3 31, ¬row.freeFrom ≤ x.index :=
    fun x hx => hpairs.not_free (Nat.le_refl 3) (by omega) hfaithful (by omega)
  have hmiddle := Tree.ofRows_eq_pairs hpairs (Nat.le_refl 3) hfaithful (by omega)
    (show 3 + 62 = _ from hn.symm)
  rw [hlength] at hmiddle
  rw [tree, hn, rows_outgrown, Tree.ofRows_embed (hcells ⟨0⟩ (by decide)) (hcells ⟨1⟩ (by decide))
    (hcells ⟨2⟩ (by decide)) hasks]
  exact congrArg _ hmiddle

end Cover

namespace Tree

/-! ### The table -/

/-- Without sharing, a decision whose sides come to different ids makes a node. -/
theorem build_branch_of_ne (hids : p.ids = none) (hhigh : high.build p = (h, q))
    (hlow : low.build q = (l, r)) (hne : l ≠ h) (hsize : r.nodes.size = i) (hid : .ofIndex i = id) :
    (branch x high low).build p = (id, (r.push ⟨x, l, h⟩).2) := by
  have hq : q.ids = none := by simpa [hhigh] using high.ids_build_eq_none hids
  have hr : r.ids = none := by simpa [hlow] using low.ids_build_eq_none hq
  rw [build_branch, hhigh, hlow, Pool.intern_of_find?_eq_none hne (Pool.find?_eq_none_of_ids hr),
    ← hid, ← hsize]
  rfl

/-- If the tree in the middle ends at the position after the last id, then its own id is that
of the terminal `0`, and the nodes made after it have ids that were given out before. -/
theorem build_embed (hids : p.ids = none)
    (hbefore : (branch ⟨1⟩ (.leaf false) (.leaf true)).build p = (.ofIndex 2, r))
    (ht : t.build r = (.zero, q)) (hfull : q.nodes.size = 4294967297) :
    (embed t).build p =
      (.ofIndex 4, ((((q.push ⟨⟨3⟩, .zero, .one⟩).2.push ⟨⟨2⟩, .one, .zero⟩).2.push
        ⟨⟨1⟩, .zero, .ofIndex 2⟩).2.push ⟨⟨0⟩, .ofIndex 3, .ofIndex 2⟩).2) := by
  have hr : r.ids = none := by
    have hnone := (branch ⟨1⟩ (.leaf false) (.leaf true)).ids_build_eq_none hids
    rwa [hbefore] at hnone
  have hq : q.ids = none := by simpa [ht] using t.ids_build_eq_none hr
  have hafter : (branch ⟨3⟩ (.leaf true) (.leaf false)).build q =
      (.one, (q.push ⟨⟨3⟩, .zero, .one⟩).2) :=
    build_branch_of_ne hq rfl rfl (by decide) hfull (by decide)
  have hsize : (q.push ⟨⟨3⟩, .zero, .one⟩).2.nodes.size = 4294967298 := by simp [hfull]
  generalize (q.push ⟨⟨3⟩, .zero, .one⟩).2 = q₁ at hafter hsize ⊢
  have hsecond : (branch ⟨2⟩ t (.branch ⟨3⟩ (.leaf true) (.leaf false))).build r =
      (.ofIndex 2, (q₁.push ⟨⟨2⟩, .one, .zero⟩).2) :=
    build_branch_of_ne hr ht hafter (by decide) hsize (by decide)
  have hsize₁ : (q₁.push ⟨⟨2⟩, .one, .zero⟩).2.nodes.size = 4294967299 := by simp [hsize]
  generalize (q₁.push ⟨⟨2⟩, .one, .zero⟩).2 = q₂ at hsecond hsize₁ ⊢
  have hfirst : (branch ⟨1⟩ (.branch ⟨2⟩ t (.branch ⟨3⟩ (.leaf true) (.leaf false)))
      (.leaf false)).build r = (.ofIndex 3, (q₂.push ⟨⟨1⟩, .zero, .ofIndex 2⟩).2) :=
    build_branch_of_ne hr hsecond rfl (by decide) hsize₁ (by decide)
  have hsize₂ : (q₂.push ⟨⟨1⟩, .zero, .ofIndex 2⟩).2.nodes.size = 4294967300 := by simp [hsize₁]
  exact build_branch_of_ne hids hbefore hfirst (by decide) hsize₂ (by decide)

/-- An essential tree that is built on three entries, with two decisions less than there are
ids, ends at the position after the last id. -/
theorem build_of_decisions_eq (ht : t.Ordered o.numVars.toNat i) (hess : t.Essential)
    (hcount : t.decisions = 4294967294) (hp : p.Sound o) (hids : p.ids = none)
    (hsize : p.nodes.size = 3) :
    t.build p = (.zero, (t.build p).2) ∧ (t.build p).2.nodes.size = 4294967297 := by
  have hroot := ht.build_fst_eq hess (by omega) hp hids (by omega)
  have hfull := ht.size_build_eq hess hp hids (by omega)
  rw [hsize, hcount] at hroot hfull
  have hzero : (t.build p).1 = .zero := hroot.trans (by decide)
  exact ⟨Prod.ext hzero rfl, hfull⟩

/-- The table keeps the first of the nodes, and holds one that links to it by mistake. -/
theorem nodes_embed (ht : t.Ordered o.numVars.toNat 3) (hess : t.Essential)
    (hcount : t.decisions = 4294967294) (hp : p.Sound o) (hids : p.ids = none)
    (hsize : p.nodes.size = 2) (hn : 3 < o.numVars.toNat) :
    ((embed t).build p).1 = .ofIndex 4 ∧ ((embed t).build p).2.nodes.size = 4294967301 ∧
      ((embed t).build p).2.nodes[2]? = some ⟨⟨1⟩, .one, .zero⟩ ∧
      ((embed t).build p).2.nodes[4294967299]? = some ⟨⟨1⟩, .zero, .ofIndex 2⟩ := by
  have hx : (⟨1⟩ : Variable).toIndex < o.numVars.toNat := Nat.lt_trans (by decide) hn
  have hordered : (branch ⟨1⟩ (.leaf false) (.leaf true)).Ordered o.numVars.toNat 0 :=
    .branch (Nat.zero_le _) hx (.leaf _ _) (.leaf _ _)
  have hbefore : (branch ⟨1⟩ (.leaf false) (.leaf true)).build p =
      (.ofIndex 2, (p.push ⟨⟨1⟩, .one, .zero⟩).2) :=
    build_branch_of_ne hids rfl rfl (by decide) hsize rfl
  have hthree : (p.push ⟨⟨1⟩, .one, .zero⟩).2.nodes.size = 3 := by simp [hsize]
  have hdelivers := hordered.build (Nat.zero_le _) hp (by rw [hbefore, hthree]; decide)
  rw [hbefore] at hdelivers
  obtain ⟨hmiddle, hfull⟩ :=
    build_of_decisions_eq ht hess hcount hdelivers.sound (by simp [Pool.push, hids]) hthree
  have hkept := extends_build t (p.push ⟨⟨1⟩, .one, .zero⟩).2 2 ⟨⟨1⟩, .one, .zero⟩
    (by rw [Pool.nodes_push, ← hsize, Array.getElem?_push_size])
  rw [build_embed hids hbefore hmiddle hfull]
  generalize (t.build (p.push ⟨⟨1⟩, .one, .zero⟩).2).2 = q at hfull hkept
  refine ⟨rfl, ?_, ?_, ?_⟩
  · simp [hfull]
  · simp only [Pool.nodes_push, Array.size_push, Array.getElem?_push, hfull]
    exact hkept
  · simp only [Pool.nodes_push, Array.size_push, Array.getElem?_push, hfull]
    rfl

end Tree

/-- The table of the cover has five entries more than there are ids.  The node at position
`2 ^ 32 + 3` was to link to the node at position `2 ^ 32 + 2`, but its link has the id of the
node at position 2. -/
theorem Cover.diagram_outgrown (ho : o.numVars = 65) :
    (outgrown o ho).diagram.size = 4294967301 ∧ (outgrown o ho).diagram.root = .ofIndex 4 ∧
      (outgrown o ho).diagram.nodes[2]? = some ⟨⟨1⟩, .one, .zero⟩ ∧
      (outgrown o ho).diagram.nodes[4294967299]? = some ⟨⟨1⟩, .zero, .ofIndex 2⟩ := by
  have hn : o.numVars.toNat = 65 := congrArg UInt16.toNat ho
  have hdecisions := Tree.decisions_pairs 31 3
  have hroom : 3 + 2 * 31 ≤ o.numVars.toNat := by omega
  have htable := Tree.nodes_embed (Tree.ordered_pairs hroom) (Tree.essential_pairs hroom) (by omega)
    (Pool.sound_start o false) (Pool.ids_start_eq_none rfl _) (Pool.size_start _ _) (by omega)
  rw [← tree_outgrown ho] at htable
  rw [← size_build_tree, diagram, expansion_eq_build]
  obtain ⟨hroot, hsize, hnodes⟩ := htable
  exact ⟨hsize, hroot, hnodes⟩

end DecisionDiagram
