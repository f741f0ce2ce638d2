import DecisionDiagram.Proofs.Tree.Essential
import DecisionDiagram.Proofs.Tree.Rows

/-!
# Pairs of variables

The function that is true if both variables of one of `k` neighbouring pairs are true has
only `k` cubes.  But what is left to ask after a pair has failed does not depend on which of
its variables was false, and without sharing it is asked anew for each of the two.  So the
tree of these few cubes has `2 ^ (k + 1) - 2` decisions, and all of them are essential.
-/

namespace DecisionDiagram

open Function (update update_self update_of_ne)

variable {n : UInt16} {s i left : Nat} {x : Variable} {row : Row} {rows : List Row}

@[simp] theorem Variable.succ_atIndex (i : Nat) : (atIndex i).succ = atIndex (i + 1) := by
  simp [succ, atIndex]

/-! ### Rows that ask for pairs -/

/-- From position `s` on, the first row asks just for the variables at positions `i` and
`i + 1` to be true, the next for the two after these, and so on. -/
def AsksPairs (s : Nat) : (i : Nat) → List Row → Prop
  | _, [] => True
  | i, row :: rows =>
    (∀ x : Variable, s ≤ x.toIndex →
      row.cube.get? x = if x.toIndex = i ∨ x.toIndex = i + 1 then some true else none) ∧
    AsksPairs s (i + 2) rows

namespace AsksPairs

/-- Each row asks for a pair of its own. -/
theorem exists_pair (h : AsksPairs s i rows) (hrow : row ∈ rows) :
    ∃ j, i ≤ j ∧ j + 2 ≤ i + 2 * rows.length ∧ ∀ x : Variable, s ≤ x.toIndex →
      row.cube.get? x = if x.toIndex = j ∨ x.toIndex = j + 1 then some true else none := by
  induction rows generalizing i with
  | nil => cases hrow
  | cons row' rows ih =>
    rw [List.length_cons]
    rcases List.mem_cons.1 hrow with rfl | hrow
    · exact ⟨i, Nat.le_refl i, by omega, h.1⟩
    · obtain ⟨j, hij, hj, hcell⟩ := ih h.2 hrow
      exact ⟨j, by omega, by omega, hcell⟩

/-- No row asks for a variable before the first pair. -/
theorem not_fixes (h : AsksPairs s i rows) (hrow : row ∈ rows) (hs : s ≤ x.toIndex)
    (hi : x.toIndex < i) : row.cube.fixes x = false := by
  obtain ⟨j, hij, -, hcell⟩ := h.exists_pair hrow
  rw [Cube.fixes, hcell x hs, if_neg (by omega)]
  rfl

/-- No row asks for a variable to be false. -/
theorem allows_true (h : AsksPairs s i rows) (hrow : row ∈ rows) (hs : s ≤ x.toIndex) :
    row.allows x true = true := by
  obtain ⟨j, -, -, hcell⟩ := h.exists_pair hrow
  rw [Row.allows, hcell x hs]
  split <;> rfl

/-- Each row has something to ask after the first variable of the first pair. -/
theorem exists_fixes (h : AsksPairs s i rows) (hs : s ≤ i) (hroom : i + 2 * rows.length ≤ 65536)
    (hrow : row ∈ rows) : ∃ x : Variable, i < x.toIndex ∧ row.cube.fixes x := by
  obtain ⟨j, hij, hj, hcell⟩ := h.exists_pair hrow
  have hidx : (Variable.atIndex (j + 1)).toIndex = j + 1 := Variable.toIndex_atIndex (by omega)
  refine ⟨.atIndex (j + 1), by omega, ?_⟩
  rw [Cube.fixes, hcell _ (by omega), if_pos (.inr hidx)]
  rfl

/-- So none of the rows is free there. -/
theorem not_free (h : AsksPairs s i rows) (hs : s ≤ i) (hroom : i + 2 * rows.length ≤ 65536)
    (hrows : ∀ row ∈ rows, row.Faithful n) (hx : x.toIndex ≤ i + 1) :
    ∀ row ∈ rows, ¬row.freeFrom ≤ x.index := by
  intro row hrow hfree
  obtain ⟨y, hy, hfix⟩ := h.exists_fixes hs hroom hrow
  exact (hrows row hrow).freeFrom_le_iff.1 hfree y (Variable.le_iff.2 (by omega)) hfix

theorem filter_true (h : AsksPairs s i rows) (hs : s ≤ x.toIndex) :
    rows.filter (·.allows x true) = rows :=
  List.filter_eq_self.2 fun _ hrow => h.allows_true hrow hs

/-- The first row does not allow a variable of its pair to be false. -/
theorem filter_false (h : AsksPairs s i (row :: rows)) (hs : s ≤ x.toIndex)
    (hx : x.toIndex = i ∨ x.toIndex = i + 1) :
    (row :: rows).filter (·.allows x false) = rows := by
  rw [List.filter_cons_of_neg (by rw [Row.allows, h.1 x hs, if_pos hx]; decide)]
  refine List.filter_eq_self.2 fun row' hrow' => ?_
  exact Row.allows_of_not_fixes (h.2.not_fixes hrow' hs (by omega)) _

/-- Each variable of the first pair is decided between all rows and those after the first. -/
theorem ofRows_cons (h : AsksPairs s i (row :: rows)) (hs : s ≤ i)
    (hroom : i + 2 * (row :: rows).length ≤ 65536) (hrows : ∀ r ∈ row :: rows, r.Faithful n)
    (hx : x.toIndex = i ∨ x.toIndex = i + 1) :
    Tree.ofRows (left + 1) x (row :: rows) = .branch x (Tree.ofRows left x.succ (row :: rows))
      (Tree.ofRows left x.succ rows) := by
  have hfix : row.cube.fixes x := by
    rw [Cube.fixes, h.1 x (by omega), if_pos hx]
    rfl
  rw [Tree.ofRows_of_fixes (h.not_free hs hroom hrows (by omega)) List.mem_cons_self hfix,
    h.filter_true (by omega), h.filter_false (by omega) hx]

end AsksPairs

namespace Tree

variable {k : Nat}

/-! ### The tree for pairs -/

/-- Whether both variables of one of the `k` pairs from position `i` on are true. -/
def pairs : (k : Nat) → (i : Nat) → Tree
  | 0, _ => .leaf false
  | k + 1, i =>
    .branch (.atIndex i) (.branch (.atIndex (i + 1)) (.leaf true) (pairs k (i + 2)))
      (pairs k (i + 2))

theorem decisions_pairs (k i : Nat) : (pairs k i).decisions + 2 = 2 ^ (k + 1) := by
  induction k generalizing i with
  | zero => rfl
  | succ k ih =>
    have hrest := ih (i + 2)
    rw [pairs, decisions, decisions, decisions, Nat.pow_succ]
    omega

theorem ordered_pairs (hroom : i + 2 * k ≤ n.toNat) : (pairs k i).Ordered n.toNat i := by
  have hn := n.toNat_lt
  induction k generalizing i with
  | zero => exact .leaf _ _
  | succ k ih =>
    have hfirst : (Variable.atIndex i).toIndex = i := Variable.toIndex_atIndex (by omega)
    have hsecond : (Variable.atIndex (i + 1)).toIndex = i + 1 := Variable.toIndex_atIndex (by omega)
    have hrest : (pairs k (i + 2)).Ordered n.toNat (i + 2) := ih (by omega)
    refine .branch (by omega) (by omega) ?_ (hrest.mono (by omega))
    exact .branch (by omega) (by omega) (.leaf _ _) (hrest.mono (by omega))

theorem eval_pairs_false (k i : Nat) : (pairs k i).eval (fun _ => false) = false := by
  induction k generalizing i with
  | zero => rfl
  | succ k ih =>
    rw [pairs, eval, if_neg Bool.false_ne_true, ih]

/-- If only the second variable of the first pair is true, then the other one decides. -/
theorem essential_pairs (hroom : i + 2 * k ≤ n.toNat) : (pairs k i).Essential := by
  have hn := n.toNat_lt
  induction k generalizing i with
  | zero => exact True.intro
  | succ k ih =>
    have hrest : (pairs k (i + 2)).Essential := ih (by omega)
    have hordered : (pairs k (i + 2)).Ordered n.toNat (i + 2) := ordered_pairs (by omega)
    have hsecond : (Variable.atIndex (i + 1)).toIndex = i + 1 := Variable.toIndex_atIndex (by omega)
    let σ : Point := update (fun _ => false) (.atIndex (i + 1)) true
    have hlow : (pairs k (i + 2)).eval σ = false := by
      rw [← eval_pairs_false k (i + 2)]
      refine hordered.eval_congr fun x hx _ => update_of_ne ?_ true fun _ => false
      rintro rfl
      omega
    refine ⟨⟨σ, ?_⟩, ⟨⟨fun _ => false, ?_⟩, True.intro, hrest⟩, hrest⟩
    · have hhigh : σ (.atIndex (i + 1)) = true := update_self _ _ _
      rw [eval, if_pos hhigh, hlow]
      exact Bool.noConfusion
    · rw [eval_pairs_false]
      exact Bool.noConfusion

/-- Rows that ask for pairs have the tree for pairs. -/
theorem ofRows_eq_pairs (hpairs : AsksPairs s i rows) (hs : s ≤ i)
    (hrows : ∀ row ∈ rows, row.Faithful n) (hroom : i + 2 * rows.length ≤ n.toNat)
    (hleft : i + left = n.toNat) : ofRows left (.atIndex i) rows = pairs rows.length i := by
  have hn := n.toNat_lt
  induction rows generalizing i left with
  | nil => exact ofRows_nil _ _
  | cons row rows ih =>
    have hfew : i + 2 * (row :: rows).length ≤ 65536 := by omega
    rw [List.length_cons] at hroom
    obtain ⟨left, rfl⟩ : ∃ l, left = l + 2 := ⟨left - 2, by omega⟩
    have hfirst : (Variable.atIndex i).toIndex = i := Variable.toIndex_atIndex (by omega)
    have hsecond : (Variable.atIndex (i + 1)).toIndex = i + 1 := Variable.toIndex_atIndex (by omega)
    have hthird : (Variable.atIndex (i + 2)).toIndex = i + 2 := Variable.toIndex_atIndex (by omega)
    have hrowsRest : ∀ r ∈ rows, r.Faithful n := fun r hr => hrows r (List.mem_cons_of_mem _ hr)
    have hrest : ofRows left (.atIndex (i + 2)) rows = pairs rows.length (i + 2) :=
      ih hpairs.2 (by omega) hrowsRest (by omega) (by omega)
    -- After its pair the first row has nothing more to ask, and the others skip the pair.
    have hdone : ofRows left (.atIndex (i + 2)) (row :: rows) = .leaf true := by
      refine ofRows_of_free List.mem_cons_self ((hrows row List.mem_cons_self).freeFrom_le_iff.2 ?_)
      intro x hx
      have hlater := Variable.le_iff.1 hx
      rw [Cube.fixes, hpairs.1 x (by omega), if_neg (by omega)]
      decide
    have hskip : ofRows (left + 1) (.atIndex (i + 1)) rows = pairs rows.length (i + 2) := by
      rw [ofRows_of_not_fixes (hpairs.2.not_free (by omega) (by omega) hrowsRest (by omega))
        fun r hr => hpairs.2.not_fixes hr (by omega) (by omega), Variable.succ_atIndex, hrest]
    rw [hpairs.ofRows_cons hs hfew hrows (.inl hfirst), Variable.succ_atIndex, hskip,
      hpairs.ofRows_cons hs hfew hrows (.inr hsecond), Variable.succ_atIndex, hdone, hrest]
    rfl

end Tree

end DecisionDiagram
