import DecisionDiagram.Proofs.Tree.Essential

/-!
# Parity

The two sides of a decision on a parity function are never the same function: one is the
opposite of the other.  So no decision of a tree for parity is left out, neither by the tree
nor when it is built without sharing, and the table has a node for each node of the full
binary tree.
-/

namespace DecisionDiagram

open Function (update update_self update_of_ne)

/-- The number of variables from position `k` up to `n` that have a property. -/
def countFrom (k n : Nat) (f : Variable → Bool) : Nat :=
  (List.range' k (n - k)).countP fun i => f (.atIndex i)

/-- Whether the number of true variables from position `k` up to `n` is odd. -/
def parity (k n : Nat) (σ : Point) : Bool := countFrom k n σ % 2 == 1

section Parity

variable {k n : Nat} {σ τ : Point} {x : Variable} {b : Bool} {f g : Variable → Bool}

theorem countFrom_congr (hn : n ≤ 65536)
    (h : ∀ x : Variable, k ≤ x.toIndex → x.toIndex < n → f x = g x) :
    countFrom k n f = countFrom k n g := by
  refine List.countP_congr fun i hi => ?_
  obtain ⟨hk, hlt⟩ := List.mem_range'_1.1 hi
  have hidx : (Variable.atIndex i).toIndex = i := Variable.toIndex_atIndex (by omega)
  rw [h _ (by omega) (by omega)]

theorem parity_congr (hn : n ≤ 65536)
    (h : ∀ x : Variable, k ≤ x.toIndex → x.toIndex < n → σ x = τ x) :
    parity k n σ = parity k n τ := by
  rw [parity, parity, countFrom_congr hn h]

/-- Without true variables their number is even. -/
theorem parity_false (k n : Nat) : parity k n (fun _ => false) = false := by
  simp [parity, countFrom]

theorem parity_of_lt (hk : k < n) : parity k n σ = (σ (.atIndex k) ^^ parity (k + 1) n σ) := by
  have hrange : n - k = (n - (k + 1)) + 1 := by omega
  rw [parity, parity, countFrom, countFrom, hrange, List.range'_succ, List.countP_cons]
  cases σ (.atIndex k) with
  | false => simp
  | true =>
    rw [if_pos rfl, Bool.eq_iff_iff]
    simp only [Bool.true_xor, beq_iff_eq, Bool.not_eq_true', beq_eq_false_iff_ne, ne_eq]
    omega

/-- Writing the first variable decides between the parity of the others and its opposite. -/
theorem parity_update (hx : x.toIndex = k) (hk : k < n) (hn : n ≤ 65536) :
    parity k n (update σ x b) = (b ^^ parity (k + 1) n σ) := by
  have hlater : parity (k + 1) n (update σ x b) = parity (k + 1) n σ := by
    refine parity_congr hn fun y hy _ => update_of_ne ?_ _ _
    rintro rfl
    omega
  rw [parity_of_lt hk, hlater, ← hx, x.atIndex_toIndex, update_self]

end Parity

namespace Tree

variable {o : VarOrder} {k n : Nat} {t high low : Tree} {p : Pool} {x : Variable} {b : Bool}

/-! ### Trees for parity -/

/-- A tree for parity or its opposite begins with a decision on the first variable, between
opposite trees for the parity of the others. -/
theorem Ordered.exists_branch_of_parity (ht : t.Ordered n k) (hk : k < n) (hn : n ≤ 65536)
    (h : ∀ σ, t.eval σ = (b ^^ parity k n σ)) :
    ∃ x high low, t = .branch x high low ∧ x.toIndex = k ∧ high.Ordered n (k + 1) ∧
      low.Ordered n (k + 1) ∧ (∀ σ, high.eval σ = (!b ^^ parity (k + 1) n σ)) ∧
      ∀ σ, low.eval σ = (b ^^ parity (k + 1) n σ) := by
  have hfirst : (Variable.atIndex k).toIndex = k := Variable.toIndex_atIndex (by omega)
  have hdepends : ∀ (σ : Point) (c : Bool), t.eval (update σ (.atIndex k) c) =
      (b ^^ (c ^^ parity (k + 1) n σ)) := by
    intro σ c
    rw [h, parity_update hfirst hk hn]
  cases ht with
  | leaf _ value =>
    have hboth := (hdepends (fun _ => false) true).symm.trans (hdepends (fun _ => false) false)
    simp at hboth
  | @branch _ x high low hkx hx hhigh hlow =>
    rcases Nat.eq_or_lt_of_le hkx with rfl | hlt
    · rw [Variable.atIndex_toIndex] at hdepends
      refine ⟨x, high, low, rfl, rfl, hhigh, hlow, fun σ => ?_, fun σ => ?_⟩
      · have hside := hdepends σ true
        rw [eval_branch_update hhigh hlow, if_pos rfl] at hside
        rw [hside]
        simp
      · have hside := hdepends σ false
        rw [eval_branch_update hhigh hlow, if_neg Bool.false_ne_true] at hside
        rw [hside]
        simp
    · -- A tree that begins later does not see the first variable.
      have hlater : (Tree.branch x high low).Ordered n x.toIndex :=
        .branch (Nat.le_refl _) hx hhigh hlow
      have hboth := (hdepends (fun _ => false) true).symm.trans
        ((hlater.eval_update_of_lt (by omega)).trans
          ((hlater.eval_update_of_lt (by omega)).symm.trans (hdepends (fun _ => false) false)))
      simp at hboth

theorem exists_eval_ne_of_parity (hhigh : ∀ σ, high.eval σ = (!b ^^ parity k n σ))
    (hlow : ∀ σ, low.eval σ = (b ^^ parity k n σ)) : ∃ σ, high.eval σ ≠ low.eval σ := by
  refine ⟨fun _ => false, ?_⟩
  rw [hhigh, hlow, parity_false]
  cases b <;> decide

/-- A tree for parity is essential, and it has as many decisions as there are inner nodes in a
full binary tree. -/
theorem Ordered.essential_of_parity (ht : t.Ordered n k) (hk : k ≤ n) (hn : n ≤ 65536)
    (h : ∀ σ, t.eval σ = (b ^^ parity k n σ)) :
    t.Essential ∧ t.decisions + 1 = 2 ^ (n - k) := by
  obtain ⟨left, rfl⟩ := Nat.exists_eq_add_of_le hk
  induction left generalizing k t b with
  | zero =>
    cases ht with
    | leaf => exact ⟨True.intro, by simp [decisions]⟩
    | branch hkx hx => omega
  | succ left ih =>
    obtain ⟨x, high, low, rfl, -, hhigh, hlow, hevalHigh, hevalLow⟩ :=
      ht.exists_branch_of_parity (by omega) hn h
    have hend : k + (left + 1) = k + 1 + left := by omega
    rw [hend] at hhigh hlow hevalHigh hevalLow hn ⊢
    obtain ⟨hessHigh, hcountHigh⟩ := ih hhigh (by omega) hn hevalHigh
    obtain ⟨hessLow, hcountLow⟩ := ih hlow (by omega) hn hevalLow
    refine ⟨⟨exists_eval_ne_of_parity hevalHigh hevalLow, hessHigh, hessLow⟩, ?_⟩
    have hdouble : 2 ^ (k + 1 + left - k) = 2 ^ (k + 1 + left - (k + 1)) * 2 := by
      rw [← Nat.pow_succ]
      congr 1
      omega
    rw [decisions, hdouble]
    omega

/-- Without sharing, a tree for parity makes as many nodes as it has decisions.  The last of
them is its root, which need not have an id of its own. -/
theorem Ordered.build_of_parity (ht : t.Ordered o.numVars.toNat k) (hk : k < o.numVars.toNat)
    (h : ∀ σ, t.eval σ = (b ^^ parity k o.numVars.toNat σ)) (hp : p.Sound o) (hids : p.ids = none)
    (hsize : p.nodes.size + 2 ^ (o.numVars.toNat - k) ≤ 4294967298) :
    (t.build p).2.nodes.size + 1 = p.nodes.size + 2 ^ (o.numVars.toNat - k) ∧
      (t.build p).1 = .ofIndex ((t.build p).2.nodes.size - 1) := by
  have hn := Nat.le_of_lt o.numVars.toNat_lt
  obtain ⟨hess, hcount⟩ := ht.essential_of_parity (Nat.le_of_lt hk) hn h
  have hpow : 2 ^ 1 ≤ 2 ^ (o.numVars.toNat - k) := Nat.pow_le_pow_right (by decide) (by omega)
  have hgrown := ht.size_build_eq hess hp hids (by omega)
  rw [ht.build_fst_eq hess (by omega) hp hids (by omega), hgrown]
  exact ⟨by omega, rfl⟩

end Tree

end DecisionDiagram
