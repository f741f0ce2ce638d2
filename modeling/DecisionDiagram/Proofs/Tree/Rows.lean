import DecisionDiagram.Cover.Expansion
import DecisionDiagram.Proofs.Cube.Agreement
import DecisionDiagram.Proofs.Tree.Basic

/-!
# The decision tree of a cover

The expansion of a list of cubes decides variables before it makes any node, so it
factors: `Tree.ofRows` is the tree of decisions, and `expand` builds that tree.  The
tree is ordered, and it is true at exactly the points that agree with some cube from
the current variable on.
-/

namespace DecisionDiagram

/-- A row is faithful if it is made from a cube that stays within the first `n`
variables. -/
structure Row.Faithful (n : UInt16) (row : Row) : Prop where
  /-- The free position was computed from the cube. -/
  eq_ofCube : row = .ofCube row.cube
  /-- The cube fixes variables of the order only. -/
  within : row.cube.Within n

variable {n : UInt16} {c : Cube} {row : Row} {rows : List Row} {k left : Nat} {v x : Variable}
  {σ : Point}

theorem Variable.toIndex_succ (h : v.toIndex < n.toNat) : v.succ.toIndex = v.toIndex + 1 := by
  have := n.toNat_lt
  simp only [Variable.succ, Variable.toIndex, UInt16.toNat_add, UInt16.toNat_one] at *
  omega

namespace Row.Faithful

theorem ofCube (h : c.Within n) : (Row.ofCube c).Faithful n := ⟨rfl, h⟩

/-- The free position of a row tells from where on its cube fixes no variable. -/
theorem freeFrom_le_iff (h : row.Faithful n) :
    row.freeFrom ≤ v.index ↔ ∀ x, v ≤ x → ¬row.cube.fixes x := by
  have hfree : row.freeFrom = (Row.ofCube row.cube).freeFrom := congrArg Row.freeFrom h.eq_ofCube
  rw [hfree, Row.ofCube]
  cases hl : row.cube.lastFixed? with
  | none =>
    have hnone := Cube.lastFixed?_eq_none_iff.1 hl
    simp [hnone, UInt16.le_iff_toNat_le]
  | some last =>
    obtain ⟨hfix, hlater⟩ := Cube.fixes_of_lastFixed?_eq_some hl
    have hlt : last.toIndex < n.toNat := UInt16.lt_iff_toNat_lt.1 (h.within last hfix)
    have hsucc : (last.index + 1).toNat = last.toIndex + 1 := Variable.toIndex_succ hlt
    simp only [UInt16.le_iff_toNat_le, hsucc]
    constructor
    · intro hv x hx
      refine hlater x (Variable.lt_iff.2 ?_)
      exact Nat.lt_of_lt_of_le hv (Variable.le_iff.1 hx)
    · intro hv
      refine Nat.lt_of_not_le fun hle => ?_
      exact hv last (Variable.le_iff.2 hle) hfix

/-- Beyond the variables of the order there is nothing to agree with. -/
theorem agreesFrom (h : row.Faithful n) (hk : n.toNat ≤ k) : row.cube.AgreesFrom k σ := by
  intro x b hx hb
  have hfix : row.cube.fixes x := by simp [Cube.fixes, hb]
  have hlt : x.toIndex < n.toNat := UInt16.lt_iff_toNat_lt.1 (h.within x hfix)
  omega

end Row.Faithful

/-- Agreement from a variable on is agreement at the variable and after it. -/
theorem Row.agreesFrom_iff (hv : v.toIndex < n.toNat) :
    row.cube.AgreesFrom v.toIndex σ ↔
      row.allows v (σ v) = true ∧ row.cube.AgreesFrom v.succ.toIndex σ := by
  rw [Variable.toIndex_succ hv]
  constructor
  · intro h
    refine ⟨?_, fun x b hx => h x b (by omega)⟩
    have := h v (!σ v) (Nat.le_refl _)
    simpa [Row.allows] using this
  · rintro ⟨hallows, h⟩ x b hx hb
    rcases Nat.eq_or_lt_of_le hx with heq | hlt
    · obtain rfl := Variable.toIndex_inj.1 heq
      have hne : some b ≠ some (!σ v) := by simpa [Row.allows, hb] using hallows
      cases hσ : σ v <;> cases b <;> simp_all
    · exact h x b hlt hb

theorem Row.allows_of_not_fixes (h : row.cube.fixes v = false) (b : Bool) :
    row.allows v b = true := by
  simp only [Cube.fixes, Option.isSome_eq_false_iff, Option.isNone_iff_eq_none] at h
  simp [Row.allows, h]

/-- Some cube agrees from a variable on if some cube that allows the value of the variable
agrees after it. -/
theorem exists_agreesFrom_iff (hv : v.toIndex < n.toNat) :
    (∃ row ∈ rows, row.cube.AgreesFrom v.toIndex σ) ↔
      ∃ row ∈ rows.filter (·.allows v (σ v)), row.cube.AgreesFrom v.succ.toIndex σ := by
  simp only [Row.agreesFrom_iff hv, List.mem_filter, and_assoc]

theorem faithful_filter (hrows : ∀ row ∈ rows, row.Faithful n) (v : Variable) (b : Bool) :
    ∀ row ∈ rows.filter (·.allows v b), row.Faithful n :=
  fun row hrow => hrows row (List.mem_filter.1 hrow).1

/-- At the end of the order all cubes agree. -/
theorem exists_agreesFrom_end (hrows : ∀ row ∈ rows, row.Faithful n) (hv : n.toNat ≤ v.toIndex) :
    (∃ row ∈ rows, row.cube.AgreesFrom v.toIndex σ) ↔ rows ≠ [] := by
  constructor
  · rintro ⟨row, hrow, -⟩
    exact List.ne_nil_of_mem hrow
  · intro hne
    obtain ⟨row, hrow⟩ := List.exists_mem_of_ne_nil rows hne
    exact ⟨row, hrow, (hrows row hrow).agreesFrom hv⟩

namespace Tree

/-- The decisions that an expansion takes on the cubes from variable `v` on, with
`left` variables to go. -/
def ofRows : (left : Nat) → (v : Variable) → (rows : List Row) → Tree
  | 0, _, rows => .leaf (!rows.isEmpty)
  | left + 1, v, rows =>
    if rows.isEmpty then .leaf false
    else if rows.any (·.freeFrom ≤ v.index) then .leaf true
    else if rows.any (·.cube.fixes v) then
      .branch v (ofRows left v.succ (rows.filter (·.allows v true)))
        (ofRows left v.succ (rows.filter (·.allows v false)))
    else ofRows left v.succ rows

theorem ofRows_nil (left : Nat) (v : Variable) : ofRows left v [] = .leaf false := by
  cases left <;> rfl

theorem ofRows_of_free (hrow : row ∈ rows) (hfree : row.freeFrom ≤ v.index) :
    ofRows left v rows = .leaf true := by
  have hne : ¬rows.isEmpty := by simpa using List.ne_nil_of_mem hrow
  cases left with
  | zero => simp [ofRows, hne]
  | succ left =>
    rw [ofRows, if_neg hne, if_pos (List.any_eq_true.2 ⟨row, hrow, by simpa using hfree⟩)]

theorem ofRows_of_fixes (hasks : ∀ row ∈ rows, ¬row.freeFrom ≤ v.index) (hrow : row ∈ rows)
    (hfix : row.cube.fixes v) :
    ofRows (left + 1) v rows = .branch v (ofRows left v.succ (rows.filter (·.allows v true)))
      (ofRows left v.succ (rows.filter (·.allows v false))) := by
  have hne : ¬rows.isEmpty := by simpa using List.ne_nil_of_mem hrow
  rw [ofRows, if_neg hne, if_neg (by simpa using hasks),
    if_pos (List.any_eq_true.2 ⟨row, hrow, hfix⟩)]

theorem ofRows_of_not_fixes (hasks : ∀ row ∈ rows, ¬row.freeFrom ≤ v.index)
    (hnone : ∀ row ∈ rows, row.cube.fixes v = false) :
    ofRows (left + 1) v rows = ofRows left v.succ rows := by
  cases rows with
  | nil => rw [ofRows_nil, ofRows_nil]
  | cons row rest =>
    rw [ofRows, if_neg (by simp), if_neg (by simpa using hasks), if_neg (by simpa using hnone)]

/-- What the tree for some cubes can be while there are variables to go: a constant if
there are no cubes or one is free, and otherwise a decision on the next variable, which
is left out if no cube fixes it. -/
theorem ofRows_succ_cases (left : Nat) (v : Variable) (rows : List Row) :
    (rows = [] ∧ ofRows (left + 1) v rows = .leaf false) ∨
    ((∃ row ∈ rows, row.freeFrom ≤ v.index) ∧ ofRows (left + 1) v rows = .leaf true) ∨
    ofRows (left + 1) v rows = .branch v (ofRows left v.succ (rows.filter (·.allows v true)))
      (ofRows left v.succ (rows.filter (·.allows v false))) ∨
    ((∀ row ∈ rows, row.cube.fixes v = false) ∧
      ofRows (left + 1) v rows = ofRows left v.succ rows) := by
  by_cases hempty : rows = []
  · subst hempty
    exact .inl ⟨rfl, ofRows_nil _ _⟩
  by_cases hfree : ∃ row ∈ rows, row.freeFrom ≤ v.index
  · obtain ⟨row, hrow, hle⟩ := hfree
    exact .inr (.inl ⟨⟨row, hrow, hle⟩, ofRows_of_free hrow hle⟩)
  have hasks : ∀ row ∈ rows, ¬row.freeFrom ≤ v.index := fun row hrow hle => hfree ⟨row, hrow, hle⟩
  by_cases hfixes : ∃ row ∈ rows, row.cube.fixes v
  · obtain ⟨row, hrow, hfix⟩ := hfixes
    exact .inr (.inr (.inl (ofRows_of_fixes hasks hrow hfix)))
  · have hnone : ∀ row ∈ rows, row.cube.fixes v = false := by simpa using hfixes
    exact .inr (.inr (.inr ⟨hnone, ofRows_of_not_fixes hasks hnone⟩))

/-- The expansion of cubes builds their decision tree. -/
theorem expand_eq_build (left : Nat) (v : Variable) (rows : List Row) (p : Pool) :
    Cover.expand left v rows p = (ofRows left v rows).build p := by
  induction left generalizing v rows p with
  | zero => rfl
  | succ left ih =>
    simp only [Cover.expand, ofRows]
    split
    · rfl
    · split
      · rfl
      · split
        · rw [build_branch, ih, ih]
        · exact ih _ _ _

theorem ordered_ofRows (h : v.toIndex + left = n.toNat) :
    (ofRows left v rows).Ordered n.toNat v.toIndex := by
  induction left generalizing v rows with
  | zero => exact .leaf _ _
  | succ left ih =>
    have hv : v.toIndex < n.toNat := by omega
    have hsucc := Variable.toIndex_succ hv
    have hrest : v.succ.toIndex + left = n.toNat := by omega
    rcases ofRows_succ_cases left v rows with ⟨-, h⟩ | ⟨-, h⟩ | h | ⟨-, h⟩ <;> rw [h]
    · exact .leaf _ _
    · exact .leaf _ _
    · exact .branch (Nat.le_refl _) hv (hsucc ▸ ih hrest) (hsucc ▸ ih hrest)
    · exact (ih hrest).mono (by omega)

/-- The tree is true where some cube agrees from the current variable on. -/
theorem eval_ofRows (h : v.toIndex + left = n.toNat) (hrows : ∀ row ∈ rows, row.Faithful n) :
    (ofRows left v rows).eval σ = true ↔ ∃ row ∈ rows, row.cube.AgreesFrom v.toIndex σ := by
  induction left generalizing v rows with
  | zero =>
    rw [exists_agreesFrom_end hrows (by omega)]
    simp [ofRows, eval]
  | succ left ih =>
    have hv : v.toIndex < n.toNat := by omega
    have hrest : v.succ.toIndex + left = n.toNat := by rw [Variable.toIndex_succ hv]; omega
    have hside := faithful_filter hrows v
    rcases ofRows_succ_cases left v rows with
      ⟨rfl, h⟩ | ⟨⟨row, hrow, hfree⟩, h⟩ | h | ⟨hfixes, h⟩ <;> rw [h]
    · simp [eval]
    · have hnone := (hrows row hrow).freeFrom_le_iff.1 hfree
      refine ⟨fun _ => ⟨row, hrow, fun x b hx hb => ?_⟩, fun _ => rfl⟩
      exact absurd (by simp [Cube.fixes, hb]) (hnone x (Variable.le_iff.2 hx))
    · rw [exists_agreesFrom_iff hv, eval]
      cases σ v with
      | true => exact ih hrest (hside true)
      | false => exact ih hrest (hside false)
    · have hall : rows.filter (·.allows v (σ v)) = rows := by
        refine List.filter_eq_self.2 fun row hrow => ?_
        exact Row.allows_of_not_fixes (hfixes row hrow) _
      rw [exists_agreesFrom_iff hv, hall]
      exact ih hrest hrows

end Tree

end DecisionDiagram
