import DecisionDiagram.Proofs.Diagram.Routes
import DecisionDiagram.Proofs.Tree.Rows

/-!
# A tree and its routes

A live tree is the decision tree of the cubes of its own routes.  A variable that the tree
passes over is fixed by none of these cubes, one that it decides first is fixed by all of
them, and each side of the decision is left with the cubes of its own routes.  So the
expansion of the cubes retraces the tree, in whatever order they come.
-/

namespace DecisionDiagram

variable {n : UInt16} {k left : Nat} {v x : Variable} {b c : Bool} {t high low : Tree}
  {taken r : Route} {s : Variable × Bool} {rows : List Row}

namespace Tree

/-! ### Routes -/

/-- The routes to the leaves for `true`, the low side of each decision before its high
side. -/
def routes : Tree → List Route
  | leaf false => []
  | leaf true => [[]]
  | branch x high low => low.routes.map ((x, false) :: ·) ++ high.routes.map ((x, true) :: ·)

/-- No decision is taken in vain: from each of them some leaf for `true` can be reached. -/
def Live : Tree → Prop
  | leaf _ => True
  | branch x high low => (branch x high low).routes ≠ [] ∧ high.Live ∧ low.Live

theorem Ordered.mem_range {n : Nat} (ht : t.Ordered n k) (hr : r ∈ t.routes) (hs : s ∈ r) :
    k ≤ s.1.toIndex ∧ s.1.toIndex < n := by
  induction ht generalizing r with
  | leaf k value =>
    cases value with
    | false => cases hr
    | true =>
      rw [List.mem_singleton.1 hr] at hs
      cases hs
  | @branch k x high low hkx hx _ _ ihHigh ihLow =>
    rw [routes, List.mem_append, List.mem_map, List.mem_map] at hr
    rcases hr with ⟨r, hr, rfl⟩ | ⟨r, hr, rfl⟩ <;> rcases List.mem_cons.1 hs with rfl | hs
    · exact ⟨hkx, hx⟩
    · have := ihLow hr hs
      omega
    · exact ⟨hkx, hx⟩
    · have := ihHigh hr hs
      omega

theorem Ordered.sorted {n : Nat} (ht : t.Ordered n k) (hr : r ∈ t.routes) :
    r.Pairwise fun s s' => s.1 < s'.1 := by
  induction ht generalizing r with
  | leaf k value =>
    cases value with
    | false => cases hr
    | true =>
      rw [List.mem_singleton.1 hr]
      exact .nil
  | @branch k x high low hkx hx hth htl ihHigh ihLow =>
    rw [routes, List.mem_append, List.mem_map, List.mem_map] at hr
    rcases hr with ⟨r, hr, rfl⟩ | ⟨r, hr, rfl⟩
    · exact .cons (fun s hs => Variable.lt_iff.2 (htl.mem_range hr hs).1) (ihLow hr)
    · exact .cons (fun s hs => Variable.lt_iff.2 (hth.mem_range hr hs).1) (ihHigh hr)

end Tree

/-! ### The rows of routes -/

/-- The row of a route that goes on after the decisions `taken`. -/
def Route.row (taken r : Route) : Row := .ofCube (.ofValues (taken ++ r))

/-- The decisions of a route come in order and stop before position `k`. -/
structure Route.EndsBefore (r : Route) (k : Nat) : Prop where
  /-- The variables come in order. -/
  sorted : r.Pairwise fun s s' => s.1 < s'.1
  /-- All of them are before the position. -/
  lt : ∀ s ∈ r, s.1.toIndex < k

namespace Route

theorem EndsBefore.mono {j : Nat} (h : taken.EndsBefore k) (hj : k ≤ j) : taken.EndsBefore j :=
  ⟨h.sorted, fun s hs => Nat.lt_of_lt_of_le (h.lt s hs) hj⟩

theorem EndsBefore.concat (h : taken.EndsBefore k) (hx : k ≤ x.toIndex) (b : Bool) :
    EndsBefore (taken ++ [(x, b)]) (x.toIndex + 1) where
  sorted := by
    refine List.pairwise_append.2 ⟨h.sorted, List.pairwise_singleton _ _, ?_⟩
    intro s hs s' hs'
    rw [List.mem_singleton.1 hs', Variable.lt_iff]
    exact Nat.lt_of_lt_of_le (h.lt s hs) hx
  lt := by
    intro s hs
    rcases List.mem_append.1 hs with hs | hs
    · have := h.lt s hs
      omega
    · rw [List.mem_singleton.1 hs]
      exact Nat.lt_succ_self _

/-- The row of a route fixes what was decided before and what the route decides. -/
theorem get?_row (htaken : taken.EndsBefore k) (ht : t.Ordered n.toNat k) (hr : r ∈ t.routes) :
    (row taken r).cube.get? x = some b ↔ (x, b) ∈ taken ++ r := by
  refine get?_ofValues (List.pairwise_append.2 ⟨htaken.sorted, ht.sorted hr, ?_⟩)
  intro s hs s' hs'
  exact Variable.lt_iff.2 (Nat.lt_of_lt_of_le (htaken.lt s hs) (ht.mem_range hr hs').1)

theorem fixes_row (htaken : taken.EndsBefore k) (ht : t.Ordered n.toNat k) (hr : r ∈ t.routes) :
    (row taken r).cube.fixes x ↔ ∃ b, (x, b) ∈ taken ++ r := by
  rw [Cube.fixes, Option.isSome_iff_exists]
  exact exists_congr fun b => get?_row htaken ht hr

/-- The variables that a row fixes from the current position on are those of its route. -/
theorem fixes_row_of_le (htaken : taken.EndsBefore k) (ht : t.Ordered n.toNat k)
    (hr : r ∈ t.routes) (hx : k ≤ x.toIndex) :
    (row taken r).cube.fixes x ↔ ∃ b, (x, b) ∈ r := by
  rw [fixes_row htaken ht hr]
  refine exists_congr fun b => ?_
  rw [List.mem_append, or_iff_right]
  intro hmem
  exact Nat.lt_irrefl _ (Nat.lt_of_lt_of_le (htaken.lt _ hmem) hx)

theorem faithful_row (htaken : taken.EndsBefore k) (ht : t.Ordered n.toNat k) (hk : k ≤ n.toNat)
    (hr : r ∈ t.routes) : (row taken r).Faithful n := by
  refine .ofCube fun x hx => ?_
  obtain ⟨b, hb⟩ := (fixes_row htaken ht hr).1 hx
  rw [UInt16.lt_iff_toNat_lt]
  rcases List.mem_append.1 hb with hb | hb
  · exact Nat.lt_of_lt_of_le (htaken.lt _ hb) hk
  · exact (ht.mem_range hr hb).2

end Route

namespace Tree

/-! ### The tree of the rows of its routes -/

/-- All routes of a branch begin with its decision. -/
theorem exists_cons_of_mem_routes (hr : r ∈ (branch x high low).routes) :
    ∃ b r', r = (x, b) :: r' := by
  rw [routes, List.mem_append, List.mem_map, List.mem_map] at hr
  rcases hr with ⟨r', -, rfl⟩ | ⟨r', -, rfl⟩
  · exact ⟨false, r', rfl⟩
  · exact ⟨true, r', rfl⟩

/-- A row allows a value exactly if its route goes to that side. -/
theorem allows_row (htaken : taken.EndsBefore k) (ht : t.Ordered n.toNat k)
    (hr : (x, c) :: r ∈ t.routes) (b : Bool) :
    (Route.row taken ((x, c) :: r)).allows x b = decide (c = b) := by
  have hget : (Route.row taken ((x, c) :: r)).cube.get? x = some c :=
    (Route.get?_row htaken ht hr).2 (by simp)
  rw [Row.allows, hget]
  cases b <;> cases c <;> rfl

/-- Of the rows through one side, a filter for a value keeps all or none. -/
theorem filter_allows_side (htaken : taken.EndsBefore k) (ht : t.Ordered n.toNat k)
    (rs : List Route) (hrs : ∀ r ∈ rs, (x, c) :: r ∈ t.routes) (b : Bool) :
    (rs.map fun r => Route.row taken ((x, c) :: r)).filter (·.allows x b) =
      if c = b then rs.map (Route.row (taken ++ [(x, c)])) else [] := by
  have hallows : ∀ r ∈ rs, (Route.row taken ((x, c) :: r)).allows x b = decide (c = b) :=
    fun r hr => allows_row htaken ht (hrs r hr) b
  by_cases hcb : c = b
  · rw [if_pos hcb, List.filter_eq_self.2]
    · simp [Route.row]
    · simpa [hcb] using hallows
  · rw [if_neg hcb, List.filter_eq_nil_iff]
    simpa [hcb] using hallows

/-- A side of a branch is left with the rows of its own routes. -/
theorem filter_allows_routes (htaken : taken.EndsBefore k)
    (ht : (branch x high low).Ordered n.toNat k) (b : Bool) :
    ((branch x high low).routes.map (Route.row taken)).filter (·.allows x b) =
      (if b then high else low).routes.map (Route.row (taken ++ [(x, b)])) := by
  have hlow := filter_allows_side htaken ht (x := x) (c := false) low.routes
    (fun r hr => List.mem_append_left _ (List.mem_map_of_mem hr)) b
  have hhigh := filter_allows_side htaken ht (x := x) (c := true) high.routes
    (fun r hr => List.mem_append_right _ (List.mem_map_of_mem hr)) b
  rw [routes, List.map_append, List.filter_append, List.map_map, List.map_map]
  simp only [Function.comp_def, hlow, hhigh]
  cases b <;> simp

section Rows

variable (htaken : taken.EndsBefore k) (hk : k ≤ n.toNat)
include htaken hk

/-- The row of the constant `true` is free from the current position on. -/
theorem freeFrom_row_nil_le (hv : k = v.toIndex) : (Route.row taken []).freeFrom ≤ v.index := by
  have ht : (leaf true).Ordered n.toNat k := .leaf k true
  have hr : [] ∈ (leaf true).routes := List.mem_singleton_self _
  rw [(Route.faithful_row htaken ht hk hr).freeFrom_le_iff]
  intro x hx
  rw [Route.fixes_row_of_le htaken ht hr (hv ▸ Variable.le_iff.1 hx)]
  simp

variable (ht : (branch x high low).Ordered n.toNat k)
  (hrows : rows.Perm ((branch x high low).routes.map (Route.row taken)))
include ht hrows

/-- Every row of a branch fixes its variable, and none an earlier one that comes at the
current position or later. -/
theorem fixes_of_mem_rows {row : Row} (hrow : row ∈ rows) :
    row.Faithful n ∧ row.cube.fixes x ∧
      ∀ y : Variable, k ≤ y.toIndex → row.cube.fixes y → x ≤ y := by
  obtain ⟨r, hr, rfl⟩ := List.mem_map.1 (hrows.mem_iff.1 hrow)
  have hxk : k ≤ x.toIndex := by
    cases ht
    assumption
  refine ⟨Route.faithful_row htaken ht hk hr, ?_, ?_⟩
  · obtain ⟨b, r', rfl⟩ := exists_cons_of_mem_routes hr
    exact (Route.fixes_row_of_le htaken ht hr hxk).2 ⟨b, by simp⟩
  · intro y hy hfix
    obtain ⟨b, hb⟩ := (Route.fixes_row_of_le htaken ht hr hy).1 hfix
    have hx : (branch x high low).Ordered n.toNat x.toIndex := by
      cases ht with
      | branch _ hx hth htl => exact .branch (Nat.le_refl _) hx hth htl
    exact Variable.le_iff.2 (hx.mem_range hr hb).1

/-- An expansion of the rows of a branch does not stop before its variable. -/
theorem not_any_freeFrom_le (hv : v ≤ x) : ¬rows.any (·.freeFrom ≤ v.index) := by
  simp only [List.any_eq_true, decide_eq_true_eq, not_exists, not_and]
  intro row hrow hle
  obtain ⟨hfaithful, hfix, -⟩ := fixes_of_mem_rows htaken hk ht hrows hrow
  exact hfaithful.freeFrom_le_iff.1 hle x hv hfix

/-- It splits on a variable exactly if that is the variable of the branch. -/
theorem any_fixes_iff (hne : rows ≠ []) (hkv : k ≤ v.toIndex) (hv : v ≤ x) :
    rows.any (·.cube.fixes v) ↔ v = x := by
  rw [List.any_eq_true]
  constructor
  · rintro ⟨row, hrow, hfix⟩
    have hle := (fixes_of_mem_rows htaken hk ht hrows hrow).2.2 v hkv hfix
    rw [Variable.le_iff] at hle hv
    exact Variable.toIndex_inj.1 (Nat.le_antisymm hv hle)
  · rintro rfl
    obtain ⟨row, hrow⟩ := List.exists_mem_of_ne_nil rows hne
    exact ⟨row, hrow, (fixes_of_mem_rows htaken hk ht hrows hrow).2.1⟩

end Rows

/-- The decision tree of the rows of the routes of a live tree is that tree, whatever the
order of the rows. -/
theorem ofRows_of_perm (hv : v.toIndex + left = n.toNat) (ht : t.Ordered n.toNat v.toIndex)
    (hlive : t.Live) (htaken : taken.EndsBefore v.toIndex)
    (hrows : rows.Perm (t.routes.map (Route.row taken))) : ofRows left v rows = t := by
  induction left generalizing v t taken rows with
  | zero =>
    cases ht with
    | leaf _ value =>
      cases value with
      | false => rw [List.perm_nil.1 hrows]; rfl
      | true => rw [List.perm_singleton.1 hrows]; rfl
    | branch hvx hx => omega
  | succ left ih =>
    have hlt : v.toIndex < n.toNat := by omega
    have hle := Nat.le_of_lt hlt
    have hsucc := Variable.toIndex_succ hlt
    have hnext : v.succ.toIndex + left = n.toNat := by omega
    cases ht with
    | leaf _ value =>
      cases value with
      | false =>
        rw [List.perm_nil.1 hrows]
        rfl
      | true =>
        have hfree := freeFrom_row_nil_le htaken hle rfl
        rw [List.perm_singleton.1 hrows, ofRows]
        simp [hfree]
    | @branch _ x high low hvx hx hth htl =>
      obtain ⟨hne, hliveHigh, hliveLow⟩ := hlive
      have htx : (branch x high low).Ordered n.toNat v.toIndex := .branch hvx hx hth htl
      have hsome : rows ≠ [] := by
        rintro rfl
        exact hne (List.map_eq_nil_iff.1 (List.nil_perm.1 hrows))
      have hfree := not_any_freeFrom_le htaken hle htx hrows (Variable.le_iff.2 hvx)
      have hfixes := any_fixes_iff htaken hle htx hrows hsome (Nat.le_refl _)
        (Variable.le_iff.2 hvx)
      rw [ofRows, if_neg (by simpa using hsome), if_neg hfree]
      by_cases hxv : v = x
      · -- The variable is decided: each side goes on with its own routes.
        subst hxv
        have hside : ∀ b, (rows.filter (·.allows v b)).Perm
            ((if b then high else low).routes.map (Route.row (taken ++ [(v, b)]))) := by
          intro b
          rw [← filter_allows_routes htaken htx b]
          exact hrows.filter _
        have hends : ∀ b, Route.EndsBefore (taken ++ [(v, b)]) v.succ.toIndex := by
          intro b
          rw [hsucc]
          exact htaken.concat (Nat.le_refl _) b
        rw [if_pos (hfixes.2 rfl),
          ih hnext (hsucc.symm ▸ hth) hliveHigh (hends true) (hside true),
          ih hnext (hsucc.symm ▸ htl) hliveLow (hends false) (hside false)]
      · -- No route decides the variable, so it is passed over.
        have hlater : v.succ.toIndex ≤ x.toIndex := by
          have := mt Variable.toIndex_inj.1 hxv
          omega
        rw [if_neg (mt hfixes.1 hxv)]
        exact ih hnext (.branch hlater hx hth htl) ⟨hne, hliveHigh, hliveLow⟩
          (htaken.mono (by omega)) hrows

end Tree

end DecisionDiagram
