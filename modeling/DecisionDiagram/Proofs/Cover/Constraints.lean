import DecisionDiagram.Proofs.Cover.Function

/-!
# Covers with the same constraints

Two cubes ask for the same if they fix the same variables to the same values, whatever
their lists of cells.  A construction sees its cubes only by asking whether some of them
have a property that says what is asked for, and by leaving those out that do not.  So
covers over one order whose cubes ask for the same, in any order and any number of times,
have one decision tree, and the constructions agree in every step, with or without sharing.
-/

namespace DecisionDiagram

variable {c c' : Cube} {row row' : Row} {rows rows' : List Row}

/-! ### Cubes and rows that ask for the same -/

/-- The cubes fix the same variables to the same values. -/
def Cube.Same (c c' : Cube) : Prop := ∀ x, c.get? x = c'.get? x

theorem Cube.Same.refl (c : Cube) : c.Same c := fun _ => rfl

theorem Cube.Same.symm (h : c.Same c') : c'.Same c := fun x => (h x).symm

theorem Cube.Same.fixes_eq (h : c.Same c') (x : Variable) : c.fixes x = c'.fixes x := by
  rw [fixes, fixes, h x]

/-- Freeing a variable that is free only makes the list of cells longer. -/
theorem Cube.Same.unset {v : Variable} (h : c.get? v = none) : c.Same (c.unset v) := by
  intro x
  rw [get?_unset]
  split
  · next hx => rw [hx, h]
  · rfl

/-- The last fixed variable does not depend on free cells at the end. -/
theorem Cube.Same.lastFixed?_eq (h : c.Same c') : c.lastFixed? = c'.lastFixed? := by
  cases hlast : c.lastFixed? with
  | none =>
    have hnone := lastFixed?_eq_none_iff.1 hlast
    simp only [h.fixes_eq] at hnone
    exact (lastFixed?_eq_none_iff.2 hnone).symm
  | some last =>
    obtain ⟨hfix, hlater⟩ := fixes_of_lastFixed?_eq_some hlast
    simp only [h.fixes_eq] at hfix hlater
    cases hlast' : c'.lastFixed? with
    | none => exact absurd hfix (lastFixed?_eq_none_iff.1 hlast' last)
    | some last' =>
      obtain ⟨hfix', hlater'⟩ := fixes_of_lastFixed?_eq_some hlast'
      -- Neither of the two can come after the other, since both are fixed.
      have hle : last'.toIndex ≤ last.toIndex :=
        Nat.le_of_not_lt fun hlt => hlater last' (Variable.lt_iff.2 hlt) hfix'
      have hge : last.toIndex ≤ last'.toIndex :=
        Nat.le_of_not_lt fun hlt => hlater' last (Variable.lt_iff.2 hlt) hfix
      rw [Variable.toIndex_inj.1 (Nat.le_antisymm hge hle)]

/-- The rows have cubes that ask for the same, up to the same position. -/
structure Row.Same (row row' : Row) : Prop where
  /-- The cubes ask for the same. -/
  cube : row.cube.Same row'.cube
  /-- The free positions are equal. -/
  freeFrom_eq : row.freeFrom = row'.freeFrom

namespace Row.Same

theorem ofCube (h : c.Same c') : (Row.ofCube c).Same (.ofCube c') where
  cube := h
  freeFrom_eq := by simp only [Row.ofCube, h.lastFixed?_eq]

theorem allows_eq (h : row.Same row') (v : Variable) (b : Bool) :
    row.allows v b = row'.allows v b := by
  rw [allows, allows, h.cube v]

end Row.Same

/-- What one list of rows asks for the other asks for as well. -/
structure SameRows (rows rows' : List Row) : Prop where
  /-- Each row of the first list has its like in the second. -/
  mem : ∀ row ∈ rows, ∃ row' ∈ rows', row.Same row'
  /-- Each row of the second list has its like in the first. -/
  mem' : ∀ row' ∈ rows', ∃ row ∈ rows, row'.Same row

namespace SameRows

theorem symm (h : SameRows rows rows') : SameRows rows' rows := ⟨h.mem', h.mem⟩

/-- Whether some row has a property is the same for both lists, if the property says what is
asked for. -/
theorem any_eq (h : SameRows rows rows') {p : Row → Bool}
    (hp : ∀ row row' : Row, row.Same row' → p row = p row') : rows.any p = rows'.any p := by
  have himp : ∀ {l l' : List Row}, SameRows l l' → l.any p → l'.any p := by
    intro l l' h hany
    obtain ⟨row, hrow, hprow⟩ := List.any_eq_true.1 hany
    obtain ⟨row', hrow', hsame⟩ := h.mem row hrow
    exact List.any_eq_true.2 ⟨row', hrow', hp row row' hsame ▸ hprow⟩
  rw [Bool.eq_iff_iff]
  exact ⟨himp h, himp h.symm⟩

theorem isEmpty_eq (h : SameRows rows rows') : rows.isEmpty = rows'.isEmpty := by
  have hany := h.any_eq (p := fun _ => true) fun _ _ _ => rfl
  cases rows <;> cases rows' <;> simp_all

theorem freeFrom_eq (h : SameRows rows rows') (v : Variable) :
    rows.any (·.freeFrom ≤ v.index) = rows'.any (·.freeFrom ≤ v.index) := by
  refine h.any_eq fun row row' hsame => ?_
  rw [hsame.freeFrom_eq]

theorem fixes_eq (h : SameRows rows rows') (v : Variable) :
    rows.any (·.cube.fixes v) = rows'.any (·.cube.fixes v) :=
  h.any_eq fun _ _ hsame => hsame.cube.fixes_eq v

/-- A value of a variable leaves rows that ask for the same. -/
theorem filter_allows (h : SameRows rows rows') (v : Variable) (b : Bool) :
    SameRows (rows.filter (·.allows v b)) (rows'.filter (·.allows v b)) := by
  have hmem : ∀ {l l' : List Row}, SameRows l l' →
      ∀ row ∈ l.filter (·.allows v b), ∃ row' ∈ l'.filter (·.allows v b), row.Same row' := by
    intro l l' h row hrow
    obtain ⟨hrow, hallows⟩ := List.mem_filter.1 hrow
    obtain ⟨row', hrow', hsame⟩ := h.mem row hrow
    exact ⟨row', List.mem_filter.2 ⟨hrow', hsame.allows_eq v b ▸ hallows⟩, hsame⟩
  exact ⟨hmem h, hmem h.symm⟩

/-- Rows that ask for the same have one decision tree. -/
theorem ofRows_eq (h : SameRows rows rows') (left : Nat) (v : Variable) :
    Tree.ofRows left v rows = Tree.ofRows left v rows' := by
  induction left generalizing v rows rows' with
  | zero => rw [Tree.ofRows, Tree.ofRows, h.isEmpty_eq]
  | succ left ih =>
    rw [Tree.ofRows, Tree.ofRows, h.isEmpty_eq, h.freeFrom_eq v, h.fixes_eq v,
      ih (h.filter_allows v true), ih (h.filter_allows v false), ih h]

end SameRows

/-! ### The log of a construction -/

/-- All that was logged so far are single steps. -/
def Pool.Traced (p : Pool) : Prop := ∀ event ∈ p.events, event.severity = .trace

theorem Pool.traced_start (n : UInt16) (sharing : Bool) : (start n sharing).Traced := by
  simp [Traced, start]

theorem Pool.Traced.intern {p : Pool} (hp : p.Traced) (x : Variable) (low high : NodeId) :
    (p.intern x low high).2.Traced := by
  have hpush : ∀ event : Event, event.severity = .trace →
      ∀ event' ∈ p.events.push event, event'.severity = .trace := by
    intro event hevent event' hmem
    rcases Array.mem_push.1 hmem with hmem | rfl
    · exact hp event' hmem
    · exact hevent
  rcases p.intern_cases x low high with ⟨-, h⟩ | ⟨-, id, -, h⟩ | ⟨-, -, h⟩ <;> rw [h]
  · exact hpush _ rfl
  · exact hpush _ rfl
  · exact hpush _ rfl

theorem Tree.traced_build (t : Tree) {p : Pool} (hp : p.Traced) : (t.build p).2.Traced := by
  induction t generalizing p with
  | leaf value => exact hp
  | branch x high low ihHigh ihLow =>
    rw [build_branch]
    exact (ihLow (ihHigh hp)).intern x _ _

namespace Cover

variable {c c' : Cover}

/-- Whatever one cover asks for the other asks for as well. -/
structure SameConstraints (c c' : Cover) : Prop where
  /-- Each cube of the first cover has its like in the second. -/
  mem : ∀ cube ∈ c.cubes, ∃ cube' ∈ c'.cubes, cube.Same cube'
  /-- Each cube of the second cover has its like in the first. -/
  mem' : ∀ cube' ∈ c'.cubes, ∃ cube ∈ c.cubes, cube'.Same cube

theorem SameConstraints.sameRows (h : c.SameConstraints c') : SameRows c.rows c'.rows := by
  have hmem : ∀ {c c' : Cover},
      (∀ cube ∈ c.cubes, ∃ cube' ∈ c'.cubes, cube.Same cube') →
      ∀ row ∈ c.rows, ∃ row' ∈ c'.rows, row.Same row' := by
    intro c c' h row hrow
    obtain ⟨cube, hcube, rfl⟩ := List.mem_map.1 hrow
    obtain ⟨cube', hcube', hsame⟩ := h cube (Array.mem_toList_iff.1 hcube)
    exact ⟨.ofCube cube', List.mem_map_of_mem (Array.mem_toList_iff.2 hcube'), .ofCube hsame⟩
  exact ⟨hmem h.mem, hmem h.mem'⟩

/-- Covers with the same constraints have the same expansion. -/
theorem SameConstraints.expansion_eq (h : c.SameConstraints c') (ho : c.order = c'.order)
    (hs : c.sharing = c'.sharing) : c.expansion = c'.expansion := by
  rw [expansion_eq_build, expansion_eq_build, tree, tree, ho, hs, h.sameRows.ofRows_eq]

/-- The result of compiling a cover depends on the set of its constraints only. Two covers
over one order, both with sharing or both without, of which each asks for whatever the other
asks for, compile to the same diagram, and the single steps that are logged on the way are the
same as well. -/
theorem compile_eq_of_sameConstraints (c c' : Cover) (ho : c.order = c'.order)
    (hs : c.sharing = c'.sharing) (h : c.SameConstraints c') :
    ∃ d events,
      c.compileLogged = .ok (d, .started c.cubes.size c.order.numVars c.sharing :: events ++
        [.finished d.size d.root]) ∧
      c'.compileLogged = .ok (d, .started c'.cubes.size c.order.numVars c.sharing :: events ++
        [.finished d.size d.root]) ∧
      (∀ event ∈ events, event.severity = .trace) ∧
      c.compile = .ok d ∧ c'.compile = .ok d := by
  have hexpansion := h.expansion_eq ho hs
  have hdiagram : c'.diagram = c.diagram := by
    rw [diagram, diagram, ho, hexpansion]
  have htraced : c.expansion.2.Traced := by
    rw [expansion_eq_build]
    exact c.tree.traced_build (Pool.traced_start _ _)
  refine ⟨c.diagram, c.expansion.2.events.toList, c.compileLogged_eq, ?_, ?_, c.compile_eq, ?_⟩
  · rw [compileLogged_eq, hdiagram, ho, hs, hexpansion]
  · intro event hevent
    exact htraced event (Array.mem_toList_iff.1 hevent)
  · rw [compile_eq, hdiagram]

/-- The constraints of the sample in the other order, one of them twice, with cells behind
the last fixed variable. -/
def scrambled : Cover where
  order := (sample false).order
  cubes := #[.ofValues [(⟨1⟩, true)], .unset (.ofValues [(⟨0⟩, true), (⟨1⟩, false)]) ⟨5⟩,
    .unset (.ofValues [(⟨1⟩, true)]) ⟨0⟩]
  sharing := false
  within := by decide

theorem sameConstraints_scrambled : (sample false).SameConstraints scrambled := by
  have hlong : Cube.Same (.ofValues [(⟨0⟩, true), (⟨1⟩, false)])
      (.unset (.ofValues [(⟨0⟩, true), (⟨1⟩, false)]) ⟨5⟩) := .unset (by decide)
  have hagain : Cube.Same (.ofValues [(⟨1⟩, true)]) (.unset (.ofValues [(⟨1⟩, true)]) ⟨0⟩) :=
    .unset (by decide)
  constructor <;> intro cube hcube <;>
    simp only [sample, scrambled, List.mem_toArray, List.mem_cons, List.not_mem_nil,
      or_false] at hcube ⊢
  · rcases hcube with rfl | rfl
    · exact ⟨_, .inr (.inl rfl), hlong⟩
    · exact ⟨_, .inl rfl, .refl _⟩
  · rcases hcube with rfl | rfl | rfl
    · exact ⟨_, .inr rfl, .refl _⟩
    · exact ⟨_, .inl rfl, hlong.symm⟩
    · exact ⟨_, .inr rfl, hagain.symm⟩

theorem compile_scrambled :
    ∃ d events, (sample false).compile = .ok d ∧ scrambled.compile = .ok d ∧
      (sample false).compileLogged =
        .ok (d, .started 2 2 false :: events ++ [.finished d.size d.root]) ∧
      scrambled.compileLogged =
        .ok (d, .started 3 2 false :: events ++ [.finished d.size d.root]) := by
  obtain ⟨d, events, hlog, hlog', -, hd, hd'⟩ :=
    compile_eq_of_sameConstraints (sample false) scrambled rfl rfl sameConstraints_scrambled
  exact ⟨d, events, hd, hd', hlog, hlog'⟩

end Cover

end DecisionDiagram
