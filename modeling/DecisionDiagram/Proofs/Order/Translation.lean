import DecisionDiagram.Proofs.Assignment.Pairs
import DecisionDiagram.Proofs.Cube.Tight

/-!
# Translating named values

The pairs of a list are written to a cube one by one, and each write may make the cube
longer.  What comes out is tight all the same, so it depends on nothing but the value that
counts for each name.  If a name is not in the order then the first such name is reported.
-/

namespace DecisionDiagram

namespace VarOrder

open Assignment (lastValue lastPairs)

variable {o : VarOrder} {c cube : Cube} {pairs pairs' : List (String × Bool)}

theorem tight_cubeOf_go (hc : c.Tight) (h : cubeOf.go o c pairs = .ok cube) : cube.Tight := by
  induction pairs generalizing c with
  | nil =>
    cases h
    exact hc
  | cons pair pairs ih =>
    rw [cubeOf_go_cons] at h
    split at h
    · next v _ => exact ih (hc.set v pair.2) h
    · cases h

/-- A cube of named values has no more cells than it needs. -/
theorem tight_cubeOf (h : o.cubeOf pairs = .ok cube) : cube.Tight :=
  tight_cubeOf_go Cube.tight_empty h

/-- Lists that give every name the same value have the same cube. -/
theorem cubeOf_eq_ok_congr (h : lastValue pairs = lastValue pairs') :
    o.cubeOf pairs = .ok cube ↔ o.cubeOf pairs' = .ok cube := by
  suffices himp : ∀ {pairs pairs' : List (String × Bool)}, lastValue pairs = lastValue pairs' →
      o.cubeOf pairs = .ok cube → o.cubeOf pairs' = .ok cube from ⟨himp h, himp h.symm⟩
  intro pairs pairs' h hcube
  have hnames : ∀ pair ∈ pairs', pair.1 ∈ o.names := by
    intro pair hpair
    have hsome : lastValue pairs pair.1 ≠ none := by
      rw [h, Ne, Assignment.lastValue_eq_none_iff, not_not]
      exact List.mem_map_of_mem hpair
    obtain ⟨value, hvalue⟩ := Option.ne_none_iff_exists'.1 hsome
    obtain ⟨pair', hpair', hname⟩ := Assignment.exists_mem_of_lastValue hvalue
    exact hname ▸ exists_cubeOf_iff.1 ⟨cube, hcube⟩ pair' hpair'
  obtain ⟨cube', hcube'⟩ := exists_cubeOf_iff.2 hnames
  have heq : cube = cube' := by
    apply (tight_cubeOf hcube).ext (tight_cubeOf hcube')
    intro x
    rw [get?_cubeOf hcube, get?_cubeOf hcube', h]
  rw [heq, hcube']

/-! ### The name that is reported -/

theorem cubeOf_go_eq_error_iff {e : InputError} :
    cubeOf.go o c pairs = .error e ↔
      ∃ pair, pairs.find? (·.1 ∉ o.names) = some pair ∧ e = .unknownVariable pair.1 := by
  induction pairs generalizing c with
  | nil => simp [cubeOf.go]
  | cons pair pairs ih =>
    rw [cubeOf_go_cons, List.find?_cons]
    split
    · next v hv =>
      have hname : pair.1 ∈ o.names := Array.mem_of_getElem? (lookup?_eq_some_iff.1 hv)
      simp [hname, ih]
    · next hnone =>
      have hname : pair.1 ∉ o.names := lookup?_eq_none_iff.1 hnone
      simp [hname, eq_comm]

/-- A list is refused if some name in it is not in the order, and the first is reported. -/
theorem cubeOf_eq_error_iff {e : InputError} :
    o.cubeOf pairs = .error e ↔ ∃ before name value after,
      pairs = before ++ (name, value) :: after ∧ (∀ pair ∈ before, pair.1 ∈ o.names) ∧
      name ∉ o.names ∧ e = .unknownVariable name := by
  rw [cubeOf, cubeOf_go_eq_error_iff]
  simp only [List.find?_eq_some_iff_append, decide_eq_true_eq, Bool.not_eq_eq_eq_not, Bool.not_true,
    decide_eq_false_iff_not, not_not]
  constructor
  · rintro ⟨pair, ⟨hname, before, after, hpairs, hbefore⟩, he⟩
    exact ⟨before, pair.1, pair.2, after, hpairs, hbefore, hname, he⟩
  · rintro ⟨before, name, value, after, hpairs, hbefore, hname, he⟩
    exact ⟨(name, value), ⟨hname, before, after, hpairs, hbefore⟩, he⟩

end VarOrder

end DecisionDiagram
