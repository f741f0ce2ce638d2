import DecisionDiagram.Diagram.Solutions
import DecisionDiagram.Proofs.Cube.Completions
import DecisionDiagram.Proofs.Diagram.Paths

/-!
# The satisfying valuations of a diagram

The cursor over the satisfying valuations chains two others: it draws the completions of
the current path to their end, and then starts with those of the next one.  No path is
without a completion, so each start has an item to deliver.  Since the paths clash and
cover the diagram, the chain has every satisfying valuation, and has it once.
-/

namespace DecisionDiagram

/-- Drawing a path leaves the diagram alone. -/
theorem Paths.diagram_next {p p' : Paths} {c : Cube} (h : Cursor.next p = .ok (some (c, p'))) :
    p'.diagram = p.diagram := by
  obtain ⟨d, stack⟩ := p
  cases stack with
  | nil => cases h
  | cons top below =>
    simp only [Cursor.next] at h
    cases hcube : d.cubeOfPath (top :: below).reverse with
    | error fault =>
      rw [hcube] at h
      cases h
    | ok cube =>
      cases hback : d.backtrack top below with
      | error fault =>
        rw [hcube, hback] at h
        cases h
      | ok stack' =>
        rw [hcube, hback] at h
        cases h
        rfl

theorem Cube.exists_completions_eq_cons (c : Cube) (n : Nat) :
    ∃ v vs, c.completions n = v :: vs := by
  refine List.exists_cons_of_ne_nil ?_
  simp [completions]

namespace Solutions

variable {p p' : Paths} {t t' : Completions} {v : Valuation} {vs rest : List Valuation}
  {cube : Cube} {cubes : List Cube} {n : UInt16}

/-! ### One draw -/

theorem draw_of_some (h : Cursor.next t = .ok (some (v, t'))) :
    draw ⟨p, t⟩ = .ok (some (v, ⟨p, t'⟩)) := by
  simp only [draw, h]
  rfl

theorem draw_of_none (h : Cursor.next t = .ok none) : draw ⟨p, t⟩ = .ok none := by
  simp only [draw, h]
  rfl

theorem advance_of_none (h : Cursor.next p = .ok none) : advance p = .ok none := by
  simp only [advance, h]
  rfl

theorem advance_of_some (h : Cursor.next p = .ok (some (cube, p')))
    (ht : Completions.ofClause cube p.diagram.numVars = .ok t) :
    advance p = .ok (some ⟨p', t⟩) := by
  rw [← Paths.diagram_next h] at ht
  simp only [advance, h, ht, bind, Except.bind]
  rfl

theorem next_of_some (h : Cursor.next t = .ok (some (v, t'))) :
    Cursor.next (⟨p, t⟩ : Solutions) = .ok (some (v, ⟨p, t'⟩)) := by
  simp only [Cursor.next, draw_of_some h]
  rfl

theorem next_of_none (h : Cursor.next t = .ok none) (hp : Cursor.next p = .ok none) :
    Cursor.next (⟨p, t⟩ : Solutions) = .ok none := by
  simp only [Cursor.next, draw_of_none h, advance_of_none hp]
  rfl

/-- After the last completion of a path comes the first one of the next path. -/
theorem next_of_path {u u' : Completions} (h : Cursor.next t = .ok none)
    (hp : Cursor.next p = .ok (some (cube, p')))
    (hu : Completions.ofClause cube p.diagram.numVars = .ok u)
    (hv : Cursor.next u = .ok (some (v, u'))) :
    Cursor.next (⟨p, t⟩ : Solutions) = .ok (some (v, ⟨p', u'⟩)) := by
  simp only [Cursor.next, draw_of_none h, advance_of_some hp hu]
  exact draw_of_some hv

/-! ### The whole chain -/

/-- The rest of the current path comes first. -/
theorem yields_append (ht : Cursor.Yields t vs)
    (hend : ∀ t' : Completions, Cursor.next t' = .ok none →
      Cursor.Yields (⟨p, t'⟩ : Solutions) rest) :
    Cursor.Yields (⟨p, t⟩ : Solutions) (vs ++ rest) := by
  induction ht with
  | done h => exact hend _ h
  | more h _ ih => exact .more (next_of_some h) ih

/-- The cursor delivers the rest of the current path, and then the completions of the
paths to come, one path after the other. -/
theorem yields (hp : Cursor.Yields p cubes) (hn : p.diagram.numVars = n)
    (hcubes : ∀ cube ∈ cubes, cube.Within n) (ht : Cursor.Yields t vs) :
    Cursor.Yields (⟨p, t⟩ : Solutions) (vs ++ cubes.flatMap (·.completions n.toNat)) := by
  induction hp generalizing t vs with
  | @done p hp => exact yields_append ht fun t' ht' => .done (next_of_none ht' hp)
  | @more p p' cube cubes hp _ ih =>
    refine yields_append ht fun t' ht' => ?_
    obtain ⟨hcube, hrest⟩ := List.forall_mem_cons.1 hcubes
    obtain ⟨u, hu, hyields⟩ := Completions.yields_ofClause hcube
    obtain ⟨v, vs, hcons⟩ := cube.exists_completions_eq_cons n.toNat
    rw [hcons] at hyields
    rw [List.flatMap_cons, hcons]
    cases hyields with
    | more hv hyields =>
      refine .more (next_of_path ht' hp (hn ▸ hu) hv) ?_
      exact ih ((Paths.diagram_next hp).symm ▸ hn) hrest hyields

end Solutions

namespace Diagram

variable {d : Diagram} {id : NodeId} {p : Paths} {cubes : List Cube} {rs : List Route}
  {v : Valuation}

/-- The enumeration of the satisfying valuations goes through the completions of all
paths. -/
theorem yields_solutions (hpaths : d.paths = .ok p) (hp : Cursor.Yields p cubes)
    (hd : p.diagram = d) (hcubes : ∀ cube ∈ cubes, cube.Within d.numVars) :
    ∃ s : Solutions, d.solutions = .ok s ∧
      Cursor.Yields s (cubes.flatMap (·.completions d.numVars.toNat)) := by
  cases hp with
  | done hp =>
    refine ⟨⟨p, ∅⟩, ?_, Solutions.yields (.done hp) (hd ▸ rfl) hcubes Completions.yields_empty⟩
    simp only [solutions, hpaths, Solutions.advance_of_none hp, bind, Except.bind]
    rfl
  | @more _ p' cube cubes hnext hp =>
    obtain ⟨hcube, hrest⟩ := List.forall_mem_cons.1 hcubes
    obtain ⟨t, ht, hyields⟩ := Completions.yields_ofClause hcube
    have hd' : p'.diagram = d := (Paths.diagram_next hnext).trans hd
    refine ⟨⟨p', t⟩, ?_, Solutions.yields hp (hd'.symm ▸ rfl) hrest hyields⟩
    simp only [solutions, hpaths, Solutions.advance_of_some hnext (hd.symm ▸ ht), bind,
      Except.bind]
    rfl

/-- The completions of all paths are the satisfying valuations. -/
theorem Routes.mem_completions_iff (hd : d.Grounded) (h : d.Routes d.root rs) :
    v ∈ (rs.map Cube.ofValues).flatMap (·.completions d.numVars.toNat) ↔
      v.bits.size = d.numVars.toNat ∧ d.eval v = .ok true := by
  have hwithin := h.within hd
  rw [List.mem_flatMap]
  constructor
  · rintro ⟨cube, hcube, hmem⟩
    obtain ⟨hv, hcompletes⟩ := (Cube.mem_completions_iff (hwithin cube hcube)).1 hmem
    obtain ⟨b, heval, hb⟩ := h.eval_iff hd hv
    obtain rfl := hb.2 ⟨cube, hcube, hcompletes⟩
    exact ⟨hv, heval⟩
  · rintro ⟨hv, htrue⟩
    obtain ⟨b, heval, hb⟩ := h.eval_iff hd hv
    obtain rfl := Except.ok.inj (heval.symm.trans htrue)
    obtain ⟨cube, hcube, hcompletes⟩ := hb.1 rfl
    exact ⟨cube, hcube, (Cube.mem_completions_iff (hwithin cube hcube)).2 ⟨hv, hcompletes⟩⟩

theorem Routes.nodup_completions (hd : d.Grounded) (h : d.Routes id rs) :
    ((rs.map Cube.ofValues).flatMap (·.completions d.numVars.toNat)).Nodup := by
  have hwithin := h.within hd
  refine List.nodup_flatMap.2 ⟨fun cube _ => cube.nodup_completions _, ?_⟩
  refine (h.pairwise_clashes hd).imp_of_mem fun hc hc' hclash => ?_
  exact hclash.disjoint_completions (hwithin _ hc) (hwithin _ hc')

/-- The satisfying valuations are listed exactly once. The cursor goes through the paths
in their order, and for each through all its completions in the order of counting, as the
cursor over the completions does; altogether it delivers the valuations of all variables
for which the diagram is true, and none of them twice. -/
theorem Obtained.solutions_once (h : d.Obtained) :
    ∃ (p : Paths) (cubes : List Cube) (s : Solutions) (vs : List Valuation),
      d.paths = .ok p ∧ Cursor.Yields p cubes ∧ d.solutions = .ok s ∧ Cursor.Yields s vs ∧
      vs = cubes.flatMap (·.completions d.numVars.toNat) ∧
      (∀ cube ∈ cubes,
        (∃ t, Completions.ofClause cube d.numVars = .ok t ∧
          Cursor.Yields t (cube.completions d.numVars.toNat)) ∧
        ∀ v, v ∈ cube.completions d.numVars.toNat ↔
          v.bits.size = d.numVars.toNat ∧ v.completes cube = .ok true) ∧
      vs.Nodup ∧ ∀ v, v ∈ vs ↔ v.bits.size = d.numVars.toNat ∧ d.eval v = .ok true := by
  have hd := h.grounded
  obtain ⟨routes, hroutes⟩ := hd.exists_routes hd.root_lt
  obtain ⟨p, hpaths, hdiagram, hyields⟩ := hd.yields_paths hroutes
  have hwithin := hroutes.within hd
  obtain ⟨s, hsolutions, hall⟩ := yields_solutions hpaths hyields hdiagram hwithin
  refine ⟨p, _, s, _, hpaths, hyields, hsolutions, hall, rfl, fun cube hcube => ⟨?_, fun v => ?_⟩,
    hroutes.nodup_completions hd, fun v => hroutes.mem_completions_iff hd⟩
  · exact Completions.yields_ofClause (hwithin cube hcube)
  · rw [Cube.mem_completions_iff (hwithin cube hcube)]
    exact and_congr_right fun hv => Valuation.completes_iff hv (hwithin cube hcube)

theorem solutions_once_either :
    ∃ (s : Solutions) (vs : List Valuation), either.solutions = .ok s ∧ Cursor.Yields s vs ∧
      vs.Nodup ∧ ⟨#[false, true]⟩ ∈ vs ∧ ⟨#[false, false]⟩ ∉ vs := by
  obtain ⟨p, cubes, s, vs, -, -, hs, hyields, -, -, hnodup, hmem⟩ :=
    Obtained.solutions_once obtained_either
  refine ⟨s, vs, hs, hyields, hnodup, (hmem _).2 ⟨rfl, ?_⟩, ?_⟩
  · decide
  · rw [hmem]
    decide

end Diagram

end DecisionDiagram
