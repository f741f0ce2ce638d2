import DecisionDiagram.Proofs.Cover.Requests
import DecisionDiagram.Proofs.Diagram.Paths
import DecisionDiagram.Proofs.Tree.Unfold

/-!
# Rebuilding a diagram from its paths

The paths of a compiled diagram, taken as the cubes of a new cover, compile to the same
diagram, whatever their order and with or without sharing.  The decision tree of that
cover is the tree to which the diagram unfolds, and building it repeats the construction
of the diagram, which took place in the same kind of pool.
-/

namespace DecisionDiagram

namespace Cover

variable {c c' : Cover} {cubes : List Cube} {t : Tree}

/-! ### Covers of routes -/

/-- Cubes within the order can be added one by one. -/
theorem foldlM_add (h : ∀ cube ∈ cubes, cube.Within c.order.numVars) :
    ∃ c', cubes.foldlM add c = .ok c' ∧ c'.order = c.order ∧ c'.sharing = c.sharing ∧
      c'.cubes.toList = c.cubes.toList ++ cubes := by
  induction cubes generalizing c with
  | nil => exact ⟨c, rfl, rfl, rfl, by simp⟩
  | cons cube cubes ih =>
    obtain ⟨hcube, hcubes⟩ := List.forall_mem_cons.1 h
    have hadd : c.add cube = .ok (c.push ⟨cube, hcube⟩) := add_eq_ok_iff.2 ⟨hcube, rfl⟩
    obtain ⟨c', hc', horder, hsharing, hlist⟩ := ih (c := c.push ⟨cube, hcube⟩) hcubes
    refine ⟨c', ?_, horder, hsharing, ?_⟩
    · rw [List.foldlM_cons, hadd]
      exact hc'
    · rw [hlist]
      simp [push]

/-- The decision tree of a cover of the routes of a live tree is that tree. -/
theorem tree_eq_of_routes (ht : t.Ordered c.order.numVars.toNat 0) (hlive : t.Live)
    (h : c.cubes.toList.Perm (t.routes.map Cube.ofValues)) : c.tree = t := by
  have hrows : c.rows.Perm (t.routes.map (Route.row [])) := by
    have hmap := h.map Row.ofCube
    rw [List.map_map] at hmap
    exact hmap
  exact Tree.ofRows_of_perm (v := ⟨0⟩) (Nat.zero_add _) ht hlive ⟨.nil, by simp⟩ hrows

/-- The diagram of a cover is got back by building the tree to which it unfolds. -/
theorem exists_unfolds_diagram (c : Cover) (hsize : c.diagram.size ≤ 4294967296) :
    ∃ u : Tree, u.Ordered c.order.numVars.toNat 0 ∧ u.Live ∧
      c.diagram.Unfolds c.diagram.root u ∧
      Pool.SameResult (u.build (.start c.order.numVars c.sharing)) c.expansion := by
  have hd := c.valid_diagram hsize
  obtain ⟨u, hu⟩ := hd.exists_unfolds hd.root_lt
  have hn := Array.getElem?_eq_getElem hd.root_lt
  refine ⟨u, (hu.ordered hd hn).mono (Nat.zero_le _), hu.live hd, hu, ?_⟩
  rw [expansion_eq_build]
  refine c.ordered_tree.build_unfolds (Nat.zero_le _) (Pool.sound_start c.order c.sharing)
    (c.size_build_tree ▸ hsize) ?_
  rw [← expansion_eq_build]
  exact hu.extend (.refl _)

theorem diagram_eq_of_sameResult (ho : c'.order = c.order)
    (h : Pool.SameResult c'.expansion c.expansion) : c'.diagram = c.diagram := by
  rw [diagram, diagram, ho, h.1, h.2.nodes_eq]

/-- Rebuilding a compiled diagram from its own paths gives it back. The paths can be added
to a new cover in any order, and with the same choice of sharing that cover compiles to
the same table and root. -/
theorem compile_paths (c : Cover) :
    ∃ d, c.compile = .ok d ∧ (d.size ≤ 4294967296 →
      ∃ (p : Paths) (cubes : List Cube), d.paths = .ok p ∧ Cursor.Yields p cubes ∧
        ∀ cubes' : List Cube, cubes'.Perm cubes →
          ∃ c', cubes'.foldlM add ((ofOrder d.order).withSharing c.sharing) = .ok c' ∧
            c'.compile = .ok d) := by
  refine ⟨c.diagram, c.compile_eq, ?_⟩
  intro hsize
  have hd := (c.valid_diagram hsize).grounded
  obtain ⟨u, hordered, hlive, hu, hbuild⟩ := c.exists_unfolds_diagram hsize
  obtain ⟨p, hp, -, hyields⟩ := hd.yields_paths hu.routes
  refine ⟨p, _, hp, hyields, fun cubes hperm => ?_⟩
  have hwithin : ∀ cube ∈ cubes, cube.Within c.order.numVars :=
    fun cube hcube => hu.routes.within hd cube (hperm.mem_iff.1 hcube)
  obtain ⟨c', hc', ho, hs, hlist⟩ :=
    foldlM_add (c := (ofOrder c.diagram.order).withSharing c.sharing) hwithin
  have ho' : c'.order = c.order := ho
  have hs' : c'.sharing = c.sharing := hs
  have hcubes : c'.cubes.toList = cubes := hlist
  have htree : c'.tree = u := tree_eq_of_routes (ho'.symm ▸ hordered) hlive (hcubes.symm ▸ hperm)
  refine ⟨c', hc', ?_⟩
  rw [compile_eq, diagram_eq_of_sameResult ho']
  rw [expansion_eq_build, htree, ho', hs']
  exact hbuild

theorem compile_paths_reversed :
    ∃ (d : Diagram) (p : Paths) (cubes : List Cube) (c : Cover),
      (sample false).compile = .ok d ∧ d.paths = .ok p ∧ Cursor.Yields p cubes ∧
      cubes.reverse.foldlM add ((ofOrder d.order).withSharing false) = .ok c ∧
      c.compile = .ok d := by
  obtain ⟨d, hd, h⟩ := compile_paths (sample false)
  have hsize : d.size ≤ 4294967296 := Nat.le_trans (size_compile_le hd) (by decide)
  obtain ⟨p, cubes, hp, hyields, hrebuild⟩ := h hsize
  obtain ⟨c, hc, hcompile⟩ := hrebuild cubes.reverse cubes.reverse_perm
  exact ⟨d, p, cubes, c, hd, hp, hyields, hc, hcompile⟩

end Cover

end DecisionDiagram
