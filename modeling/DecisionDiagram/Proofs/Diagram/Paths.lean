import DecisionDiagram.Diagram.Paths
import DecisionDiagram.Proofs.Cover.Obtained
import DecisionDiagram.Proofs.Diagram.Routes

/-!
# The paths of a diagram

The stack of the path cursor holds the nodes passed on the way from the root.  Backtracking
from a node finds what follows all routes from that node, so by induction over the list
of routes: a descent to a node draws the cubes of all routes from there, and goes on with
whatever backtracking from the node finds.  No branch is taken twice since the children
of a node differ, and no descent ends at `0` since the links there are passed over.
-/

namespace DecisionDiagram

namespace Diagram

variable {d : Diagram} {id top child : NodeId} {node : Node} {r taken : Route}
  {rs : List Route} {below stack : List NodeId} {steps : Nat} {v : Valuation}

/-- The nodes of `below`, the last one first, are those passed on the way to `id` with
the decisions `taken`. -/
inductive Trail (d : Diagram) : (below : List NodeId) → (id : NodeId) → (taken : Route) → Prop
  /-- A trail may start anywhere. -/
  | start (id : NodeId) : d.Trail [] id []
  /-- A decision leads on to a child. -/
  | step {below : List NodeId} {top : NodeId} {node : Node} {taken : Route} (b : Bool) :
    d.Trail below top taken → 2 ≤ top.toIndex → d.nodes[top.toIndex]? = some node →
    d.Trail (top :: below) (node.child b) (taken ++ [(node.var, b)])

/-! ### The cube of a route -/

theorem Leads.get?_ofValues (hd : d.Grounded) (h : d.Leads id r) (x : Variable) (b : Bool) :
    (Cube.ofValues r).get? x = some b ↔ (x, b) ∈ r :=
  Route.get?_ofValues (h.sorted hd)

theorem Leads.within (hd : d.Grounded) (h : d.Leads id r) :
    (Cube.ofValues r).Within d.numVars := by
  intro x hx
  obtain ⟨b, hb⟩ := Option.isSome_iff_exists.1 hx
  exact h.var_lt hd ((h.get?_ofValues hd x b).1 hb)

theorem Leads.completes_iff (hd : d.Grounded) (h : d.Leads id r)
    (hv : v.bits.size = d.numVars.toNat) :
    v.Completes (.ofValues r) ↔ ∀ p ∈ r, v.point p.1 = p.2 := by
  rw [Valuation.completes_iff_agreesFrom hv (h.within hd)]
  constructor
  · intro hc (x, b) hp
    exact hc x b (Nat.zero_le _) ((h.get?_ofValues hd x b).2 hp)
  · intro hc x b _ hb
    exact hc (x, b) ((h.get?_ofValues hd x b).1 hb)

/-- The cubes of any two routes clash. -/
theorem Routes.pairwise_clashes (hd : d.Grounded) (h : d.Routes id rs) :
    (rs.map Cube.ofValues).Pairwise Cube.Clashes := by
  refine List.pairwise_map.2 (h.pairwise_parts.imp_of_mem fun hr hr' hparts => ?_)
  obtain ⟨x, hlow, hhigh⟩ := hparts.exists_mem
  exact ⟨x, false, ((h.mem_iff.1 hr).get?_ofValues hd x _).2 hlow,
    ((h.mem_iff.1 hr').get?_ofValues hd x _).2 hhigh⟩

theorem Routes.within (hd : d.Grounded) (h : d.Routes id rs) :
    ∀ cube ∈ rs.map Cube.ofValues, cube.Within d.numVars :=
  List.forall_mem_map.2 fun _ hr => (h.mem_iff.1 hr).within hd

/-- Evaluation is true under the valuations that complete the cube of some route. -/
theorem Routes.eval_iff (hd : d.Grounded) (h : d.Routes d.root rs)
    (hv : v.bits.size = d.numVars.toNat) :
    ∃ b, d.eval v = .ok b ∧ (b = true ↔ ∃ cube ∈ rs.map Cube.ofValues, v.Completes cube) := by
  refine ⟨_, hd.evalFrom_eq hv hd.root_lt, ?_⟩
  rw [hd.valueAt_iff hd.root_lt]
  simp only [List.mem_map, exists_exists_and_eq_and]
  refine exists_congr fun r => ?_
  rw [h.mem_iff]
  exact and_congr_right fun hr => (hr.completes_iff hd hv).symm

/-! ### The cube of a stack -/

/-- One more node on a path fixes the variable of the node before. -/
theorem cubeOfPath_go_append (hn : d.nodes[top.toIndex]? = some node) (path : List NodeId)
    {c c' : Cube} (h : cubeOfPath.go d c (path ++ [top]) = .ok c') :
    cubeOfPath.go d c (path ++ [top, id]) = .ok (c'.set node.var (node.low != id)) := by
  induction path generalizing c with
  | nil =>
    cases h
    simp only [List.nil_append, cubeOfPath.go, node_eq_ok_iff.2 hn]
    rfl
  | cons first path ih =>
    obtain ⟨next, rest, hnext⟩ : ∃ next rest, path ++ [top] = next :: rest :=
      List.exists_cons_of_ne_nil (by simp)
    have hlong : path ++ [top, id] = next :: (rest ++ [id]) := by
      rw [← List.cons_append, ← hnext, List.append_assoc, List.singleton_append]
    rw [List.cons_append, hnext, cubeOfPath.go] at h
    rw [List.cons_append, hlong, cubeOfPath.go]
    rw [hnext, hlong] at ih
    cases hfirst : d.node first with
    | error fault =>
      rw [hfirst] at h
      cases h
    | ok firstNode =>
      rw [hfirst] at h
      exact ih h

theorem Grounded.low_bne_child (hd : d.Grounded) (h2 : 2 ≤ top.toIndex)
    (hn : d.nodes[top.toIndex]? = some node) (b : Bool) : (node.low != node.child b) = b := by
  have hne := (hd.fits h2 hn).low_ne_high
  cases b with
  | false => simp
  | true => simpa using hne

/-- The cube of a stack fixes the decisions of the trail. -/
theorem Trail.cubeOfPath_eq (hd : d.Grounded) (h : d.Trail below id taken) :
    d.cubeOfPath (id :: below).reverse = .ok (.ofValues taken) := by
  induction h with
  | start id => rfl
  | @step below top node taken b _ h2 hn ih =>
    rw [List.reverse_cons] at ih
    rw [List.reverse_cons, List.reverse_cons, List.append_assoc, List.singleton_append, cubeOfPath,
      cubeOfPath_go_append hn _ ih, hd.low_bne_child h2 hn]
    simp [Cube.ofValues, List.foldl_append]

/-! ### Going down and back -/

theorem descend_one : d.descend steps .one below = .ok (.one :: below) := by
  rw [descend]
  rfl

theorem isOne_eq_false (h2 : 2 ≤ id.toIndex) : id.isOne = false := by
  have hne : id ≠ .one := by
    rintro rfl
    exact absurd h2 (by decide)
  simpa [NodeId.isOne] using hne

theorem descend_low (h2 : 2 ≤ id.toIndex) (hn : d.nodes[id.toIndex]? = some node)
    (hlow : node.low ≠ .zero) :
    d.descend (steps + 1) id below = d.descend steps node.low (id :: below) := by
  rw [descend]
  simp [isOne_eq_false h2, node_eq_ok_iff.2 hn, NodeId.isZero, hlow, bind, Except.bind]

theorem descend_high (h2 : 2 ≤ id.toIndex) (hn : d.nodes[id.toIndex]? = some node)
    (hlow : node.low = .zero) (hhigh : node.high ≠ .zero) :
    d.descend (steps + 1) id below = d.descend steps node.high (id :: below) := by
  rw [descend]
  simp [isOne_eq_false h2, node_eq_ok_iff.2 hn, NodeId.isZero, hlow, hhigh, bind, Except.bind]

/-- From the low side, backtracking turns to the high side if there is one. -/
theorem backtrack_turn (hn : d.nodes[id.toIndex]? = some node) (hhigh : node.high ≠ .zero) :
    d.backtrack node.low (id :: below) = d.descend d.size node.high (id :: below) := by
  rw [backtrack]
  simp [node_eq_ok_iff.2 hn, NodeId.isZero, hhigh, bind, Except.bind]

/-- Otherwise it goes on from the node itself. -/
theorem backtrack_up (hn : d.nodes[id.toIndex]? = some node)
    (h : node.low ≠ child ∨ node.high = .zero) :
    d.backtrack child (id :: below) = d.backtrack id below := by
  rw [backtrack]
  rcases h with h | h <;>
    simp [node_eq_ok_iff.2 hn, NodeId.isZero, h, bind, Except.bind]

/-! ### What the cursor delivers -/

theorem yields_stack {top : NodeId} {c : Cube} {rest : List Cube}
    (hcube : d.cubeOfPath (top :: below).reverse = .ok c)
    (hback : d.backtrack top below = .ok stack)
    (hrest : Cursor.Yields (⟨d, stack⟩ : Paths) rest) :
    Cursor.Yields (⟨d, top :: below⟩ : Paths) (c :: rest) := by
  refine .more ?_ hrest
  simp only [Cursor.next, hcube, hback]
  rfl

/-- A descent to a node draws the cubes of all routes from there, and then what
backtracking from the node finds. -/
theorem Routes.yields (hd : d.Grounded) (h : d.Routes id rs) (ht : d.Trail below id taken)
    (hid : id ≠ .zero) (hsteps : id.toIndex ≤ steps) {rest : List Cube}
    (hback : d.backtrack id below = .ok stack)
    (hrest : Cursor.Yields (⟨d, stack⟩ : Paths) rest) :
    ∃ stack', d.descend steps id below = .ok stack' ∧
      Cursor.Yields (⟨d, stack'⟩ : Paths) (rs.map (fun r => .ofValues (taken ++ r)) ++ rest) := by
  induction h generalizing below taken steps stack rest with
  | zero => exact absurd rfl hid
  | one =>
    refine ⟨_, descend_one, ?_⟩
    simpa using yields_stack (ht.cubeOfPath_eq hd) hback hrest
  | @node id node lows highs h2 hn hlows hhighs ihLow ihHigh =>
    have fit := hd.fits h2 hn
    have hltLow : node.low.toIndex < id.toIndex := fit.child_lt false
    have hltHigh : node.high.toIndex < id.toIndex := fit.child_lt true
    have hup : d.backtrack node.high (id :: below) = d.backtrack id below :=
      backtrack_up hn (.inl fit.low_ne_high)
    obtain ⟨k, rfl⟩ : ∃ k, steps = k + 1 := ⟨steps - 1, by omega⟩
    by_cases hlow : node.low = .zero
    · have hhigh : node.high ≠ .zero := hlow ▸ fit.low_ne_high.symm
      obtain rfl : lows = [] := (hlow ▸ hlows).eq_nil
      rw [descend_high h2 hn hlow hhigh]
      simpa [Function.comp_def] using
        ihHigh (ht.step true h2 hn) hhigh (by omega) (hup.trans hback) hrest
    · rw [descend_low h2 hn hlow]
      by_cases hhigh : node.high = .zero
      · obtain rfl : highs = [] := (hhigh ▸ hhighs).eq_nil
        have hupLow : d.backtrack node.low (id :: below) = d.backtrack id below :=
          backtrack_up hn (.inr hhigh)
        simpa [Function.comp_def] using
          ihLow (ht.step false h2 hn) hlow (by omega) (hupLow.trans hback) hrest
      · -- The low routes come first, and what follows them starts on the high side.
        have hsize : node.high.toIndex < d.size := hd.child_lt_size h2 hn true
        obtain ⟨stackHigh, hdescend, hyields⟩ :=
          ihHigh (ht.step true h2 hn) hhigh (Nat.le_of_lt hsize) (hup.trans hback) hrest
        have hturn : d.backtrack node.low (id :: below) = .ok stackHigh :=
          (backtrack_turn hn hhigh).trans hdescend
        simpa [Function.comp_def] using
          ihLow (ht.step false h2 hn) hlow (by omega) hturn hyields

/-- The cursor over the paths delivers the cubes of all routes from the root. -/
theorem Grounded.yields_paths (hd : d.Grounded) (h : d.Routes d.root rs) :
    ∃ p : Paths, d.paths = .ok p ∧ p.diagram = d ∧ Cursor.Yields p (rs.map Cube.ofValues) := by
  rw [paths]
  by_cases hfalse : d.root = .zero
  · obtain rfl : rs = [] := (hfalse ▸ h).eq_nil
    refine ⟨⟨d, []⟩, ?_, rfl, .done rfl⟩
    rw [if_pos (by simp [isFalse, NodeId.isZero, hfalse])]
  · have hback : d.backtrack d.root [] = .ok [] := rfl
    obtain ⟨stack, hdescend, hyields⟩ :=
      h.yields hd (.start d.root) hfalse (Nat.le_of_lt hd.root_lt) hback (.done rfl)
    refine ⟨⟨d, stack⟩, ?_, rfl, ?_⟩
    · rw [if_neg (by simp [isFalse, NodeId.isZero, hfalse]), hdescend]
      rfl
    · simpa using hyields

/-- The paths of a diagram are an exact and disjoint cover. The cursor delivers the cube
of every route from the root to the terminal `1`, once each and by increasing decisions;
any two of them clash, and the valuations that complete one of them are those for which
the diagram is true. -/
theorem Obtained.paths_cover (h : d.Obtained) :
    ∃ (p : Paths) (routes : List Route), d.paths = .ok p ∧
      Cursor.Yields p (routes.map Cube.ofValues) ∧
      (∀ r, r ∈ routes ↔ d.Leads d.root r) ∧
      (routes.Pairwise fun r r' => r.map Prod.snd < r'.map Prod.snd) ∧
      (∀ r ∈ routes, ∀ x b, (Cube.ofValues r).get? x = some b ↔ (x, b) ∈ r) ∧
      (routes.map Cube.ofValues).Pairwise Cube.Clashes ∧
      ∀ v : Valuation, v.bits.size = d.numVars.toNat →
        (∀ cube ∈ routes.map Cube.ofValues, ∃ r, v.completes cube = .ok r) ∧
        ∃ b, d.eval v = .ok b ∧
          (b = true ↔ ∃ cube ∈ routes.map Cube.ofValues, v.completes cube = .ok true) := by
  have hd := h.grounded
  obtain ⟨routes, hroutes⟩ := hd.exists_routes hd.root_lt
  obtain ⟨p, hpaths, -, hyields⟩ := hd.yields_paths hroutes
  have hwithin := hroutes.within hd
  refine ⟨p, routes, hpaths, hyields, fun r => hroutes.mem_iff,
    hroutes.pairwise_parts.imp Route.Parts.lt,
    fun r hr => (hroutes.mem_iff.1 hr).get?_ofValues hd, hroutes.pairwise_clashes hd,
    fun v hv => ⟨fun cube hcube => ⟨_, Valuation.completes_eq_ok hv (hwithin cube hcube)⟩, ?_⟩⟩
  obtain ⟨b, heval, hb⟩ := hroutes.eval_iff hd hv
  refine ⟨b, heval, hb.trans (exists_congr fun cube => and_congr_right fun hcube => ?_)⟩
  exact Valuation.completes_iff hv (hwithin cube hcube)

theorem paths_cover_either :
    ∃ (p : Paths) (routes : List Route), either.paths = .ok p ∧
      Cursor.Yields p (routes.map Cube.ofValues) ∧
      [(⟨0⟩, false), (⟨1⟩, true)] ∈ routes ∧ [(⟨0⟩, true)] ∈ routes := by
  obtain ⟨p, routes, hp, hyields, hmem, -⟩ := Obtained.paths_cover obtained_either
  have hroot : either.nodes[(NodeId.ofIndex 3).toIndex]? = some ⟨⟨0⟩, .ofIndex 2, .one⟩ := rfl
  have hlow : either.nodes[(NodeId.ofIndex 2).toIndex]? = some ⟨⟨1⟩, .zero, .one⟩ := rfl
  refine ⟨p, routes, hp, hyields, (hmem _).2 ?_, (hmem _).2 ?_⟩
  · exact .step (by decide) hroot (.step (b := true) (by decide) hlow .one)
  · exact .step (b := true) (by decide) hroot .one

end Diagram

end DecisionDiagram
