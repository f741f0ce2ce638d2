import DecisionDiagram.Proofs.Diagram.Grounded
import Mathlib.Data.List.Induction

/-!
# Routes

A route is the list of the decisions on a path to the terminal `1`.  `Leads` says which
routes there are from a node, and `Routes` lists them all, the low side of each node
before its high side.  Two routes of the list part at a decision: up to there they are
equal, and then the earlier one goes low and the later one high.  A node is true at a
point exactly if one of its routes agrees with the point.
-/

namespace DecisionDiagram

/-- Decisions, in the order in which they are taken. -/
abbrev Route := List (Variable × Bool)

namespace Route

variable {r r' : Route} {x : Variable} {b : Bool}

/-- The routes are equal up to a decision at which the first goes low and the second
goes high. -/
def Parts (r r' : Route) : Prop :=
  ∃ (common : Route) (x : Variable) (rest rest' : Route),
    r = common ++ (x, false) :: rest ∧ r' = common ++ (x, true) :: rest'

theorem Parts.cons (h : Parts r r') (p : Variable × Bool) : Parts (p :: r) (p :: r') := by
  obtain ⟨common, x, rest, rest', rfl, rfl⟩ := h
  exact ⟨p :: common, x, rest, rest', rfl, rfl⟩

theorem parts_of_ne (x : Variable) (r r' : Route) : Parts ((x, false) :: r) ((x, true) :: r') :=
  ⟨[], x, r, r', rfl, rfl⟩

/-- Routes that part are in lexicographic order, `false` before `true`. -/
theorem Parts.lt (h : Parts r r') : r.map Prod.snd < r'.map Prod.snd := by
  obtain ⟨common, x, rest, rest', rfl, rfl⟩ := h
  induction common with
  | nil => exact .rel (show false < true by decide)
  | cons p common ih => exact .cons ih

/-- Routes that part take opposite decisions on some variable. -/
theorem Parts.exists_mem (h : Parts r r') : ∃ x, (x, false) ∈ r ∧ (x, true) ∈ r' := by
  obtain ⟨common, x, rest, rest', rfl, rfl⟩ := h
  exact ⟨x, by simp, by simp⟩

/-- The cube of a route on which no variable is decided twice fixes exactly what is
decided. -/
theorem get?_ofValues (h : r.Pairwise fun p q => p.1 < q.1) :
    (Cube.ofValues r).get? x = some b ↔ (x, b) ∈ r := by
  induction r using List.reverseRecOn with
  | nil => simp [Cube.ofValues]
  | append_singleton r p ih =>
    obtain ⟨hr, -, hlast⟩ := List.pairwise_append.1 h
    have hset : Cube.ofValues (r ++ [p]) = (Cube.ofValues r).set p.1 p.2 := by
      simp [Cube.ofValues, List.foldl_append]
    rw [hset, Cube.get?_set, List.mem_append, List.mem_singleton]
    by_cases hx : x = p.1
    · have hnew : (x, b) ∉ r := by
        intro hmem
        have hlt := Variable.lt_iff.1 (hlast _ hmem p (by simp))
        rw [hx] at hlt
        exact Nat.lt_irrefl _ hlt
      rw [if_pos hx, or_iff_right hnew, Prod.ext_iff, and_iff_right hx, Option.some_inj, eq_comm]
    · rw [if_neg hx, ih hr]
      simp [Prod.ext_iff, hx]

end Route

namespace Diagram

variable {d : Diagram} {σ : Point} {id : NodeId} {node child : Node} {r : Route}
  {rs : List Route} {p : Variable × Bool}

/-- The route leads from the node to the terminal `1`. -/
inductive Leads (d : Diagram) : NodeId → Route → Prop
  /-- At the terminal nothing is decided. -/
  | one : d.Leads .one []
  /-- A decision node is left on one of its sides. -/
  | step {id : NodeId} {node : Node} {b : Bool} {r : Route} : 2 ≤ id.toIndex →
    d.nodes[id.toIndex]? = some node → d.Leads (node.child b) r → d.Leads id ((node.var, b) :: r)

/-- All routes from a node, the low side before the high side. -/
inductive Routes (d : Diagram) : NodeId → List Route → Prop
  /-- There is no route from the terminal `0`. -/
  | zero : d.Routes .zero []
  /-- At the terminal `1` a route has come to its end. -/
  | one : d.Routes .one [[]]
  /-- The routes from a decision node are those from its children. -/
  | node {id : NodeId} {node : Node} {lows highs : List Route} : 2 ≤ id.toIndex →
    d.nodes[id.toIndex]? = some node → d.Routes node.low lows → d.Routes node.high highs →
    d.Routes id (lows.map ((node.var, false) :: ·) ++ highs.map ((node.var, true) :: ·))

/-! ### Single routes -/

theorem not_leads_zero : ¬d.Leads .zero r := by
  generalize hid : NodeId.zero = id
  intro h
  cases h with
  | one => cases hid
  | step h2 =>
    subst hid
    exact absurd h2 (by decide)

theorem leads_one_iff : d.Leads .one r ↔ r = [] := by
  constructor
  · generalize hid : NodeId.one = id
    intro h
    cases h with
    | one => rfl
    | step h2 =>
      subst hid
      exact absurd h2 (by decide)
  · rintro rfl
    exact .one

theorem leads_node_iff (h2 : 2 ≤ id.toIndex) (hn : d.nodes[id.toIndex]? = some node) :
    d.Leads id r ↔ ∃ b r', (node.var, b) :: r' = r ∧ d.Leads (node.child b) r' := by
  constructor
  · intro h
    cases h with
    | one => exact absurd h2 (by decide)
    | @step _ node' b r' _ hn' hr =>
      obtain rfl : node = node' := Option.some.inj (hn.symm.trans hn')
      exact ⟨b, r', rfl, hr⟩
  · rintro ⟨b, r', rfl, hr⟩
    exact .step h2 hn hr

/-- Only variables of the order are decided. -/
theorem Leads.var_lt (hd : d.Grounded) (h : d.Leads id r) (hp : p ∈ r) :
    p.1.index < d.numVars := by
  induction h with
  | one => cases hp
  | step h2 hn _ ih =>
    rcases List.mem_cons.1 hp with rfl | hp
    · exact (hd.fits h2 hn).var_lt
    · exact ih hp

/-- No variable before that of the node is decided. -/
theorem Leads.var_le (hd : d.Grounded) (h : d.Leads id r) (hn : d.nodes[id.toIndex]? = some node)
    (hp : p ∈ r) : node.var ≤ p.1 := by
  induction h generalizing node with
  | one => cases hp
  | @step id node' b r h2 hn' _ ih =>
    obtain rfl : node = node' := Option.some.inj (hn.symm.trans hn')
    rcases List.mem_cons.1 hp with rfl | hp
    · exact Variable.le_iff.2 (Nat.le_refl _)
    · obtain ⟨child, hchild, -, hlt⟩ := hd.exists_child h2 hn b
      have hle := Variable.le_iff.1 (ih hchild hp)
      exact Variable.le_iff.2 (Nat.le_of_lt (Nat.lt_of_lt_of_le hlt hle))

/-- On a route the variables come in order. -/
theorem Leads.sorted (hd : d.Grounded) (h : d.Leads id r) : r.Pairwise fun p q => p.1 < q.1 := by
  induction h with
  | one => exact .nil
  | @step id node b r h2 hn hr ih =>
    refine .cons (fun p hp => ?_) ih
    obtain ⟨child, hchild, -, hlt⟩ := hd.exists_child h2 hn b
    have hle := Variable.le_iff.1 (hr.var_le hd hchild hp)
    exact Variable.lt_iff.2 (Nat.lt_of_lt_of_le hlt hle)

/-- A node is true at a point exactly if a route leads from it that agrees with the
point. -/
theorem Grounded.valueAt_iff (hd : d.Grounded) (hid : id.toIndex < d.size) :
    d.valueAt σ id = true ↔ ∃ r, d.Leads id r ∧ ∀ p ∈ r, σ p.1 = p.2 := by
  induction id, hid using hd.induct with
  | terminal b _ =>
    rw [valueAt_ofBool]
    cases b with
    | false =>
      simp only [Bool.false_eq_true, false_iff]
      rintro ⟨r, hr, -⟩
      exact not_leads_zero hr
    | true =>
      simp only [true_iff]
      exact ⟨[], .one, by simp⟩
  | decision id node _ h2 hn ih =>
    rw [hd.valueAt_node h2 hn, ih _ (hd.child_lt_size h2 hn _)]
    constructor
    · rintro ⟨r, hr, hσ⟩
      exact ⟨_, .step h2 hn hr, List.forall_mem_cons.2 ⟨rfl, hσ⟩⟩
    · rintro ⟨r, hr, hσ⟩
      obtain ⟨b, r', rfl, hr'⟩ := (leads_node_iff h2 hn).1 hr
      obtain ⟨hb, hσ'⟩ := List.forall_mem_cons.1 hσ
      exact ⟨r', hb ▸ hr', hσ'⟩

/-! ### All routes -/

/-- The routes from a node can be listed. -/
theorem Grounded.exists_routes (hd : d.Grounded) (hid : id.toIndex < d.size) :
    ∃ rs, d.Routes id rs := by
  induction id, hid using hd.induct with
  | terminal b _ =>
    cases b with
    | false => exact ⟨_, .zero⟩
    | true => exact ⟨_, .one⟩
  | decision id node _ h2 hn ih =>
    obtain ⟨lows, hlows⟩ := ih false (hd.child_lt_size h2 hn false)
    obtain ⟨highs, hhighs⟩ := ih true (hd.child_lt_size h2 hn true)
    exact ⟨_, .node h2 hn hlows hhighs⟩

/-- The list holds exactly the routes that lead from the node. -/
theorem Routes.mem_iff (h : d.Routes id rs) : r ∈ rs ↔ d.Leads id r := by
  induction h generalizing r with
  | zero => simpa using not_leads_zero
  | one => simpa using leads_one_iff.symm
  | @node id node lows highs h2 hn _ _ ihLow ihHigh =>
    rw [leads_node_iff h2 hn, Bool.exists_bool]
    simp [ihLow, ihHigh, and_comm]

theorem Routes.eq_nil (h : d.Routes .zero rs) : rs = [] :=
  List.eq_nil_iff_forall_not_mem.2 fun _ hr => not_leads_zero (h.mem_iff.1 hr)

/-- Of two routes in the list, the earlier one goes low where they part. -/
theorem Routes.pairwise_parts (h : d.Routes id rs) : rs.Pairwise Route.Parts := by
  induction h with
  | zero => exact .nil
  | one => exact List.pairwise_singleton _ _
  | node _ _ _ _ ihLow ihHigh =>
    refine List.pairwise_append.2 ⟨?_, ?_, ?_⟩
    · exact List.pairwise_map.2 (ihLow.imp fun h => h.cons _)
    · exact List.pairwise_map.2 (ihHigh.imp fun h => h.cons _)
    · intro r hr r' hr'
      obtain ⟨low, -, rfl⟩ := List.mem_map.1 hr
      obtain ⟨high, -, rfl⟩ := List.mem_map.1 hr'
      exact Route.parts_of_ne _ _ _

end Diagram

end DecisionDiagram
