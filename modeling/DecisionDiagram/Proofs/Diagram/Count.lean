import DecisionDiagram.Proofs.Diagram.Constants
import DecisionDiagram.Proofs.Diagram.Overflow
import DecisionDiagram.Proofs.Diagram.Solutions
import Mathlib.Data.Set.Card

/-!
# The exact count

A route that decides some of the variables from a level on is followed by as many
valuations of these variables as there are choices for the others.  The pass adds these
powers of two up over the routes from each node, and the routes from the root are followed
by every satisfying valuation once.  So the exact count is the number of satisfying
valuations, which does not depend on how the table shares its nodes, unless the table has
more entries than there are ids.
-/

namespace DecisionDiagram

namespace Route

variable {n k k' : Nat} {r : Route} {rs : List Route} {p : Variable × Bool}

/-- A sorted route decides as many variables as it has decisions. -/
theorem freeBelow_ofValues (hsorted : r.Pairwise fun p q => p.1 < q.1)
    (hlt : ∀ p ∈ r, p.1.toIndex < n) (hn : n ≤ 65536) :
    (Cube.ofValues r).freeBelow n + r.length = n := by
  have hfixed : ((List.range n).filter fun j => (Cube.ofValues r).fixes (.atIndex j)).Perm
      (r.map (·.1.toIndex)) := by
    have hnodup : (r.map (·.1.toIndex)).Nodup :=
      List.pairwise_map.2 (hsorted.imp fun h => Nat.ne_of_lt (Variable.lt_iff.1 h))
    rw [List.perm_ext_iff_of_nodup (List.nodup_range.filter _) hnodup]
    intro j
    simp only [List.mem_filter, List.mem_range, List.mem_map, Cube.fixes,
      Option.isSome_iff_exists, get?_ofValues hsorted]
    constructor
    · rintro ⟨hj, b, hb⟩
      exact ⟨_, hb, Variable.toIndex_atIndex (by omega)⟩
    · rintro ⟨p, hp, rfl⟩
      exact ⟨hlt p hp, p.2, by simpa using hp⟩
  have hlength := hfixed.length_eq
  have hsplit := List.length_eq_countP_add_countP (l := List.range n)
    fun j => (Cube.ofValues r).fixes (.atIndex j)
  rw [List.length_map, ← List.countP_eq_length_filter] at hlength
  rw [List.length_range, hlength] at hsplit
  simp only [Bool.not_eq_true, Bool.decide_eq_false] at hsplit
  rw [Cube.freeBelow]
  omega

/-- The number of valuations of the variables from position `k` to `n` that follow one of
the routes. -/
def ways (n k : Nat) (rs : List Route) : Nat := (rs.map fun r => 2 ^ (n - k - r.length)).sum

@[simp] theorem ways_nil : ways n k [] = 0 := rfl

theorem ways_append (rs rs' : List Route) : ways n k (rs ++ rs') = ways n k rs + ways n k rs' := by
  simp [ways]

/-- Variables that no route decides count twice. -/
theorem ways_mul (hk : k ≤ k') (hlength : ∀ r ∈ rs, k' + r.length ≤ n) :
    ways n k' rs * 2 ^ (k' - k) = ways n k rs := by
  induction rs with
  | nil => simp
  | cons r rs ih =>
    obtain ⟨hr, hrs⟩ := List.forall_mem_cons.1 hlength
    have hexp : n - k - r.length = n - k' - r.length + (k' - k) := by omega
    have hrest := ih hrs
    simp only [ways, List.map_cons, List.sum_cons] at hrest ⊢
    rw [Nat.add_mul, hrest, ← Nat.pow_add, ← hexp]

/-- One more decision takes one more variable. -/
theorem ways_map_cons (rs : List Route) :
    ways n k (rs.map (p :: ·)) = ways n (k + 1) rs := by
  have hexp : ∀ r : Route, n - k - (r.length + 1) = n - (k + 1) - r.length := fun r => by omega
  simp [ways, Function.comp_def, hexp]

end Route

theorem Cube.length_completions (c : Cube) (n : Nat) :
    (c.completions n).length = 2 ^ c.freeBelow n := by
  simp [completions]

namespace Diagram

variable {d d' : Diagram} {id : NodeId} {node : Node} {r : Route} {rs : List Route}
  {f : NodeId → Nat} {v : Valuation} {vs : List Valuation}

/-- The satisfying valuations of a diagram. -/
def models (d : Diagram) : Set Valuation :=
  { v | v.bits.size = d.numVars.toNat ∧ d.eval v = .ok true }

theorem mem_models : v ∈ d.models ↔ v.bits.size = d.numVars.toNat ∧ d.eval v = .ok true := .rfl

/-! ### Counting along routes -/

/-- A route has room for its decisions after the level of its node. -/
theorem Leads.level_add_length_le (hd : d.Grounded) (h : d.Leads id r) :
    d.level id + r.length ≤ d.numVars.toNat := by
  induction h with
  | one => exact Nat.le_of_eq (hd.level_ofBool true)
  | @step id node b r h2 hn _ ih =>
    have hlt := hd.level_lt_child h2 hn b
    rw [List.length_cons]
    omega

/-- What a child contributes is the number of ways to follow the routes through it. -/
theorem Routes.sideWeight_eq (hd : d.Grounded) (h2 : 2 ≤ id.toIndex)
    (hn : d.nodes[id.toIndex]? = some node) {b : Bool} (h : d.Routes (node.child b) rs)
    (hf : f (node.child b) = Route.ways d.numVars.toNat (d.level (node.child b)) rs) :
    d.sideWeight f id (node.child b) =
      Route.ways d.numVars.toNat (d.level id) (rs.map ((node.var, b) :: ·)) := by
  rw [Route.ways_map_cons, ← Route.ways_mul (hd.level_lt_child h2 hn b)
    fun r hr => (h.mem_iff.1 hr).level_add_length_le hd, ← hf, Nat.succ_eq_add_one, ← Nat.sub_sub]
  rfl

/-- The pass counts the ways to follow the routes from each node. -/
theorem Counted.eq_ways (hd : d.Grounded) (hf : d.Counted d.size f) (h : d.Routes id rs) :
    f id = Route.ways d.numVars.toNat (d.level id) rs := by
  induction h with
  | zero => exact hf.zero_eq
  | one =>
    rw [hf.one_eq, hd.level_one]
    simp [Route.ways, Counting.one]
  | @node id node lows highs h2 hn hlows hhighs ihLow ihHigh =>
    have hid := (Array.getElem?_eq_some_iff.1 hn).1
    rw [hf.node_eq id node h2 hid hn, weight_eq,
      Routes.sideWeight_eq (b := false) hd h2 hn hlows ihLow,
      Routes.sideWeight_eq (b := true) hd h2 hn hhighs ihHigh, Route.ways_append]
    rfl

/-- The completions of the paths of a diagram are as many as there are ways to follow its
routes. -/
theorem Routes.length_completions (hd : d.Grounded) (h : d.Routes id rs) :
    ((rs.map Cube.ofValues).flatMap (·.completions d.numVars.toNat)).length =
      Route.ways d.numVars.toNat 0 rs := by
  have hn := d.numVars.toNat_lt
  rw [List.length_flatMap, List.map_map, Route.ways]
  refine congrArg List.sum (List.map_congr_left fun r hr => ?_)
  have hleads := h.mem_iff.1 hr
  have hfree := Route.freeBelow_ofValues (hleads.sorted hd)
    (fun p hp => UInt16.lt_iff_toNat_lt.1 (hleads.var_lt hd hp)) (Nat.le_of_lt hn)
  rw [Function.comp_apply, Cube.length_completions]
  congr 1
  omega

/-! ### Satisfying valuations -/

theorem ncard_models (hnodup : vs.Nodup) (hmem : ∀ v, v ∈ vs ↔ v ∈ d.models) :
    d.models.Finite ∧ d.models.ncard = vs.length := by
  have hset : d.models = (vs.toFinset : Set Valuation) := by
    ext v
    simp [hmem]
  rw [hset, Set.ncard_coe_finset, List.toFinset_card_of_nodup hnodup]
  exact ⟨Finset.finite_toSet _, rfl⟩

/-- The satisfying valuations are those that follow the routes from the root. -/
theorem Routes.ncard_models (hd : d.Grounded) (h : d.Routes d.root rs) :
    d.models.Finite ∧ d.models.ncard = Route.ways d.numVars.toNat 0 rs := by
  obtain ⟨hfinite, hcard⟩ := Diagram.ncard_models (h.nodup_completions hd)
    fun v => h.mem_completions_iff hd
  exact ⟨hfinite, hcard.trans (h.length_completions hd)⟩

/-- They are finitely many, and the enumeration delivers as many. -/
theorem Grounded.yields_models (hd : d.Grounded) :
    d.models.Finite ∧ ∃ s vs, d.solutions = .ok s ∧ Cursor.Yields s vs ∧
      vs.length = d.models.ncard := by
  obtain ⟨rs, hrs⟩ := hd.exists_routes hd.root_lt
  obtain ⟨p, hpaths, hdiagram, hyields⟩ := hd.yields_paths hrs
  obtain ⟨s, hs, hall⟩ := yields_solutions hpaths hyields hdiagram (hrs.within hd)
  obtain ⟨hfinite, hcard⟩ := hrs.ncard_models hd
  exact ⟨hfinite, s, _, hs, hall, (hrs.length_completions hd).trans hcard.symm⟩

/-- The number of the root, doubled for each variable before it, is the number of satisfying
valuations. -/
theorem Counted.eq_ncard (hd : d.Grounded) (hf : d.Counted d.size f) :
    f d.root * 2 ^ d.level d.root = d.models.ncard := by
  obtain ⟨rs, hrs⟩ := hd.exists_routes hd.root_lt
  rw [(hrs.ncard_models hd).2, hf.eq_ways hd hrs, ← Route.ways_mul (Nat.zero_le _)
    fun r hr => (hrs.mem_iff.1 hr).level_add_length_le hd]
  rfl

/-- The exact count of a valid diagram is the number of its satisfying valuations. -/
theorem Valid.count_eq_ncard (hd : d.Valid) : d.count = .ok d.models.ncard := by
  obtain ⟨f, hf, htally⟩ := hd.tally_eq Nat
  rw [count, htally, tally_nat (fun hroot => hroot ▸ hf.zero_eq), hf.eq_ncard hd.grounded]

/-- In a table where the pass comes back to the id of the root, the count is too large. -/
theorem Grounded.count_of_overflow (hd : d.Grounded) (hroot : 4294967296 + d.root.toIndex < d.size)
    (hsize : d.size ≤ 8589934592) : d.count = .ok (2 ^ 65536 * d.models.ncard) := by
  obtain ⟨f, hf, hcount⟩ := hd.count_of_size_gt hroot hsize
  rw [hcount, hf.eq_ncard hd]

/-- A decision node as root has satisfying valuations, so that the factor shows. -/
theorem Grounded.count_ne_ncard (hd : d.Grounded) (h2 : 2 ≤ d.root.toIndex)
    (hroot : 4294967296 + d.root.toIndex < d.size) (hsize : d.size ≤ 8589934592) :
    d.count ≠ .ok d.models.ncard := by
  obtain ⟨v, hv, heval⟩ := hd.exists_evalFrom h2 hd.root_lt true
  have hpos : 0 < d.models.ncard :=
    (Set.ncard_pos hd.yields_models.1).2 ⟨v, mem_models.2 ⟨hv, heval⟩⟩
  have hgrows : ∀ k, k ≠ 0 → d.models.ncard < 2 ^ k * d.models.ncard :=
    fun k hk => (Nat.lt_mul_iff_one_lt_left hpos).2 (Nat.one_lt_two_pow hk)
  rw [hd.count_of_overflow hroot hsize]
  intro heq
  exact Nat.ne_of_gt (hgrows 65536 (by decide)) (Except.ok.inj heq)

theorem models_congr (hnum : d'.numVars = d.numVars)
    (h : ∀ v : Valuation, v.bits.size = d.numVars.toNat → d'.eval v = d.eval v) :
    d'.models = d.models := by
  ext v
  rw [mem_models, mem_models, hnum]
  exact and_congr_right fun hv => by rw [h v hv]

/-- Only a compiled diagram can be larger than ids can tell. -/
theorem Obtained.valid (h : d.Obtained)
    (hsize : ∀ c : Cover, c.compile = .ok d → d.size ≤ 4294967296) : d.Valid := by
  cases h with
  | read h => exact valid_of_ofNodes h
  | compiled h => exact (Obtained.compiled h).grounded.valid (hsize _ h)

theorem Grounded.models_front (hd : d.Grounded) : d.front.models = d.models :=
  models_congr rfl fun _ hv => hd.eval_front hv

/-- Counting with natural numbers is right in a table of at most `2 ^ 32` entries, as every
table is that passes the check. No difference of variables that the pass takes goes below
zero, at any decision node; the count is the number of satisfying valuations; and the count of
any other such diagram with the same values is the same. The satisfying valuations are finitely
many, and the enumeration delivers as many, however long the table is. -/
theorem Obtained.count_models (h : d.Obtained) :
    (∀ order nodes root, ofNodes order nodes root = .ok d → d.size ≤ 4294967296) ∧
    d.models.Finite ∧
    (∃ s vs, d.solutions = .ok s ∧ Cursor.Yields s vs ∧ vs.length = d.models.ncard) ∧
    (d.size ≤ 4294967296 →
      (∀ id ∈ d.decisionIds, ∃ node, d.node id = .ok node ∧ ∀ b, ∃ child,
        d.node (node.child b) = .ok child ∧ node.var.index ≤ child.var.index ∧
          1 ≤ child.var.index - node.var.index) ∧
      d.count = .ok d.models.ncard ∧
      ∀ d' : Diagram, d'.Obtained → d'.size ≤ 4294967296 → d'.numVars = d.numVars →
        (∀ v : Valuation, v.bits.size = d.numVars.toNat → d'.eval v = d.eval v) →
        d'.count = d.count) := by
  obtain ⟨hfinite, hyields⟩ := h.grounded.yields_models
  refine ⟨fun _ _ _ hread => (valid_of_ofNodes hread).size_le, hfinite, hyields, fun hsize => ?_⟩
  have hd := h.grounded.valid hsize
  refine ⟨fun id hid => hd.gaps hid, hd.count_eq_ncard, fun d' h' hsize' hnum heval => ?_⟩
  rw [(h'.grounded.valid hsize').count_eq_ncard, hd.count_eq_ncard, models_congr hnum heval]

theorem count_models_either : either.count = .ok 3 ∧ either.models.ncard = 3 := by
  have hcount : either.count = .ok 3 := by decide
  obtain ⟨-, -, -, hfits⟩ := Obtained.count_models obtained_either
  obtain ⟨-, hncard, -⟩ := hfits (by decide)
  exact ⟨hcount, Except.ok.inj (hncard.symm.trans hcount)⟩

/-- In a longer table, however, the pass comes back to the id of the terminal `0`, where a
difference goes below zero, and the count is too large. That of the front of the table, which
is a diagram with the same values, is not. -/
theorem count_models_outgrown :
    ∃ (o : VarOrder) (ho : o.numVars = 65) (d d' : Diagram),
      VarOrder.ofNames (VarOrder.unaryNames 65) = .ok o ∧ (Cover.outgrown o ho).compile = .ok d ∧
      (.zero ∈ d.decisionIds ∧ ∃ node child, d.node .zero = .ok node ∧
        d.node node.low = .ok child ∧ ¬1 ≤ child.var.index - node.var.index) ∧
      d.count = .ok (2 ^ 65536 * d.models.ncard) ∧ d.count ≠ .ok d.models.ncard ∧
      d'.Obtained ∧ d'.numVars = d.numVars ∧
      (∀ v : Valuation, v.bits.size = d.numVars.toNat → d'.eval v = d.eval v) ∧
      d'.count ≠ d.count := by
  obtain ⟨o, ho, hn⟩ := VarOrder.exists_ofNames_unaryNames (n := 65) (by decide)
  have ho' : o.numVars = 65 := UInt16.toNat_inj.1 hn
  obtain ⟨hsize, hroot, -⟩ := Cover.diagram_outgrown ho'
  have hd := Cover.grounded_diagram (Cover.outgrown o ho')
  have hfour : (Cover.outgrown o ho').diagram.root.toIndex = 4 := by
    rw [hroot]
    decide
  have hwrong := hd.count_ne_ncard (by omega) (by omega) (by omega)
  refine ⟨o, ho', _, (Cover.outgrown o ho').diagram.front, ho, Cover.compile_eq _,
    hd.underflow (by omega), hd.count_of_overflow (by omega) (by omega), hwrong,
    Valid.obtained hd, rfl, fun v hv => hd.eval_front hv, ?_⟩
  rw [Valid.count_eq_ncard hd, hd.models_front]
  exact hwrong.symm

end Diagram

end DecisionDiagram
