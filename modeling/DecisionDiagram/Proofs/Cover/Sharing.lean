import DecisionDiagram.Proofs.Cover.Stages
import DecisionDiagram.Proofs.Tree.Canonical
import DecisionDiagram.Proofs.Tree.Indexed
import Mathlib.Data.List.Forall2

/-!
# The map mirrors the table

A construction changes its pool by requests for nodes only.  `Later` is what any number of
requests do to a pool, each for a node whose sides stand in the table and come after its
variable.  They keep a pool sound and its nodes different, and whatever the map has once
found for a node it finds for ever.

That the task loop makes no other requests is seen from the results on its stack: `Awaits`
tells at which positions of the order the tasks expect them to stand, and each turn leaves
behind what the next one expects.
-/

namespace DecisionDiagram

namespace Pool

variable {o : VarOrder} {p q r : Pool} {node : Node} {x : Variable} {low high id : NodeId}

/-! ### One request after another -/

/-- A request for a node whose sides stand in the table and come after its variable. -/
inductive Asked : Pool → Pool → Prop
  /-- The pool is what the request leaves behind. -/
  | intern {p : Pool} {x : Variable} {low high : NodeId} :
    p.Stands (x.toIndex + 1) low → p.Stands (x.toIndex + 1) high →
    Asked p (p.intern x low high).2

/-- Any number of requests. -/
def Later : Pool → Pool → Prop := Relation.ReflTransGen Asked

/-- What the map finds for a node does not change. -/
theorem find?_intern_of_eq_some (h : p.find? node = some id) :
    (p.intern x low high).2.find? node = some id := by
  rcases p.intern_cases x low high with ⟨-, hp⟩ | ⟨-, id', -, hp⟩ | ⟨-, hnew, hp⟩ <;> rw [hp]
  · exact h
  · exact h
  · have hne : (⟨x, low, high⟩ : Node) ≠ node := by
      rintro rfl
      rw [hnew] at h
      cases h
    rw [find?_push (isSome_ids_of_find? h), if_neg hne, h]

/-- With sharing, a node that was requested is found. -/
theorem find?_intern (hs : p.ids.isSome) (hne : low ≠ high) :
    (p.intern x low high).2.find? ⟨x, low, high⟩ = some (p.intern x low high).1 := by
  rcases p.intern_cases x low high with ⟨heq, -⟩ | ⟨-, id, hf, hp⟩ | ⟨-, -, hp⟩
  · exact absurd heq hne
  · rw [hp]
    exact hf
  · rw [hp, find?_push hs, if_pos rfl, fst_push]

theorem Later.extends (h : p.Later q) : Extends p.nodes q.nodes := by
  induction h with
  | refl => exact .refl _
  | tail _ hasked ih =>
    cases hasked with
    | intern => exact ih.trans (extends_intern _ _ _ _)

theorem Later.find?_eq_some (h : p.Later q) (hf : p.find? node = some id) :
    q.find? node = some id := by
  induction h with
  | refl => exact hf
  | tail _ hasked ih =>
    cases hasked with
    | intern => exact find?_intern_of_eq_some ih

theorem Later.indexed (h : p.Later q) (hp : p.Indexed) : q.Indexed := by
  induction h with
  | refl => exact hp
  | tail _ hasked ih =>
    cases hasked with
    | intern => exact ih.intern _ _ _

/-- No node of a sound pool comes after the terminals. -/
theorem Sound.le_numVars (hp : p.Sound o) {k : Nat} (h : p.Stands k id) :
    k ≤ o.numVars.toNat := by
  obtain ⟨node, hn, hk⟩ := h
  rcases id.ofBool_or_two_le with ⟨b, rfl⟩ | h2
  · rw [hp.valid.var_ofBool b hn] at hk
    exact hk
  · have hlt := UInt16.lt_iff_toNat_lt.1 (hp.valid.fits _ _ h2 hn).var_lt
    exact Nat.le_of_lt (Nat.lt_of_le_of_lt hk hlt)

theorem Later.sound (h : p.Later q) (hp : p.Sound o) (hsize : q.nodes.size ≤ 4294967296) :
    q.Sound o := by
  induction h with
  | refl => exact hp
  | tail _ hasked ih =>
    cases hasked with
    | intern hlow hhigh =>
      have hr := ih (Nat.le_trans (extends_intern _ _ _ _).size_le hsize)
      exact (hr.intern (hr.le_numVars hlow) hlow hhigh hsize).sound

/-- What was requested once is delivered again, however many requests there were since. -/
theorem intern_again (hs : p.ids.isSome) (h : (p.intern x low high).2.Later r) :
    SameResult (r.intern x low high) ((p.intern x low high).1, r) := by
  by_cases hne : low = high
  · subst hne
    rw [p.intern_self]
    exact r.sameResult_intern_self x low
  · rw [intern_of_find?_eq_some hne (h.find?_eq_some (find?_intern hs hne))]
    exact ⟨rfl, Alike.log r _⟩

/-- With sharing, the entries of the map are the nodes of the table with their positions. -/
theorem Sound.exists_ids (hp : p.Sound o) (hs : p.ids.isSome) :
    ∃ ids, p.ids = some ids ∧ ∀ (node : Node) (i : Nat),
      ids[node]?.map NodeId.toIndex = some i ↔ p.nodes[i]? = some node := by
  obtain ⟨ids, hids⟩ := Option.isSome_iff_exists.1 hs
  have hfind : ∀ (node : Node) (id : NodeId),
      ids[node]? = some id ↔ p.nodes[id.toIndex]? = some node := by
    intro node id
    have h := hp.find?_iff hs node id
    rwa [find?, hids, Option.bind_some] at h
  refine ⟨ids, hids, fun node i => ?_⟩
  rw [Option.map_eq_some_iff]
  constructor
  · rintro ⟨id, hid, rfl⟩
    exact (hfind node id).1 hid
  · intro hn
    have hi : i < p.nodes.size := (Array.getElem?_eq_some_iff.1 hn).1
    have hid := hp.valid.toIndex_ofIndex hi
    exact ⟨.ofIndex i, (hfind node _).2 (hid.symm ▸ hn), hid⟩

/-- A diagram evaluates to the value of its root, which may be any node of a sound pool. -/
theorem Sound.eval_diagram (hp : p.Sound o) (hid : id.toIndex < p.nodes.size) {v : Valuation}
    (hv : v.bits.size = o.numVars.toNat) :
    (p.diagram o id).eval v = .ok ((p.diagram o .zero).valueAt v.point id) := by
  have hvalue : (p.diagram o id).valueAt v.point id = (p.diagram o .zero).valueAt v.point id :=
    hp.valid.valueAt_extend (.refl _) hid
  rw [← hvalue]
  exact (hp.valid.withRoot hid).evalFrom_eq hv hid

/-- Under any valuation a requested node decides between the values of its two sides. -/
theorem Sound.eval_intern (hp : p.Sound o) (hlow : p.Stands (x.toIndex + 1) low)
    (hhigh : p.Stands (x.toIndex + 1) high)
    (hsize : (p.intern x low high).2.nodes.size ≤ 4294967296) {v : Valuation}
    (hv : v.bits.size = o.numVars.toNat) :
    ∃ b lo hi, v.value x = .ok b ∧ (p.diagram o low).eval v = .ok lo ∧
      (p.diagram o high).eval v = .ok hi ∧
      ((p.intern x low high).2.diagram o (p.intern x low high).1).eval v =
        .ok (if b then hi else lo) := by
  have hx : x.toIndex < o.numVars.toNat := hp.le_numVars hlow
  have hq := hp.intern hx hlow hhigh hsize
  have hbit := v.getElem?_eq_point (x := x) (by omega)
  refine ⟨_, _, _, Valuation.value_eq_ok_iff.2 hbit, hp.eval_diagram hlow.lt_size hv,
    hp.eval_diagram hhigh.lt_size hv, ?_⟩
  rw [hq.sound.eval_diagram hq.stands.lt_size hv, hp.valueAt_intern hx hlow hhigh hq.sound]

end Pool

namespace Cover

variable {o : VarOrder} {c : Cover} {tasks : List Task} {results : List NodeId}
  {p : Pool} {x : Variable} {low high : NodeId} {s s' : Stage}

/-! ### What the tasks expect -/

/-- The tasks can be worked off over `n` variables when the results at hand stand at the
given positions of the order or later.  An expansion adds a result that stands where it
starts; a join takes two that stand after its variable and adds one that stands at it. -/
inductive Awaits (n : Nat) : (tasks : List Task) → (positions : List Nat) → Prop
  /-- In the end there is one result. -/
  | done {k : Nat} : Awaits n [] [k]
  /-- An expansion starts at a variable of the order or at its end. -/
  | expand {v : Variable} {rows : List Row} {tasks : List Task} {k : Nat} {ks : List Nat} :
    k ≤ v.toIndex → v.toIndex ≤ n → Awaits n tasks (k :: ks) →
    Awaits n (.expand v rows :: tasks) ks
  /-- A join is for a variable before its two results. -/
  | join {x : Variable} {tasks : List Task} {k : Nat} {ks : List Nat} :
    k ≤ x.toIndex → x.toIndex < n → Awaits n tasks (k :: ks) →
    Awaits n (.join x :: tasks) ((x.toIndex + 1) :: (x.toIndex + 1) :: ks)

/-- A stage with a sound pool, whose results stand where the tasks expect them. -/
structure Stage.Sound (o : VarOrder) (s : Stage) : Prop where
  /-- The pool is sound. -/
  pool : s.pool.Sound o
  /-- The results stand where they are expected. -/
  results : ∃ ks, Awaits o.numVars.toNat s.tasks ks ∧ List.Forall₂ s.pool.Stands ks s.results

theorem sound_firstStage (c : Cover) : c.firstStage.Sound c.order where
  pool := Pool.sound_start c.order c.sharing
  results := ⟨[], .expand (Nat.zero_le 0) (Nat.zero_le _) .done, .nil⟩

/-- The two results that a join takes stand after its variable. -/
theorem Stage.Sound.stands_join
    (h : (⟨.join x :: tasks, low :: high :: results, p⟩ : Stage).Sound o) :
    p.Stands (x.toIndex + 1) low ∧ p.Stands (x.toIndex + 1) high := by
  obtain ⟨ks, hawaits, hstands⟩ := h.results
  cases hawaits with
  | join =>
    obtain ⟨hlow, hrest⟩ := List.forall₂_cons.1 hstands
    exact ⟨hlow, (List.forall₂_cons.1 hrest).1⟩

/-- A turn is at most one request. -/
theorem Step.later (h : Step o.numVars s s') (hs : s.Sound o) : s.pool.Later s'.pool := by
  cases h with
  | join =>
    obtain ⟨hlow, hhigh⟩ := hs.stands_join
    exact .single (.intern hlow hhigh)
  | _ => exact .refl

/-- Each turn leaves behind what the next one expects. -/
theorem Step.sound (h : Step o.numVars s s') (hs : s.Sound o)
    (hsize : s'.pool.nodes.size ≤ 4294967296) : s'.Sound o := by
  have hpool := (h.later hs).sound hs.pool hsize
  obtain ⟨ks, hawaits, hstands⟩ := hs.results
  cases h with
  | zero =>
    cases hawaits with
    | expand hk hv htasks =>
      have hleaf := hpool.stands_ofBool (Nat.le_trans hk hv) false
      exact ⟨hpool, _, htasks, .cons hleaf hstands⟩
  | one =>
    cases hawaits with
    | expand hk hv htasks =>
      have hleaf := hpool.stands_ofBool (Nat.le_trans hk hv) true
      exact ⟨hpool, _, htasks, .cons hleaf hstands⟩
  | skip hopen =>
    cases hawaits with
    | expand hk hv htasks =>
      have hnext := hopen.toIndex_succ hv
      exact ⟨hpool, _, .expand (by omega) (hopen.succ_le hv) htasks, hstands⟩
  | branch hopen =>
    cases hawaits with
    | expand hk hv htasks =>
      have hnext := Nat.le_of_eq (hopen.toIndex_succ hv).symm
      have hle := hopen.succ_le hv
      have hjoin := Awaits.join hk (hopen.toIndex_lt hv) htasks
      exact ⟨hpool, _, .expand hnext hle (.expand hnext hle hjoin), hstands⟩
  | join =>
    cases hawaits with
    | join hk hx htasks =>
      obtain ⟨hlow, hrest⟩ := List.forall₂_cons.1 hstands
      obtain ⟨hhigh, hrest⟩ := List.forall₂_cons.1 hrest
      have hnode := hs.pool.intern hx hlow hhigh hsize
      refine ⟨hpool, _, htasks, .cons (hnode.stands.mono hk) ?_⟩
      exact hrest.imp fun _ _ hstand => hstand.extend hnode.keeps

/-- The pools of a construction come from each other by requests. -/
theorem Steps.sound_later (h : Steps o.numVars s s') (hs : s.Sound o)
    (hsize : s'.pool.nodes.size ≤ 4294967296) : s'.Sound o ∧ s.pool.Later s'.pool := by
  induction h with
  | refl => exact ⟨hs, .refl⟩
  | tail _ hstep ih =>
    obtain ⟨hsound, hlater⟩ := ih (Nat.le_trans hstep.extends.size_le hsize)
    exact ⟨hstep.sound hsound hsize, .trans hlater (hstep.later hsound)⟩

/-! ### The map and the table -/

/-- Constructions with sharing.  At every stage, and after any requests that may be made of its
pool, the entries of the map are the nodes of the table with their positions, and no node
stands twice.  A request for a node, whose sides stand in the table and come after its variable,
delivers an id whose function decides between those of the two sides; it keeps the table and
may add to it; and made again later it delivers the same id and leaves the table as it is.  The
pools of later stages are among those that come later. -/
theorem sharing_mirrors (hs : c.sharing = true) (h : Steps c.order.numVars c.firstStage s)
    (hp : s.pool.Later p) (hsize : p.nodes.size ≤ 4294967296) :
    (∃ ids, p.ids = some ids ∧ ∀ (node : Node) (i : Nat),
      ids[node]?.map NodeId.toIndex = some i ↔ p.nodes[i]? = some node) ∧
    p.nodes.toList.Nodup ∧
    (∀ (x : Variable) (low high id : NodeId) (q : Pool),
      p.Stands (x.toIndex + 1) low → p.Stands (x.toIndex + 1) high →
      p.intern x low high = (id, q) → q.nodes.size ≤ 4294967296 →
      (∀ v : Valuation, v.bits.size = c.order.numVars.toNat →
        ∃ b lo hi, v.value x = .ok b ∧ (p.diagram c.order low).eval v = .ok lo ∧
          (p.diagram c.order high).eval v = .ok hi ∧
          (q.diagram c.order id).eval v = .ok (if b then hi else lo)) ∧
      Extends p.nodes q.nodes ∧
      ∀ r, q.Later r → ∃ r', r.intern x low high = (id, r') ∧ r'.nodes = r.nodes ∧ r'.ids = r.ids) ∧
    ∀ s', Steps c.order.numVars s s' → s'.pool.nodes.size ≤ 4294967296 →
      s.pool.Later s'.pool := by
  have hstage : s.pool.nodes.size ≤ 4294967296 := Nat.le_trans hp.extends.size_le hsize
  obtain ⟨hsound, hlater⟩ := h.sound_later c.sound_firstStage hstage
  have hpool : p.Sound c.order := hp.sound hsound.pool hsize
  have hindexed : p.Indexed := by
    refine hp.indexed (hlater.indexed ?_)
    have hfirst := Pool.indexed_start c.order.numVars
    rwa [← hs] at hfirst
  refine ⟨hpool.exists_ids hindexed.isSome_ids, hindexed.nodup, ?_, ?_⟩
  · intro x low high id q hlow hhigh hq hqsize
    obtain ⟨rfl, rfl⟩ := Prod.mk.inj hq
    refine ⟨fun v hv => hpool.eval_intern hlow hhigh hqsize hv, p.extends_intern x low high, ?_⟩
    intro r hr
    obtain ⟨hid, halike⟩ := Pool.intern_again hindexed.isSome_ids hr
    exact ⟨(r.intern x low high).2, Prod.ext hid rfl, halike.nodes_eq, halike.ids_eq⟩
  · intro s' hrest hsize'
    exact (hrest.sound_later hsound hsize').2

theorem sharing_mirrors_sample :
    (∃ ids, (sample true).firstStage.pool.ids = some ids ∧
      ids[Node.one 2]?.map NodeId.toIndex = some 1) ∧
    ∃ id q, (sample true).firstStage.pool.intern ⟨1⟩ .zero .one = (id, q) ∧
      (q.diagram (sample true).order id).eval ⟨#[false, true]⟩ = .ok true ∧
      ∃ r, q.intern ⟨1⟩ .zero .one = (id, r) ∧ r.nodes = q.nodes := by
  obtain ⟨⟨ids, hids, hmap⟩, -, hrequest, -⟩ :=
    sharing_mirrors (c := sample true) rfl .refl .refl (by decide)
  have hsize := (sample true).firstStage.pool.size_intern_le ⟨1⟩ .zero .one
  rcases hq : (sample true).firstStage.pool.intern ⟨1⟩ .zero .one with ⟨id, q⟩
  rw [hq] at hsize
  refine ⟨⟨ids, hids, (hmap _ 1).2 rfl⟩, id, q, rfl, ?_⟩
  obtain ⟨heval, -, hagain⟩ := hrequest ⟨1⟩ .zero .one id q ⟨.zero 2, rfl, by decide⟩
    ⟨.one 2, rfl, by decide⟩ hq (Nat.le_trans hsize (by decide))
  obtain ⟨b, lo, hi, hb, -, hhi, hresult⟩ := heval ⟨#[false, true]⟩ rfl
  obtain ⟨r, hr, hnodes, -⟩ := hagain _ .refl
  obtain rfl : true = b := Except.ok.inj hb
  obtain rfl : true = hi := Except.ok.inj hhi
  exact ⟨hresult, r, hr, hnodes⟩

end Cover

end DecisionDiagram
