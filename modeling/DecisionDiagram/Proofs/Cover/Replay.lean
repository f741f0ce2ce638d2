import DecisionDiagram.Proofs.Cover.Stages
import DecisionDiagram.Proofs.Event.Text
import DecisionDiagram.Proofs.Pool.Log

/-!
# The log of a construction

The table of a compiled cover can be made again from the lines of the log.  Each of them is
justified by those before it, and each is owed to one split: a split leaves a join among the
tasks, and a join asks for one node.  So at every stage the splits so far are the joins that
are left together with the requests that were logged.
-/

namespace DecisionDiagram

variable {o : VarOrder} {n : UInt16} {k : Nat} {t : Tree} {p : Pool}

namespace Tree

/-- Building a tree reports each request as it ought to be. -/
theorem Ordered.recorded_build (ht : t.Ordered o.numVars.toNat k) (hk : k ≤ o.numVars.toNat)
    (hp : p.Sound o) (hr : p.Recorded) (hsize : (t.build p).2.nodes.size ≤ 4294967296) :
    (t.build p).2.Recorded := by
  induction ht generalizing p with
  | leaf k value => exact hr
  | @branch k x high low hkx hx hth htl ihHigh ihLow =>
    obtain ⟨hsHigh, hsLow⟩ := size_build_branch hsize
    have hhigh := hth.build hx hp hsHigh
    have hlow := htl.build hx hhigh.sound hsLow
    have hsides := ihLow hx hhigh.sound (ihHigh hx hp hr hsHigh) hsLow
    rw [build_branch] at hsize ⊢
    exact hsides.intern hlow.sound hx hlow.stands.lt_size (hhigh.stands.extend hlow.keeps).lt_size
      hsize

theorem replayed_build (t : Tree) (hp : p.Replayed n) : (t.build p).2.Replayed n := by
  induction t generalizing p with
  | leaf value => exact hp
  | branch x high low ihHigh ihLow =>
    rw [build_branch]
    exact (ihLow (ihHigh hp)).intern x _ _

end Tree

/-- Whether a task asks for a node. -/
def Task.isJoin : Task → Bool
  | .join _ => true
  | .expand _ _ => false

namespace Cover

variable {c : Cover} {s s' : Stage}

/-! ### Splits -/

/-- The next turn splits the cubes on a variable. -/
def Stage.Splits (n : UInt16) (s : Stage) : Prop :=
  ∃ v rows tasks, s.tasks = .expand v rows :: tasks ∧ Undecided n v rows ∧
    ∃ row ∈ rows, row.cube.fixes v

/-- Any number of turns, of which `k` are splits. -/
inductive Turns (n : UInt16) : (k : Nat) → Stage → Stage → Prop
  /-- No turn. -/
  | refl (s : Stage) : Turns n 0 s s
  /-- A split counts. -/
  | split {k : Nat} {s s' s'' : Stage} : Turns n k s s' → s'.Splits n → Step n s' s'' →
    Turns n (k + 1) s s''
  /-- Any other turn does not. -/
  | other {k : Nat} {s s' s'' : Stage} : Turns n k s s' → ¬s'.Splits n → Step n s' s'' →
    Turns n k s s''

theorem Turns.steps (h : Turns n k s s') : Steps n s s' := by
  induction h with
  | refl s => exact .refl
  | split _ _ hstep ih => exact .tail ih hstep
  | other _ _ hstep ih => exact .tail ih hstep

theorem Steps.exists_turns (h : Steps n s s') : ∃ k, Turns n k s s' := by
  induction h with
  | refl => exact ⟨0, .refl s⟩
  | @tail s' s'' _ hstep ih =>
    obtain ⟨k, hturns⟩ := ih
    by_cases hsplits : s'.Splits n
    · exact ⟨k + 1, .split hturns hsplits hstep⟩
    · exact ⟨k, .other hturns hsplits hstep⟩

/-- What the splits of a construction have led to so far: joins that are left, and requests
that were logged. -/
def Stage.requests (s : Stage) : Nat := s.tasks.countP Task.isJoin + s.pool.events.size

/-- A split adds a request, and no other turn changes their number. -/
theorem Step.requests_cases (h : Step n s s') :
    s.Splits n ∧ s'.requests = s.requests + 1 ∨ ¬s.Splits n ∧ s'.requests = s.requests := by
  cases h with
  | zero =>
    refine .inr ⟨?_, rfl⟩
    rintro ⟨v, rows, tasks, htasks, hopen, -⟩
    cases htasks
    exact hopen.ne_nil rfl
  | one hne hend =>
    refine .inr ⟨?_, rfl⟩
    rintro ⟨v, rows, tasks, htasks, hopen, -⟩
    cases htasks
    rcases hend with hend | ⟨row, hrow, hle⟩
    · exact hopen.ne_end hend
    · exact hopen.not_free row hrow hle
  | skip hopen hfixes =>
    refine .inr ⟨?_, rfl⟩
    rintro ⟨v, rows, tasks, htasks, -, row, hrow, hfix⟩
    cases htasks
    exact absurd (hfixes row hrow) (by simp [hfix])
  | branch hopen hfixes =>
    refine .inl ⟨⟨_, _, _, rfl, hopen, hfixes⟩, ?_⟩
    simp only [Stage.requests, List.countP_cons, Task.isJoin, Bool.false_eq_true, if_false, if_true]
    omega
  | join =>
    refine .inr ⟨?_, ?_⟩
    · rintro ⟨v, rows, tasks, htasks, -⟩
      cases htasks
    · simp only [Stage.requests, List.countP_cons, Task.isJoin, if_true, Pool.size_events_intern]
      omega

/-- At every stage each split so far has led to one request. -/
theorem Turns.requests_eq (h : Turns n k s s') : s'.requests = s.requests + k := by
  induction h with
  | refl s => rfl
  | split _ hsplits hstep ih =>
    rcases hstep.requests_cases with ⟨-, h⟩ | ⟨hnot, -⟩
    · rw [h, ih, Nat.add_assoc]
    · exact absurd hsplits hnot
  | other _ hnot hstep ih =>
    rcases hstep.requests_cases with ⟨hsplits, -⟩ | ⟨-, h⟩
    · exact absurd hsplits hnot
    · rw [h, ih]

/-- In the end there are as many requests as there were splits. -/
theorem Turns.size_events (h : Turns c.order.numVars k c.firstStage s) (hdone : s.tasks = []) :
    c.expansion.2.events.size = k := by
  have hpool : s.pool = c.expansion.2 := by
    obtain ⟨tasks, results, q⟩ := s
    have hrun := h.steps.run_eq
    rw [run_firstStage, Stage.run, hdone, run] at hrun
    exact (congrArg Prod.snd (Except.ok.inj hrun)).symm
  have hrequests := h.requests_eq
  rw [Stage.requests, hdone, hpool] at hrequests
  have hfirst : c.firstStage.requests = 0 := rfl
  rw [List.countP_nil] at hrequests
  omega

/-! ### The log of a cover -/

/-- What is logged between the start and the end. -/
theorem recorded_expansion (hsize : c.diagram.size ≤ 4294967296) : c.expansion.2.Recorded := by
  have h := c.ordered_tree.recorded_build (Nat.zero_le _) (Pool.sound_start c.order c.sharing)
    (Pool.recorded_start _ _) (c.size_build_tree ▸ hsize)
  rwa [← expansion_eq_build] at h

theorem isSome_ids_expansion (c : Cover) : c.expansion.2.ids.isSome = c.sharing := by
  rw [expansion_eq_build, Tree.isSome_ids_build, Pool.start]
  cases c.sharing <;> rfl

/-- Doing again what the log of a cover tells makes the table. -/
theorem replay_log (c : Cover) (count : Nat) (size : Nat) (root : NodeId) :
    Event.replay (.started count c.order.numVars c.sharing :: c.expansion.2.events.toList ++
      [.finished size root]) = c.diagram.nodes := by
  have h : c.expansion.2.Replayed c.order.numVars := by
    rw [expansion_eq_build]
    exact c.tree.replayed_build (Pool.replayed_start _ _)
  rw [Event.replay, List.foldl_append, List.foldl_cons]
  exact h

/-- The log of a construction tells its table and its root. -/
theorem diagram_eq_of_log {c c' : Cover} {d d' : Diagram} {log log' : List Event}
    (h : c.compileLogged = .ok (d, log)) (h' : c'.compileLogged = .ok (d', log'))
    (heq : log = log') : d.nodes = d'.nodes ∧ d.root = d'.root := by
  rw [compileLogged_eq] at h h'
  cases h
  cases h'
  constructor
  · rw [← replay_log c c.cubes.size c.diagram.size c.diagram.root, heq, replay_log]
  · have hlast := (List.append_inj' heq rfl).2
    rw [List.cons.injEq, Event.finished.injEq] at hlast
    exact hlast.1.2

/-- The log of a construction can be replayed.  Between its first and its last line there is
one line for each split of the expansion.  The nodes that are reported as new are the decision
nodes of the table, in order and with their positions.  A node that is reported as used again,
which happens with sharing only, stands at the position that is reported, and an earlier line
reports it as new.  All links and targets that are reported are terminals, or ids that an
earlier line reports as new.  The whole log makes the table again, and no construction with
another table or another root has the same lines. -/
theorem compileLogged_replay (c : Cover) :
    ∃ (d : Diagram) (log events : List Event),
      c.compileLogged = .ok (d, log) ∧ c.compile = .ok d ∧
      log = .started c.cubes.size c.order.numVars c.sharing :: events ++
        [.finished d.size d.root] ∧
      (d.size ≤ 4294967296 →
        events.filterMap Event.added? = (d.nodes.toList.drop 2).zipIdx 2 ∧
        (∀ pre event post, events = pre ++ event :: post → event.Justified c.sharing pre) ∧
        ∀ node id, .reused node id ∈ events → d.nodes[id.toIndex]? = some node) ∧
      Event.replay log = d.nodes ∧
      (∀ (c' : Cover) (d' : Diagram) (log' : List Event), c'.compileLogged = .ok (d', log') →
        log'.map Event.line = log.map Event.line → d'.nodes = d.nodes ∧ d'.root = d.root) ∧
      (∃ k s, Turns c.order.numVars k c.firstStage s ∧ s.tasks = []) ∧
      ∀ k s, Turns c.order.numVars k c.firstStage s → s.tasks = [] → events.length = k := by
  refine ⟨c.diagram, _, c.expansion.2.events.toList, c.compileLogged_eq, c.compile_eq, rfl, ?_,
    c.replay_log _ _ _, ?_, ?_, ?_⟩
  · intro hsize
    have hrecorded := recorded_expansion hsize
    have hcoherent := hrecorded.coherent
    rw [isSome_ids_expansion] at hcoherent
    refine ⟨hrecorded.entries, hcoherent, ?_⟩
    intro node id hmem
    exact (hrecorded.created_iff.1 (hcoherent.created_of_reused hmem).2).2
  · intro c' d' log' hlog hlines
    exact diagram_eq_of_log hlog c.compileLogged_eq
      (List.map_injective_iff.2 Event.line_injective hlines)
  · obtain ⟨k, hturns⟩ := (steps_lastStage (c := c) .refl).exists_turns
    exact ⟨k, _, hturns, rfl⟩
  · intro k s hturns hdone
    rw [Array.length_toList]
    exact hturns.size_events hdone

theorem compileLogged_replay_sample :
    ∃ d events,
      (sample false).compileLogged =
        .ok (d, .started 2 2 false :: events ++ [.finished d.size d.root]) ∧
      events.filterMap Event.added? =
        [(⟨⟨1⟩, .zero, .one⟩, 2), (⟨⟨0⟩, .ofIndex 2, .one⟩, 3)] ∧
      (d.nodes.toList.drop 2).zipIdx 2 =
        [(⟨⟨1⟩, .zero, .one⟩, 2), (⟨⟨0⟩, .ofIndex 2, .one⟩, 3)] ∧
      Event.replay (.started 2 2 false :: events ++ [.finished d.size d.root]) = d.nodes ∧
      ∃ s, Turns 2 3 (sample false).firstStage s ∧ s.tasks = [] := by
  obtain ⟨d, log, events, hlog, hd, rfl, hentries, hreplay, -, ⟨k, s, hturns, hdone⟩, hcount⟩ :=
    compileLogged_replay (sample false)
  obtain ⟨hentries, -⟩ := hentries (Nat.le_trans (size_compile_le hd) (by decide))
  obtain rfl : d = (sample false).diagram := Except.ok.inj (hd.symm.trans (compile_eq _))
  have htable : ((sample false).diagram.nodes.toList.drop 2).zipIdx 2 =
      [(⟨⟨1⟩, .zero, .one⟩, 2), (⟨⟨0⟩, .ofIndex 2, .one⟩, 3)] := by rfl
  have hevents : events = (sample false).expansion.2.events.toList := by
    rw [compileLogged_eq] at hlog
    simp only [Except.ok.injEq, Prod.mk.injEq, true_and] at hlog
    exact (List.cons.inj (List.append_cancel_right hlog)).2.symm
  have hk : 3 = k := by
    rw [← hcount k s hturns hdone, hevents]
    rfl
  exact ⟨_, events, hlog, hentries.trans htable, htable, hreplay, s, hk ▸ hturns, hdone⟩

end Cover

end DecisionDiagram
