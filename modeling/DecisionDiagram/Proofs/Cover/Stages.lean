import DecisionDiagram.Proofs.Cover.Function
import Mathlib.Logic.Relation

/-!
# The stages of the task loop

The loop passes through stages: tasks still to be done, results there are already, and
a pool.  `Step` is one turn, either of the loop over the tasks or of the search for the
next variable inside an expansion.  Each turn keeps what the loop will deliver, makes
the remaining work lighter and leaves the stage balanced, so that a join always finds
its two branches and no variable runs past the end of the order.

What the loop delivers is said by `expandCubes`, a recursion over the cubes themselves
that knows nothing of tasks, of room left or of positions computed beforehand.
-/

namespace DecisionDiagram

variable {n : UInt16} {v x : Variable} {c : Cube} {row : Row} {rows : List Row}
  {tasks : List Task} {results : List NodeId} {p : Pool}

/-! ### The recursion over the cubes -/

/-- The cube fixes no variable from `v` on. -/
def Cube.FreeFrom (c : Cube) (v : Variable) : Prop := ∀ x, v ≤ x → ¬c.fixes x

theorem Cube.freeFrom_iff : c.FreeFrom v ↔ ∀ last ∈ c.lastFixed?, last < v := by
  constructor
  · intro h last hlast
    have hfix := (fixes_of_lastFixed?_eq_some hlast).1
    rw [Variable.lt_iff]
    exact Nat.lt_of_not_le fun hle => h last (Variable.le_iff.2 hle) hfix
  · intro h x hx hfix
    cases hlast : c.lastFixed? with
    | none => exact lastFixed?_eq_none_iff.1 hlast x hfix
    | some last =>
      refine (fixes_of_lastFixed?_eq_some hlast).2 x (Variable.lt_iff.2 ?_) hfix
      have := Variable.lt_iff.1 (h last hlast)
      rw [Variable.le_iff] at hx
      omega

instance : Decidable (c.FreeFrom v) := decidable_of_iff _ Cube.freeFrom_iff.symm

namespace Cover

/-- The id for the function of the cubes from variable `v` on: `0` without cubes, `1` at
the end of the order or if some cube fixes nothing from here on, what the next variable
gives if no cube fixes this one, and otherwise a node, made after the side for `true`
and then the side for `false`. -/
def expandCubes (n : UInt16) (v : Variable) (cubes : List Cube) (p : Pool) : NodeId × Pool :=
  if cubes = [] then (.zero, p)
  else if _ : v.index = n ∨ ∃ cube ∈ cubes, cube.FreeFrom v then (.one, p)
  else if ∀ cube ∈ cubes, ¬cube.fixes v then expandCubes n v.succ cubes p
  else
    let (high, p) := expandCubes n v.succ (cubes.filter fun cube => cube.get? v ≠ some false) p
    let (low, p) := expandCubes n v.succ (cubes.filter fun cube => cube.get? v ≠ some true) p
    p.intern v low high
termination_by varsLeft n v
decreasing_by
  all_goals
    have := varsLeft_succ fun hend => ‹¬(v.index = n ∨ _)› (.inl hend)
    omega

theorem map_cube_filter_allows (rows : List Row) (v : Variable) (b : Bool) :
    (rows.filter (·.allows v b)).map Row.cube =
      (rows.map Row.cube).filter fun cube => cube.get? v ≠ some (!b) := by
  rw [List.filter_map]
  congr 1
  refine List.filter_congr fun row _ => ?_
  rw [Function.comp_apply, Row.allows, Bool.eq_iff_iff]
  simp

/-- With the right number of variables left, the expansion of rows is the recursion over
their cubes. -/
theorem expand_eq_expandCubes {left : Nat} (hv : v.toIndex + left = n.toNat)
    (hrows : ∀ row ∈ rows, row.Faithful n) :
    expand left v rows p = expandCubes n v (rows.map Row.cube) p := by
  induction left generalizing v rows p with
  | zero =>
    have hend : v.index = n := UInt16.toNat_inj.1 hv
    rw [expand, expandCubes]
    cases rows with
    | nil => rfl
    | cons row rows => simp [hend, NodeId.ofBool]
  | succ left ih =>
    have hlt : v.toIndex < n.toNat := by omega
    have hend : v.index ≠ n := by
      rintro rfl
      exact Nat.lt_irrefl _ hlt
    have hnext : v.succ.toIndex + left = n.toNat := by rw [Variable.toIndex_succ hlt]; omega
    have hside := faithful_filter hrows v
    have hfree : rows.any (·.freeFrom ≤ v.index) = true ↔
        v.index = n ∨ ∃ cube ∈ rows.map Row.cube, cube.FreeFrom v := by
      simp only [List.any_eq_true, decide_eq_true_eq, hend, false_or, List.mem_map,
        exists_exists_and_eq_and]
      exact exists_congr fun row => and_congr_right fun hrow => (hrows row hrow).freeFrom_le_iff
    have hfixes : rows.any (·.cube.fixes v) = true ↔
        ¬∀ cube ∈ rows.map Row.cube, ¬cube.fixes v := by
      simp
    have hhigh := map_cube_filter_allows rows v true
    have hlow := map_cube_filter_allows rows v false
    rw [expand, expandCubes]
    simp only [hfree, hfixes, List.isEmpty_iff, List.map_eq_nil_iff, dite_eq_ite, ite_not]
    rw [ih hnext hrows, ih hnext (hside true), ih hnext (hside false), hhigh, hlow]
    rfl

theorem expansion_eq_expandCubes (c : Cover) :
    c.expansion =
      expandCubes c.order.numVars ⟨0⟩ c.cubes.toList (.start c.order.numVars c.sharing) := by
  have hcubes : c.rows.map Row.cube = c.cubes.toList := by
    rw [rows, List.map_map]
    exact List.map_id _
  rw [← hcubes]
  exact expand_eq_expandCubes (Nat.zero_add _) c.faithful_rows

/-! ### Turns -/

/-- What the loop over the tasks has between two turns. -/
structure Stage where
  /-- The tasks still to be done, the next one first. -/
  tasks : List Task
  /-- The results so far, the last one first. -/
  results : List NodeId
  /-- The pool so far. -/
  pool : Pool

/-- There are cubes, variables are left, and no cube is free: neither constant will do. -/
structure Undecided (n : UInt16) (v : Variable) (rows : List Row) : Prop where
  /-- There are cubes. -/
  ne_nil : rows ≠ []
  /-- The order goes on. -/
  ne_end : v.index ≠ n
  /-- All cubes fix something from here on. -/
  not_free : ∀ row ∈ rows, ¬row.freeFrom ≤ v.index

/-- Where the cubes are undecided the order goes on. -/
theorem Undecided.toIndex_lt (h : Undecided n v rows) (hv : v.toIndex ≤ n.toNat) :
    v.toIndex < n.toNat :=
  Nat.lt_of_le_of_ne hv fun he => h.ne_end (UInt16.toNat_inj.1 he)

theorem Undecided.toIndex_succ (h : Undecided n v rows) (hv : v.toIndex ≤ n.toNat) :
    v.succ.toIndex = v.toIndex + 1 :=
  Variable.toIndex_succ (h.toIndex_lt hv)

theorem Undecided.succ_le (h : Undecided n v rows) (hv : v.toIndex ≤ n.toNat) :
    v.succ.toIndex ≤ n.toNat := by
  rw [h.toIndex_succ hv]
  exact h.toIndex_lt hv

/-- One turn. -/
inductive Step (n : UInt16) : Stage → Stage → Prop
  /-- Without cubes the result is `0`. -/
  | zero {v : Variable} {tasks : List Task} {results : List NodeId} {p : Pool} :
    Step n ⟨.expand v [] :: tasks, results, p⟩ ⟨tasks, .zero :: results, p⟩
  /-- At the end of the order, or with a free cube, the result is `1`. -/
  | one {v : Variable} {rows : List Row} {tasks : List Task} {results : List NodeId} {p : Pool} :
    rows ≠ [] → (v.index = n ∨ ∃ row ∈ rows, row.freeFrom ≤ v.index) →
    Step n ⟨.expand v rows :: tasks, results, p⟩ ⟨tasks, .one :: results, p⟩
  /-- A variable that no cube fixes is passed over. -/
  | skip {v : Variable} {rows : List Row} {tasks : List Task} {results : List NodeId} {p : Pool} :
    Undecided n v rows → (∀ row ∈ rows, row.cube.fixes v = false) →
    Step n ⟨.expand v rows :: tasks, results, p⟩ ⟨.expand v.succ rows :: tasks, results, p⟩
  /-- A variable that some cube fixes is decided, the side for `true` first. -/
  | branch {v : Variable} {rows : List Row} {tasks : List Task} {results : List NodeId} {p : Pool} :
    Undecided n v rows → (∃ row ∈ rows, row.cube.fixes v) →
    Step n ⟨.expand v rows :: tasks, results, p⟩
      ⟨.expand v.succ (rows.filter (·.allows v true)) ::
        .expand v.succ (rows.filter (·.allows v false)) :: .join v :: tasks, results, p⟩
  /-- The two last results become the sides of a node. -/
  | join {x : Variable} {tasks : List Task} {low high : NodeId} {results : List NodeId} {p : Pool} :
    Step n ⟨.join x :: tasks, low :: high :: results, p⟩
      ⟨tasks, (p.intern x low high).1 :: results, (p.intern x low high).2⟩

/-- Any number of turns. -/
def Steps (n : UInt16) : Stage → Stage → Prop := Relation.ReflTransGen (Step n)

/-- What the loop delivers from a stage on. -/
def Stage.run (n : UInt16) (s : Stage) : Except Fault (List NodeId × Pool) :=
  Cover.run n s.tasks s.results s.pool

theorem split_nil : split n v [] = .constant false := by
  rw [split]
  rfl

theorem split_eq_one (hne : rows ≠ []) (h : v.index = n ∨ ∃ row ∈ rows, row.freeFrom ≤ v.index) :
    split n v rows = .constant true := by
  rw [split, if_neg (by simpa using hne)]
  by_cases hend : v.index = n
  · rw [dif_pos hend]
  · have hfree : rows.any (·.freeFrom ≤ v.index) = true := by simpa [hend] using h
    rw [dif_neg hend, if_pos hfree]

theorem Undecided.split_eq (h : Undecided n v rows) :
    split n v rows = if rows.any (·.cube.fixes v) then
      .branch v (rows.filter (·.allows v true)) (rows.filter (·.allows v false))
    else split n v.succ rows := by
  have hempty : ¬rows.isEmpty := by simpa using h.ne_nil
  have hfree : ¬rows.any (·.freeFrom ≤ v.index) := by simpa using h.not_free
  rw [split, if_neg hempty, dif_neg h.ne_end, if_neg hfree]

theorem Undecided.split_skip (h : Undecided n v rows)
    (hfixes : ∀ row ∈ rows, row.cube.fixes v = false) : split n v rows = split n v.succ rows := by
  rw [h.split_eq, if_neg (by simpa using hfixes)]

theorem Undecided.split_branch (h : Undecided n v rows) (hfixes : ∃ row ∈ rows, row.cube.fixes v) :
    split n v rows =
      .branch v (rows.filter (·.allows v true)) (rows.filter (·.allows v false)) := by
  rw [h.split_eq, if_pos (by simpa using hfixes)]

/-- A turn does not change what the loop will deliver. -/
theorem Step.run_eq {s s' : Stage} (h : Step n s s') : s.run n = s'.run n := by
  cases h with
  | zero => exact run_constant split_nil
  | one hne hend => exact run_constant (split_eq_one hne hend)
  | skip hopen hfixes => exact run_expand_congr (hopen.split_skip hfixes)
  | branch hopen hfixes => exact run_branch (hopen.split_branch hfixes)
  | join => exact run_join _ _

theorem Steps.run_eq {s s' : Stage} (h : Steps n s s') : s.run n = s'.run n := by
  induction h with
  | refl => rfl
  | tail _ hstep ih => exact ih.trans hstep.run_eq

/-- Each turn keeps the table and may add to it. -/
theorem Step.extends {s s' : Stage} (h : Step n s s') : Extends s.pool.nodes s'.pool.nodes := by
  cases h with
  | join => exact Pool.extends_intern _ _ _ _
  | _ => exact .refl _

theorem Steps.extends {s s' : Stage} (h : Steps n s s') :
    Extends s.pool.nodes s'.pool.nodes := by
  induction h with
  | refl => exact .refl _
  | tail _ hstep ih => exact ih.trans hstep.extends

/-- The weight of the tasks of a stage. -/
def Stage.load (n : UInt16) (s : Stage) : Nat := Task.load n s.tasks

/-- Each turn makes the remaining work lighter. -/
theorem Step.load_lt {s s' : Stage} (h : Step n s s') : s'.load n < s.load n := by
  cases h with
  | @zero v =>
    have := Task.weight_pos n (.expand v [])
    simp only [Stage.load, Task.load]
    omega
  | @one v rows =>
    have := Task.weight_pos n (.expand v rows)
    simp only [Stage.load, Task.load]
    omega
  | @skip v rows _ _ _ hopen =>
    have hleft := varsLeft_succ hopen.ne_end
    have hlt : Nat.pow 3 (varsLeft n v.succ + 1) < Nat.pow 3 (varsLeft n v + 1) :=
      Nat.pow_lt_pow_right (by decide) (by omega)
    simp only [Stage.load, Task.load, Task.weight]
    omega
  | branch hopen hfixes =>
    have := Task.weight_branch_lt (hopen.split_branch hfixes)
    simp only [Stage.load, Task.load]
    omega
  | @join x =>
    have := Task.weight_pos n (.join x)
    simp only [Stage.load, Task.load]
    omega

/-- No stage is the first of an endless run. -/
theorem wellFounded_step (n : UInt16) : WellFounded fun s' s => Step n s s' :=
  Subrelation.wf Step.load_lt (measure (Stage.load n)).wf

/-! ### Balanced stages -/

/-- With `count` results at hand the tasks can be worked off: each expansion starts at a
variable of the order or at its end, each join finds two results, and exactly one result
is there in the end. -/
def Balanced (n : UInt16) : (tasks : List Task) → (count : Nat) → Prop
  | [], count => count = 1
  | .expand v _ :: tasks, count => v.toIndex ≤ n.toNat ∧ Balanced n tasks (count + 1)
  | .join _ :: tasks, count => 2 ≤ count ∧ Balanced n tasks (count - 1)

/-- Every turn leaves a balanced stage balanced. -/
theorem Step.balanced {s s' : Stage} (h : Step n s s')
    (hs : Balanced n s.tasks s.results.length) : Balanced n s'.tasks s'.results.length := by
  cases h with
  | zero => exact hs.2
  | one => exact hs.2
  | @skip v rows _ _ _ hopen =>
    exact ⟨hopen.succ_le hs.1, hs.2⟩
  | @branch v rows _ _ _ hopen =>
    have hnext := hopen.succ_le hs.1
    exact ⟨hnext, hnext, Nat.le_add_left 2 _, hs.2⟩
  | join => exact hs.2

theorem Steps.balanced {s s' : Stage} (h : Steps n s s')
    (hs : Balanced n s.tasks s.results.length) : Balanced n s'.tasks s'.results.length := by
  induction h with
  | refl => exact hs
  | tail _ hstep ih => exact hstep.balanced ih

theorem Balanced.toIndex_le {count : Nat} (h : Balanced n tasks count)
    (hmem : .expand v rows ∈ tasks) : v.toIndex ≤ n.toNat := by
  induction tasks generalizing count with
  | nil => cases hmem
  | cons task tasks ih =>
    cases task with
    | expand w rows' =>
      rcases List.mem_cons.1 hmem with heq | hmem
      · cases heq
        exact h.1
      · exact ih h.2 hmem
    | join x =>
      rcases List.mem_cons.1 hmem with heq | hmem
      · cases heq
      · exact ih h.2 hmem

theorem exists_cons_cons {α : Type} {l : List α} (h : 2 ≤ l.length) :
    ∃ a b rest, l = a :: b :: rest := by
  match l, h with
  | a :: b :: rest, _ => exact ⟨a, b, rest, rfl⟩

/-- As long as there are tasks a balanced stage has a next turn. -/
theorem exists_step {s : Stage} (hs : Balanced n s.tasks s.results.length) (hne : s.tasks ≠ []) :
    ∃ s', Step n s s' := by
  obtain ⟨tasks, results, p⟩ := s
  cases tasks with
  | nil => exact absurd rfl hne
  | cons task tasks =>
    cases task with
    | expand v rows =>
      by_cases hempty : rows = []
      · subst hempty
        exact ⟨_, .zero⟩
      by_cases hone : v.index = n ∨ ∃ row ∈ rows, row.freeFrom ≤ v.index
      · exact ⟨_, .one hempty hone⟩
      obtain ⟨hend, hfree⟩ := not_or.1 hone
      have hopen : Undecided n v rows := ⟨hempty, hend, fun row hrow hle => hfree ⟨row, hrow, hle⟩⟩
      by_cases hfixes : ∃ row ∈ rows, row.cube.fixes v
      · exact ⟨_, .branch hopen hfixes⟩
      · exact ⟨_, .skip hopen (by simpa using hfixes)⟩
    | join x =>
      obtain ⟨low, high, rest, rfl⟩ := exists_cons_cons hs.1
      exact ⟨_, .join⟩

/-- From a balanced stage the loop comes to its end, with one result. -/
theorem exists_steps_end {s : Stage} (hs : Balanced n s.tasks s.results.length) :
    ∃ id q, Steps n s ⟨[], [id], q⟩ := by
  induction s using (wellFounded_step n).induction with
  | _ s ih =>
    by_cases hne : s.tasks = []
    · obtain ⟨tasks, results, p⟩ := s
      cases hne
      obtain ⟨id, rfl⟩ := List.length_eq_one_iff.1 hs
      exact ⟨id, p, .refl⟩
    · obtain ⟨s', hstep⟩ := exists_step hs hne
      obtain ⟨id, q, hrest⟩ := ih s' hstep (hstep.balanced hs)
      exact ⟨id, q, .head hstep hrest⟩

/-! ### The loop on a cover -/

/-- The stage with which the loop on a cover begins. -/
def firstStage (c : Cover) : Stage :=
  ⟨[.expand ⟨0⟩ c.rows], [], .start c.order.numVars c.sharing⟩

/-- The stage with which the loop on a cover ends. -/
def lastStage (c : Cover) : Stage := ⟨[], [c.expansion.1], c.expansion.2⟩

theorem balanced_firstStage (c : Cover) :
    Balanced c.order.numVars c.firstStage.tasks c.firstStage.results.length :=
  ⟨Nat.zero_le _, rfl⟩

theorem run_firstStage (c : Cover) :
    c.firstStage.run c.order.numVars = .ok ([c.expansion.1], c.expansion.2) := c.run_rows

theorem run_end (id : NodeId) (q : Pool) : (⟨[], [id], q⟩ : Stage).run n = .ok ([id], q) := by
  rw [Stage.run, run]

/-- From every stage of the loop on a cover it comes to the same end. -/
theorem steps_lastStage {c : Cover} {s : Stage} (hs : Steps c.order.numVars c.firstStage s) :
    Steps c.order.numVars s c.lastStage := by
  obtain ⟨id, q, hend⟩ := exists_steps_end (hs.balanced c.balanced_firstStage)
  have hall : Steps c.order.numVars c.firstStage ⟨[], [id], q⟩ := .trans hs hend
  have hrun := hall.run_eq
  rw [run_firstStage, run_end] at hrun
  cases hrun
  exact hend

/-- Compiling a cover delivers the table, the root and the log of the recursion over its
cubes.  The loop cannot go on for ever, and from each of its stages it ends with the one
result of the recursion.  On the way a join always finds two results, and no expansion
starts beyond the end of the order, so that there is a next variable to count to. -/
theorem compile_eq_expandCubes (c : Cover) :
    ∃ root pool,
      expandCubes c.order.numVars ⟨0⟩ c.cubes.toList (.start c.order.numVars c.sharing) =
        (root, pool) ∧
      c.compileLogged = .ok (⟨c.order, pool.nodes, root⟩,
        .started c.cubes.size c.order.numVars c.sharing :: pool.events.toList ++
          [.finished pool.nodes.size root]) ∧
      (WellFounded fun s' s => Step c.order.numVars s s') ∧
      ∀ s, Steps c.order.numVars c.firstStage s →
        s.run c.order.numVars = .ok ([root], pool) ∧
        Steps c.order.numVars s ⟨[], [root], pool⟩ ∧
        (s.tasks = [] → s.results = [root] ∧ s.pool = pool) ∧
        (∀ x tasks, s.tasks = .join x :: tasks →
          ∃ low high results, s.results = low :: high :: results) ∧
        ∀ v rows, .expand v rows ∈ s.tasks →
          v.toIndex ≤ c.order.numVars.toNat ∧ v.succ.toIndex = v.toIndex + 1 := by
  refine ⟨c.expansion.1, c.expansion.2, c.expansion_eq_expandCubes.symm, c.compileLogged_eq,
    wellFounded_step _, ?_⟩
  intro s hs
  have hrun : s.run c.order.numVars = .ok ([c.expansion.1], c.expansion.2) := by
    rw [← hs.run_eq, run_firstStage]
  have hbalanced := hs.balanced c.balanced_firstStage
  refine ⟨hrun, steps_lastStage hs, ?_, ?_, ?_⟩
  · intro hdone
    rw [Stage.run, hdone, run, Except.ok.injEq, Prod.mk.injEq] at hrun
    exact hrun
  · intro x tasks htasks
    rw [htasks] at hbalanced
    exact exists_cons_cons hbalanced.1
  · intro v rows hmem
    have hle := hbalanced.toIndex_le hmem
    have hsize := c.order.size_le
    rw [← VarOrder.toNat_numVars, maxVariables] at hsize
    refine ⟨hle, ?_⟩
    simp only [Variable.succ, Variable.toIndex, UInt16.toNat_add, UInt16.toNat_one] at *
    omega

theorem compile_eq_expandCubes_sample :
    ∃ root pool,
      expandCubes 2 ⟨0⟩ (sample false).cubes.toList (.start 2 false) = (root, pool) ∧
      (sample false).compile = .ok ⟨(sample false).order, pool.nodes, root⟩ ∧
      Steps 2 (sample false).firstStage ⟨[], [root], pool⟩ := by
  obtain ⟨root, pool, hexpand, hcompile, -, hstages⟩ := compile_eq_expandCubes (sample false)
  refine ⟨root, pool, hexpand, ?_, (hstages _ .refl).2.1⟩
  rw [compile, hcompile]
  rfl

end Cover

end DecisionDiagram
