import DecisionDiagram.Proofs.Cover.Stages
import DecisionDiagram.Proofs.Draft.Calls

/-!
# Construction from a draft

A draft promises nothing, so a construction from it can go wrong at every turn.  It works
on positions in the array of cubes, which may lie beyond its end, and it counts on from a
variable in words of 16 bits, which may be used up.  `construct` checks each of these
operations and stops at the first one that goes wrong.

From a draft that calls have led to none goes wrong.  The construction takes the turns of
the loop over the tasks of a cover, and it delivers the same diagram with the same log.
-/

namespace DecisionDiagram

/-- What stops a construction. -/
inductive Trap
  /-- A precondition was broken. -/
  | fault (cause : Fault)
  /-- There is no larger word. -/
  | overflow (word : UInt16)
  deriving DecidableEq

/-- The variable after `v`, if there is a word for its position. -/
def Variable.next (v : Variable) : Except Trap { w : Variable // w.toIndex = v.toIndex + 1 } :=
  if h : v.toIndex + 1 < 65536 then .ok ⟨.atIndex (v.toIndex + 1), toIndex_atIndex h⟩
  else .error (.overflow v.index)

/-- The number of variables up to the last one that the cube fixes. -/
def Cube.extent (cube : Cube) : Except Trap UInt16 :=
  match cube.lastFixed? with
  | some last => last.next.map (·.1.index)
  | none => .ok 0

/-- What a construction reads. -/
structure Frame where
  /-- The number of variables. -/
  numVars : UInt16
  /-- The cubes. -/
  cubes : Array Cube
  /-- The extent of each cube. -/
  extents : Array UInt16

/-- What is found at a variable for some cubes, given by their positions. -/
inductive Turn (v : Variable)
  /-- The function is constant. -/
  | constant (value : Bool)
  /-- No cube fixes the variable. -/
  | skip (next : { w : Variable // w.toIndex = v.toIndex + 1 })
  /-- Some cube fixes the variable. -/
  | branch (next : { w : Variable // w.toIndex = v.toIndex + 1 }) (highs lows : List Nat)

/-- A unit of work on cubes that are given by their positions. -/
inductive Job
  /-- Find the id for the function of the cubes from variable `v` on. -/
  | develop (v : Variable) (rows : List Nat)
  /-- Make a node for `v` from the two results on top of the stack. -/
  | join (v : Variable)

/-- A bound for the work that a job causes. It does not depend on the number of variables,
since nothing keeps a draft from going on beyond its last one. -/
def Job.weight : Job → Nat
  | develop v _ => Nat.pow 3 (65536 - v.toIndex)
  | join _ => 1

/-- The weight of all jobs together. -/
def Job.load : List Job → Nat
  | [] => 0
  | job :: jobs => job.weight + load jobs

theorem Job.weight_pos (job : Job) : 0 < job.weight := by
  cases job with
  | develop v _ => exact Nat.pow_pos (by decide)
  | join _ => exact Nat.one_pos

/-- Two jobs from the next variable on and a join weigh less than a job from this one. -/
theorem Job.weight_branch_lt {v w : Variable} (h : w.toIndex = v.toIndex + 1)
    (rows highs lows : List Nat) :
    (develop w highs).weight + (develop w lows).weight + (join v).weight <
      (develop v rows).weight := by
  have := w.toIndex_lt
  have hexp : 65536 - v.toIndex = 65536 - w.toIndex + 1 := by omega
  have hone : 1 < Nat.pow 3 (65536 - w.toIndex) := Nat.one_lt_pow (by omega) (by decide)
  have htriple : (develop v rows).weight = Nat.pow 3 (65536 - w.toIndex) * 3 := by
    rw [weight, hexp]
    rfl
  rw [htriple]
  simp only [weight]
  omega

namespace Frame

/-- Reads what a construction needs from a draft. -/
def ofDraft (b : Draft) : Except Trap Frame := do
  let extents ← b.cubes.toList.mapM Cube.extent
  return ⟨b.order.numVars, b.cubes, extents.toArray⟩

/-- The cube at a position. -/
def cubeAt (f : Frame) (i : Nat) : Except Trap Cube := (readAt f.cubes i).mapError .fault

/-- The extent of the cube at a position. -/
def extentAt (f : Frame) (i : Nat) : Except Trap UInt16 := (readAt f.extents i).mapError .fault

/-- Divides cubes by the value of a variable. -/
def divide (f : Frame) (v : Variable) : List Nat → Except Trap (List Nat × List Nat)
  | [] => .ok ([], [])
  | i :: rows => do
    let cube ← f.cubeAt i
    let (highs, lows) ← f.divide v rows
    match cube.get? v with
    | some true => return (i :: highs, lows)
    | some false => return (highs, i :: lows)
    | none => return (i :: highs, i :: lows)

/-- Looks at a variable for some cubes. -/
def turn (f : Frame) (v : Variable) (rows : List Nat) : Except Trap (Turn v) :=
  if rows.isEmpty then .ok (.constant false)
  else if v.index = f.numVars then .ok (.constant true)
  else do
    if ← rows.anyM fun i => (· ≤ v.index) <$> f.extentAt i then
      return .constant true
    else if ← rows.anyM fun i => (·.fixes v) <$> f.cubeAt i then
      let (highs, lows) ← f.divide v rows
      return .branch (← v.next) highs lows
    else
      return .skip (← v.next)

/-- Works off the jobs. The results so far are on a stack, the last one first. -/
def run (f : Frame) :
    (jobs : List Job) → (results : List NodeId) → Pool → Except Trap (List NodeId × Pool)
  | [], results, pool => .ok (results, pool)
  | .develop v rows :: jobs, results, pool =>
    match f.turn v rows with
    | .ok (.constant value) => f.run jobs (.ofBool value :: results) pool
    | .ok (.skip next) => f.run (.develop next.1 rows :: jobs) results pool
    | .ok (.branch next highs lows) =>
      f.run (.develop next.1 highs :: .develop next.1 lows :: .join v :: jobs) results pool
    | .error trap => .error trap
  | .join v :: jobs, low :: high :: results, pool =>
    let (id, pool) := pool.intern v low high
    f.run jobs (id :: results) pool
  | .join v :: _, _, _ => .error (.fault (.missingBranch v.toIndex))
termination_by jobs => Job.load jobs
decreasing_by
  · have := Job.weight_pos (.develop v rows)
    simp only [Job.load]
    omega
  · have := Job.weight_branch_lt next.2 rows rows []
    simp only [Job.load]
    omega
  · have := Job.weight_branch_lt next.2 rows highs lows
    simp only [Job.load]
    omega
  · have := Job.weight_pos (.join v)
    simp only [Job.load]
    omega

end Frame

/-- Compiles a draft to a diagram, together with the log of the construction. -/
def Draft.construct (b : Draft) : Except Trap (Diagram × List Event) := do
  let numVars := b.order.numVars
  let f ← Frame.ofDraft b
  let (results, pool) ← f.run [.develop ⟨0⟩ (List.range b.cubes.size)] [] (.start numVars b.sharing)
  let d : Diagram := ⟨b.order, pool.nodes, results.head?.getD .zero⟩
  let events := .started b.cubes.size numVars b.sharing :: pool.events.toList
  return (d, events ++ [.finished d.size d.root])

variable {b : Draft} {c : Cover} {n : UInt16} {v : Variable} {cube : Cube} {i : Nat}
  {rows : List Nat} {jobs : List Job} {trap : Trap}

/-! ### A cube that stops a construction -/

theorem Variable.next_eq_error_iff :
    v.next = .error trap ↔ v = ⟨65535⟩ ∧ trap = .overflow 65535 := by
  have hv := v.toIndex_lt
  have hlast : v = ⟨65535⟩ ↔ v.toIndex = 65535 := toIndex_inj.symm
  rw [next, hlast]
  split
  · simp
    omega
  · next hword =>
    have hindex : v.toIndex = 65535 := by omega
    obtain rfl := hlast.2 hindex
    simp [eq_comm, toIndex]

theorem Cube.extent_eq_error_iff :
    cube.extent = .error trap ↔ cube.lastFixed? = some ⟨65535⟩ ∧ trap = .overflow 65535 := by
  rw [extent]
  cases cube.lastFixed? with
  | none => simp
  | some last =>
    rw [Option.some.injEq, ← Variable.next_eq_error_iff]
    cases h : last.next <;> simp [h, Except.map]

theorem mapM_eq_error {α β ε : Type} {l : List α} {f : α → Except ε β} {e : ε} {a : α}
    (ha : a ∈ l) (he : f a = .error e) (h : ∀ a ∈ l, ∀ e', f a = .error e' → e' = e) :
    l.mapM f = .error e := by
  induction l with
  | nil => cases ha
  | cons a' l ih =>
    obtain ⟨hfirst, hrest⟩ := List.forall_mem_cons.1 h
    rw [List.mapM_cons]
    cases hf : f a' with
    | error e' =>
      rw [hfirst e' hf]
      rfl
    | ok b' =>
      have hne : a ≠ a' := by
        rintro rfl
        simp [hf] at he
      rw [ih (List.mem_of_ne_of_mem hne ha) hrest]
      rfl

/-- One cube that fixes the last variable that a word can hold is enough to stop a
construction, over whatever names. -/
theorem Draft.construct_eq_overflow (hcube : cube ∈ b.cubes)
    (hlast : cube.lastFixed? = some ⟨65535⟩) : b.construct = .error (.overflow 65535) := by
  have hextents : b.cubes.toList.mapM Cube.extent = .error (.overflow 65535) := by
    apply mapM_eq_error (Array.mem_toList_iff.2 hcube) (Cube.extent_eq_error_iff.2 ⟨hlast, rfl⟩)
    intro cube _ trap htrap
    exact (Cube.extent_eq_error_iff.1 htrap).2
  rw [construct, Frame.ofDraft, hextents]
  rfl

/-! ### The operations -/

theorem Variable.next_eq (h : v.toIndex < n.toNat) : v.next = .ok ⟨v.succ, toIndex_succ h⟩ := by
  have hword : v.toIndex + 1 < 65536 := Nat.lt_of_le_of_lt h n.toNat_lt
  rw [next, dif_pos hword, Except.ok.injEq, Subtype.mk.injEq, ← toIndex_inj,
    toIndex_atIndex hword, toIndex_succ h]

/-- The extent of a cube that stays within the order fits into a word. -/
theorem Cube.extent_eq (h : cube.Within n) : cube.extent = .ok (Row.ofCube cube).freeFrom := by
  rw [extent, Row.ofCube]
  cases hlast : cube.lastFixed? with
  | none => rfl
  | some last =>
    have hlt : last.index < n := (within_iff_of_lastFixed?_eq_some hlast).1 h
    simp only [Variable.next_eq (UInt16.lt_iff_toNat_lt.1 hlt)]
    rfl

theorem mapM_ok {α β ε : Type} {l : List α} {f : α → Except ε β} {g : α → β}
    (h : ∀ a ∈ l, f a = .ok (g a)) : l.mapM f = .ok (l.map g) := by
  induction l with
  | nil => rfl
  | cons a l ih =>
    rw [List.mapM_cons, h a List.mem_cons_self, ih fun a' ha' => h a' (List.mem_cons_of_mem _ ha')]
    rfl

theorem anyM_ok {α ε : Type} {l : List α} {f : α → Except ε Bool} {g : α → Bool}
    (h : ∀ a ∈ l, f a = .ok (g a)) : l.anyM f = .ok (l.any g) := by
  induction l with
  | nil => rfl
  | cons a l ih =>
    have hl := ih fun a' ha' => h a' (List.mem_cons_of_mem _ ha')
    rw [List.anyM, h a List.mem_cons_self, List.any_cons]
    cases g a with
    | false => exact hl
    | true => rfl

namespace Cover

/-- What a construction reads from a cover. -/
def frame (c : Cover) : Frame :=
  ⟨c.order.numVars, c.cubes, c.cubes.map fun cube => (Row.ofCube cube).freeFrom⟩

/-- The row of the cube at a position. -/
def rowAt (c : Cover) (i : Nat) : Row := .ofCube (c.cubes[i]?.getD ∅)

theorem ofDraft_toDraft (c : Cover) : Frame.ofDraft c.toDraft = .ok c.frame := by
  have hextents : c.cubes.toList.mapM Cube.extent =
      .ok (c.cubes.toList.map fun cube => (Row.ofCube cube).freeFrom) :=
    mapM_ok fun cube hcube => Cube.extent_eq (c.within cube (by simpa using hcube))
  rw [Frame.ofDraft, cubes_toDraft, hextents]
  simp [bind, Except.bind, pure, Except.pure, frame, ← Array.toList_map]

theorem cubeAt_frame (h : i < c.cubes.size) : c.frame.cubeAt i = .ok (c.rowAt i).cube := by
  simp [Frame.cubeAt, frame, readAt_eq_ok h, rowAt, Row.ofCube, h, Except.mapError]

theorem extentAt_frame (h : i < c.cubes.size) : c.frame.extentAt i = .ok (c.rowAt i).freeFrom := by
  have hsize : i < c.frame.extents.size := by simpa [frame] using h
  rw [Frame.extentAt, readAt_eq_ok hsize]
  simp [frame, rowAt, h, Except.mapError]

theorem map_range_rowAt (c : Cover) : (List.range c.cubes.size).map c.rowAt = c.rows := by
  apply List.ext_getElem
  · simp [rows]
  · intro i hi _
    have hsize : i < c.cubes.size := by simpa using hi
    simp [rows, rowAt, hsize]

/-- Cubes at valid positions are divided as the rows are. -/
theorem divide_frame (hrows : ∀ i ∈ rows, i < c.cubes.size) :
    c.frame.divide v rows = .ok (rows.filter fun i => (c.rowAt i).allows v true,
      rows.filter fun i => (c.rowAt i).allows v false) := by
  induction rows with
  | nil => rfl
  | cons i rows ih =>
    have hcube := cubeAt_frame (hrows i List.mem_cons_self)
    have hrest := ih fun j hj => hrows j (List.mem_cons_of_mem _ hj)
    rw [Frame.divide, hcube, hrest]
    cases hget : (c.rowAt i).cube.get? v with
    | none => simp [Row.allows, hget, bind, Except.bind, pure, Except.pure]
    | some value =>
      cases value <;> simp [Row.allows, hget, bind, Except.bind, pure, Except.pure]

/-! ### Turns -/

theorem anyM_extentAt_frame (hrows : ∀ i ∈ rows, i < c.cubes.size) :
    (rows.anyM fun i => (· ≤ v.index) <$> c.frame.extentAt i) =
      .ok ((rows.map c.rowAt).any (·.freeFrom ≤ v.index)) := by
  rw [List.any_map]
  apply anyM_ok
  intro i hi
  rw [extentAt_frame (hrows i hi)]
  rfl

theorem anyM_cubeAt_frame (hrows : ∀ i ∈ rows, i < c.cubes.size) :
    (rows.anyM fun i => (·.fixes v) <$> c.frame.cubeAt i) =
      .ok ((rows.map c.rowAt).any (·.cube.fixes v)) := by
  rw [List.any_map]
  apply anyM_ok
  intro i hi
  rw [cubeAt_frame (hrows i hi)]
  rfl

theorem turn_frame_eq_one (hrows : ∀ i ∈ rows, i < c.cubes.size) (hne : rows ≠ [])
    (h : v.index = c.order.numVars ∨ ∃ row ∈ rows.map c.rowAt, row.freeFrom ≤ v.index) :
    c.frame.turn v rows = .ok (.constant true) := by
  rw [Frame.turn, if_neg (by simpa using hne)]
  by_cases hend : v.index = c.order.numVars
  · rw [if_pos (show v.index = c.frame.numVars from hend)]
  · have hfree : (rows.map c.rowAt).any (·.freeFrom ≤ v.index) = true := by simpa [hend] using h
    rw [if_neg (show v.index ≠ c.frame.numVars from hend), anyM_extentAt_frame hrows, hfree]
    rfl

theorem turn_frame_of_undecided (hrows : ∀ i ∈ rows, i < c.cubes.size)
    (hlt : v.toIndex < c.order.numVars.toNat)
    (h : Undecided c.order.numVars v (rows.map c.rowAt)) :
    c.frame.turn v rows = .ok (
      if (rows.map c.rowAt).any (·.cube.fixes v) then
        .branch ⟨v.succ, Variable.toIndex_succ hlt⟩
          (rows.filter fun i => (c.rowAt i).allows v true)
          (rows.filter fun i => (c.rowAt i).allows v false)
      else .skip ⟨v.succ, Variable.toIndex_succ hlt⟩) := by
  have hne : ¬rows.isEmpty := by simpa using h.ne_nil
  have hfree : (rows.map c.rowAt).any (·.freeFrom ≤ v.index) = false := by simpa using h.not_free
  rw [Frame.turn, if_neg hne, if_neg (show v.index ≠ c.frame.numVars from h.ne_end),
    anyM_extentAt_frame hrows, hfree, anyM_cubeAt_frame hrows, divide_frame hrows,
    Variable.next_eq hlt]
  cases (rows.map c.rowAt).any (·.cube.fixes v) <;> rfl

/-- The positions that a branch keeps are those of the rows that it keeps. -/
theorem map_filter_allows (c : Cover) (rows : List Nat) (v : Variable) (value : Bool) :
    (rows.filter fun i => (c.rowAt i).allows v value).map c.rowAt =
      (rows.map c.rowAt).filter (·.allows v value) := by
  rw [List.filter_map]
  rfl

/-- What a turn finds is how the rows are split, with the positions of the rows. -/
def Finds (c : Cover) (v : Variable) (rows : List Nat) : Turn v → Prop
  | .constant value => split c.order.numVars v (rows.map c.rowAt) = .constant value
  | .skip next => next.1 = v.succ ∧ next.1.toIndex ≤ c.order.numVars.toNat ∧
    split c.order.numVars v (rows.map c.rowAt) = split c.order.numVars v.succ (rows.map c.rowAt)
  | .branch next highs lows => next.1 = v.succ ∧ next.1.toIndex ≤ c.order.numVars.toNat ∧
    highs ⊆ rows ∧ lows ⊆ rows ∧
    split c.order.numVars v (rows.map c.rowAt) =
      .branch v (highs.map c.rowAt) (lows.map c.rowAt)

/-- A turn on valid positions, at a variable of the order or at its end, finds something. -/
theorem exists_turn_frame (hrows : ∀ i ∈ rows, i < c.cubes.size)
    (hv : v.toIndex ≤ c.order.numVars.toNat) :
    ∃ turn, c.frame.turn v rows = .ok turn ∧ c.Finds v rows turn := by
  by_cases hempty : rows = []
  · subst hempty
    exact ⟨.constant false, rfl, split_nil⟩
  have hne : rows.map c.rowAt ≠ [] := by simpa using hempty
  by_cases hone : v.index = c.order.numVars ∨ ∃ row ∈ rows.map c.rowAt, row.freeFrom ≤ v.index
  · exact ⟨.constant true, turn_frame_eq_one hrows hempty hone, split_eq_one hne hone⟩
  obtain ⟨hend, hfree⟩ := not_or.1 hone
  have hopen : Undecided c.order.numVars v (rows.map c.rowAt) :=
    ⟨hne, hend, fun row hrow hle => hfree ⟨row, hrow, hle⟩⟩
  have hlt : v.toIndex < c.order.numVars.toNat :=
    Nat.lt_of_le_of_ne hv fun he => hend (UInt16.toNat_inj.1 he)
  have hnext : v.succ.toIndex ≤ c.order.numVars.toNat := by
    rw [Variable.toIndex_succ hlt]
    exact hlt
  refine ⟨_, turn_frame_of_undecided hrows hlt hopen, ?_⟩
  by_cases hfixes : (rows.map c.rowAt).any (·.cube.fixes v)
  · have hbranch := hopen.split_branch (by simpa using hfixes)
    rw [← map_filter_allows, ← map_filter_allows] at hbranch
    rw [if_pos hfixes]
    exact ⟨rfl, hnext, List.filter_subset_self _, List.filter_subset_self _, hbranch⟩
  · rw [if_neg hfixes]
    exact ⟨rfl, hnext, hopen.split_skip (by simpa using hfixes)⟩

theorem finds_of_turn {turn : Turn v} (hrows : ∀ i ∈ rows, i < c.cubes.size)
    (hv : v.toIndex ≤ c.order.numVars.toNat) (h : c.frame.turn v rows = .ok turn) :
    c.Finds v rows turn := by
  obtain ⟨_, hok, hfinds⟩ := exists_turn_frame hrows hv
  rw [h] at hok
  cases hok
  exact hfinds

/-! ### The loop over the jobs -/

/-- The task that a job stands for. -/
def task (c : Cover) : Job → Task
  | .develop v rows => .expand v (rows.map c.rowAt)
  | .join v => .join v

/-- A job starts at a variable of the order or at its end, and at all its positions there
are cubes. -/
def Supplies (c : Cover) : Job → Prop
  | .develop v rows => v.toIndex ≤ c.order.numVars.toNat ∧ ∀ i ∈ rows, i < c.cubes.size
  | .join _ => True

/-- On supplied jobs the construction does what the loop over the tasks does. -/
theorem run_frame (hjobs : ∀ job ∈ jobs, c.Supplies job) (results : List NodeId) (p : Pool) :
    c.frame.run jobs results p =
      (run c.order.numVars (jobs.map c.task) results p).mapError .fault := by
  -- By induction along the run: what each turn finds is how the rows are split, so the loop
  -- over the tasks goes on with the tasks of the same jobs.
  fun_induction Frame.run c.frame jobs results p with
  | case1 results p =>
    rw [List.map_nil, run]
    rfl
  | case2 v rows jobs results p value hturn ih =>
    obtain ⟨hjob, hjobs⟩ := List.forall_mem_cons.1 hjobs
    have hsplit := finds_of_turn hjob.2 hjob.1 hturn
    rw [ih hjobs, List.map_cons, task, run_constant hsplit]
  | case3 v rows jobs results p next hturn ih =>
    obtain ⟨hjob, hjobs⟩ := List.forall_mem_cons.1 hjobs
    obtain ⟨hnext, hle, hsplit⟩ := finds_of_turn hjob.2 hjob.1 hturn
    have hskip : c.Supplies (.develop next.1 rows) := ⟨hle, hjob.2⟩
    rw [ih (List.forall_mem_cons.2 ⟨hskip, hjobs⟩)]
    simp only [List.map_cons, task, hnext, run_expand_congr hsplit]
  | case4 v rows jobs results p next highs lows hturn ih =>
    obtain ⟨hjob, hjobs⟩ := List.forall_mem_cons.1 hjobs
    obtain ⟨hnext, hle, hhighs, hlows, hsplit⟩ := finds_of_turn hjob.2 hjob.1 hturn
    have hhigh : c.Supplies (.develop next.1 highs) := ⟨hle, fun i hi => hjob.2 i (hhighs hi)⟩
    have hlow : c.Supplies (.develop next.1 lows) := ⟨hle, fun i hi => hjob.2 i (hlows hi)⟩
    have hjoin : c.Supplies (.join v) := trivial
    rw [ih (by simpa [hhigh, hlow, hjoin] using hjobs)]
    simp only [List.map_cons, task, hnext, run_branch hsplit]
  | case5 v rows jobs results p trap hturn =>
    obtain ⟨hjob, hjobs⟩ := List.forall_mem_cons.1 hjobs
    obtain ⟨_, hok, -⟩ := exists_turn_frame hjob.2 hjob.1
    rw [hok] at hturn
    cases hturn
  | case6 v jobs low high results p id q hintern ih =>
    obtain ⟨hjob, hjobs⟩ := List.forall_mem_cons.1 hjobs
    rw [ih hjobs, List.map_cons, task, run_join, hintern]
  | case7 results v jobs p hshort =>
    rw [List.map_cons, task, run]
    · rfl
    · exact hshort

/-- No operation of a construction from a draft goes wrong if the draft is that of a cover,
and what comes out is the diagram of the cover with its log. -/
theorem construct_toDraft (c : Cover) :
    c.toDraft.construct = c.compileLogged.mapError .fault := by
  have hjobs : ∀ job ∈ [Job.develop ⟨0⟩ (List.range c.cubes.size)], c.Supplies job := by
    simp [Supplies, Variable.toIndex]
  have hrun := run_frame hjobs [] (.start c.order.numVars c.sharing)
  rw [List.map_singleton, task, map_range_rowAt, run_rows] at hrun
  simp only [Draft.construct, ofDraft_toDraft, order_toDraft, cubes_toDraft, sharing_toDraft,
    compileLogged_eq, bind, Except.bind, hrun, Except.mapError]
  rfl

end Cover

namespace Draft

/-- A draft to which any calls have been made, failing ones among them, is sound: its cubes
fix variables of its order only, and they are those of the calls that succeeded, in the
order of the calls.  The next call fails exactly if it has to be refused, and then it leaves
the draft as it was, to the order, the cubes and the switch.  The construction from the
draft never reads beyond the end of an array and never runs out of words: it delivers what
the unchecked compilation of a cover with the same contents delivers. -/
theorem Reached.intact {b : Draft} {journal : List Entry} (h : b.Reached journal) :
    (∀ cube ∈ b.cubes, cube.Within b.order.numVars) ∧
    b.cubes.toList = journal.filterMap (Entry.cube? b.order) ∧
    (∀ request : Request, ∀ failure,
      (b.call request).1 = .error failure ↔ request.Refused b.order failure) ∧
    (∀ request failure, (b.call request).1 = .error failure → (b.call request).2 = b) ∧
    ∃ c : Cover, c.toDraft = b ∧ ∃ result, b.construct = .ok result ∧
      c.compileLogged = .ok result := by
  obtain ⟨c, rfl, hcubes⟩ := h.exists_cover
  refine ⟨c.within, hcubes, ?_, ?_, c, rfl, ?_⟩
  · intro request failure
    rw [Cover.order_toDraft, ← Cover.perform_eq_error_iff, call_toDraft]
    cases c.perform request <;> simp
  · intro request failure hfails
    rw [call_toDraft] at hfails ⊢
    cases hperform : c.perform request with
    | ok c' => simp [hperform] at hfails
    | error failure => rfl
  · rw [Cover.construct_toDraft, Cover.compileLogged_eq]
    exact ⟨_, rfl, rfl⟩

/-- A cube over two variables that has eight cells. -/
def wideCube : Cube := (Cube.ofValues [(⟨1⟩, false)]).unset ⟨7⟩

/-- The first call is refused, the second is not, and a third one would be. -/
theorem Reached.intact_refused : ∃ b journal, Reached b journal ∧
    journal.map Prod.snd = [.error (.fault (.mintermOutside 5 2)), .ok ()] ∧
    b.cubes.toList = [wideCube] ∧
    b.call (.allow [("b", false), ("z", true)] true) =
      (.error (.input (.unknownVariable "z")), b) ∧
    ∃ result, b.construct = .ok result := by
  have hreached : Reached _ _ :=
    .call (.add wideCube) (.call (.add (.ofValues [(⟨5⟩, true)]))
      (.ofOrder (.two "a" "b" (by decide))))
  obtain ⟨-, hcubes, hfails, hkeeps, -, -, result, hresult, -⟩ := Reached.intact hreached
  have hb : "b" ∈ (VarOrder.two "a" "b" (by decide)).names := by simp
  have hz : "z" ∉ (VarOrder.two "a" "b" (by decide)).names := by simp
  have hrefused := (hfails (.allow [("b", false), ("z", true)] true)
    (.input (.unknownVariable "z"))).2
      ⟨[("b", false)], "z", true, [], rfl, List.forall_mem_singleton.2 hb, hz, rfl⟩
  exact ⟨_, _, hreached, by decide, hcubes.trans rfl,
    Prod.ext hrefused (hkeeps _ _ hrefused), result, hresult⟩

end Draft

end DecisionDiagram
