import DecisionDiagram.Proofs.Cover.Requests
import DecisionDiagram.Proofs.Order.Translation

/-!
# Drafts

A draft is a cover of which nothing is promised: an order, cubes and a switch, to which
calls are made that may fail half-way.  A call changes the draft in place, and what it has
written before it fails stays written.  All the same a failing call leaves no trace, since
it fails before it writes.  A draft that calls have led to is a cover: its cubes fix
variables of its order only, and they are those of the calls that succeeded, in their order.
-/

namespace DecisionDiagram

/-- A cover in the making. -/
structure Draft where
  /-- The names of the variables. -/
  order : VarOrder
  /-- The cubes, in the order in which they were stored. -/
  cubes : Array Cube
  /-- Whether equal nodes are to be shared. -/
  sharing : Bool
  deriving DecidableEq

/-- The draft that has become of a cover. -/
def Cover.toDraft (c : Cover) : Draft := ⟨c.order, c.cubes, c.sharing⟩

@[simp] theorem Cover.order_toDraft (c : Cover) : c.toDraft.order = c.order := rfl

@[simp] theorem Cover.cubes_toDraft (c : Cover) : c.toDraft.cubes = c.cubes := rfl

@[simp] theorem Cover.sharing_toDraft (c : Cover) : c.toDraft.sharing = c.sharing := rfl

namespace Draft

/-! ### Calls -/

/-- The draft without cubes; nodes will be shared. -/
def ofOrder (order : VarOrder) : Draft := ⟨order, #[], true⟩

/-- The draft without cubes over the order with the given names. -/
def ofNames (names : List String) : Except InputError Draft := ofOrder <$> VarOrder.ofNames names

/-- A computation that changes a draft and may fail. The draft is that of the moment of
failure; no earlier one comes back. -/
abbrev Change := ExceptT Failure (StateM Draft)

/-- Stores a cube. Its last fixed variable has to be in the order. -/
def store (cube : Cube) : Change Unit := do
  let order := (← get).order
  if let some last := cube.lastFixed? then
    if order.numVars ≤ last.index then
      throw (.fault (.mintermOutside last.toIndex order.numVars.toNat))
  modify fun draft => { draft with cubes := draft.cubes.push cube }

/-- Stores the cube of named values, if the output for them is `true`. -/
def declare (pairs : List (String × Bool)) (output : Bool) : Change Unit := do
  if output then
    match (← get).order.cubeOf pairs with
    | .ok cube => store cube
    | .error error => throw (.input error)

/-- The change that a request asks for. -/
def change : Request → Change Unit
  | .allow pairs output => declare pairs output
  | .add cube => store cube
  | .share sharing => modify fun draft => { draft with sharing }

/-- Makes a request. Returns its outcome and the draft that it leaves. -/
def call (b : Draft) (request : Request) : Except Failure Unit × Draft :=
  (change request).run b

/-- Calls have led from an empty draft to this one, with the outcomes in the journal. -/
inductive Reached : Draft → List Entry → Prop
  /-- A draft over new names. -/
  | ofNames {names : List String} {b : Draft} : ofNames names = .ok b → Reached b []
  /-- A draft over an order that is there. -/
  | ofOrder (order : VarOrder) : Reached (ofOrder order) []
  /-- One more call, whether or not it succeeds. -/
  | call {b : Draft} {journal : List Entry} (request : Request) : Reached b journal →
    Reached (b.call request).2 (journal ++ [(request, (b.call request).1)])

/-! ### The outcome of a call -/

theorem run_store (b : Draft) (cube : Cube) :
    (store cube).run b =
      match cube.lastFixed? with
      | some last =>
        if b.order.numVars ≤ last.index then
          (.error (.fault (.mintermOutside last.toIndex b.order.numVars.toNat)), b)
        else (.ok (), { b with cubes := b.cubes.push cube })
      | none => (.ok (), { b with cubes := b.cubes.push cube }) := by
  rw [store]
  cases cube.lastFixed? with
  | none => rfl
  | some last =>
    change ExceptT.run (if _ then throw _ else modify _ : Change Unit) b = _
    dsimp only
    split <;> rfl

theorem run_declare (b : Draft) (pairs : List (String × Bool)) (output : Bool) :
    (declare pairs output).run b =
      if output then
        match b.order.cubeOf pairs with
        | .ok cube => (store cube).run b
        | .error error => (.error (.input error), b)
      else (.ok (), b) := by
  rw [declare]
  cases output with
  | false => rfl
  | true =>
    change ExceptT.run (match b.order.cubeOf pairs with
      | .ok cube => store cube
      | .error error => throw (.input error) : Change Unit) b = _
    cases b.order.cubeOf pairs <;> rfl

end Draft

variable {c : Cover} {cube : Cube} {request : Request} {failure : Failure}

/-! ### Refused requests -/

/-- A request is refused with a failure: one for `true` because of a name that is not in the
order, the first one if there are several, and a cube because the last variable that it fixes
is not there. No other request is refused. -/
def Request.Refused (o : VarOrder) : Request → Failure → Prop
  | .allow pairs true, failure => ∃ before name value after,
    pairs = before ++ (name, value) :: after ∧ (∀ pair ∈ before, pair.1 ∈ o.names) ∧
    name ∉ o.names ∧ failure = .input (.unknownVariable name)
  | .add cube, failure => ∃ last, cube.lastFixed? = some last ∧ o.numVars ≤ last.index ∧
    failure = .fault (.mintermOutside last.toIndex o.numVars.toNat)
  | _, _ => False

namespace Cover

theorem allow_true_eq_error_iff {pairs : List (String × Bool)} :
    c.allow pairs true = .error failure ↔
      ∃ error, c.order.cubeOf pairs = .error error ∧ failure = .input error := by
  rw [allow_true]
  cases hcube : c.order.cubeOf pairs with
  | ok cube => simp [Except.mapError, bind, Except.bind, add_cubeOf hcube]
  | error error => simp [Except.mapError, bind, Except.bind, eq_comm]

theorem perform_eq_error_iff :
    c.perform request = .error failure ↔ request.Refused c.order failure := by
  cases request with
  | allow pairs output =>
    cases output with
    | true =>
      rw [perform, allow_true_eq_error_iff, Request.Refused]
      simp only [VarOrder.cubeOf_eq_error_iff]
      constructor
      · rintro ⟨_, ⟨before, name, value, after, hpairs, hbefore, hname, rfl⟩, rfl⟩
        exact ⟨before, name, value, after, hpairs, hbefore, hname, rfl⟩
      · rintro ⟨before, name, value, after, hpairs, hbefore, hname, rfl⟩
        exact ⟨_, ⟨before, name, value, after, hpairs, hbefore, hname, rfl⟩, rfl⟩
    | false => simp [perform, allow, Request.Refused]
  | add cube =>
    rw [perform, mapError_eq_error_iff, Request.Refused]
    simp only [add_eq_error_iff]
    constructor
    · rintro ⟨_, ⟨last, hlast, hout, rfl⟩, rfl⟩
      exact ⟨last, hlast, hout, rfl⟩
    · rintro ⟨last, hlast, hout, rfl⟩
      exact ⟨_, ⟨last, hlast, hout, rfl⟩, rfl⟩
  | share sharing => simp [perform, Request.Refused]

end Cover

/-! ### Calls on covers -/

namespace Draft

variable {b : Draft} {journal : List Entry}

/-- A cube is stored in the draft of a cover if the cover accepts it. -/
theorem store_toDraft (c : Cover) (cube : Cube) :
    (store cube).run c.toDraft =
      match (c.add cube).mapError Failure.fault with
      | .ok c' => (.ok (), c'.toDraft)
      | .error failure => (.error failure, c.toDraft) := by
  rw [run_store]
  cases h : c.add cube with
  | ok c' =>
    obtain ⟨hwithin, rfl⟩ := Cover.add_eq_ok_iff.1 h
    cases hlast : cube.lastFixed? with
    | none => rfl
    | some last =>
      have hlt := (Cube.within_iff_of_lastFixed?_eq_some hlast).1 hwithin
      exact if_neg (UInt16.not_le.2 hlt)
  | error fault =>
    obtain ⟨last, hlast, hout, rfl⟩ := Cover.add_eq_error_iff.1 h
    rw [hlast]
    exact if_pos hout

/-- A call on the draft of a cover does what the request does on the cover, and changes
nothing if that fails. -/
theorem call_toDraft (c : Cover) (request : Request) :
    c.toDraft.call request =
      match c.perform request with
      | .ok c' => (.ok (), c'.toDraft)
      | .error failure => (.error failure, c.toDraft) := by
  cases request with
  | allow pairs output =>
    rw [call, change, run_declare, Cover.perform]
    cases output with
    | false => rfl
    | true =>
      rw [Cover.allow_true, if_pos rfl]
      change (match c.order.cubeOf pairs with | .ok cube => _ | .error error => _) = _
      cases c.order.cubeOf pairs with
      | ok cube => exact store_toDraft c cube
      | error error => rfl
  | add cube => exact store_toDraft c cube
  | share sharing => rfl

/-- A draft that calls have led to is that of a cover, with the cubes of the calls that
succeeded. -/
theorem Reached.exists_cover (h : Reached b journal) :
    ∃ c : Cover, c.toDraft = b ∧ c.cubes.toList = journal.filterMap (Entry.cube? c.order) := by
  -- The invariant is that there is such a cover: its type holds the bound for the cubes.
  induction h with
  | @ofNames names b hb =>
    obtain ⟨order, -, rfl⟩ := Cover.map_eq_ok_iff.1 hb
    exact ⟨.ofOrder order, rfl, rfl⟩
  | ofOrder order => exact ⟨.ofOrder order, rfl, rfl⟩
  | @call b journal request _ ih =>
    obtain ⟨c, rfl, hcubes⟩ := ih
    rw [call_toDraft]
    cases hperform : c.perform request with
    | ok c' =>
      obtain ⟨horder, hcubes'⟩ := Cover.perform_eq_ok hperform
      refine ⟨c', rfl, ?_⟩
      rw [hcubes', horder, hcubes, List.filterMap_append]
      cases h : request.cube? c.order <;> simp [Entry.cube?, h]
    | error failure =>
      refine ⟨c, rfl, ?_⟩
      rw [hcubes, List.filterMap_append]
      simp [Entry.cube?]

end Draft

end DecisionDiagram
