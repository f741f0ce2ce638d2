import DecisionDiagram.Proofs.Cover.Function
import DecisionDiagram.Proofs.Diagram.Named

/-!
# Covers filled by requests

A cover is filled by requests, made one after the other.  Each of them succeeds or
fails, and one that fails leaves the cover as it was.  `serve` keeps a journal of the
outcomes; the cubes of the cover are exactly those of the requests that succeeded, in
the order of the requests.

Requests may give values by name.  The diagram of a cover filled in this way is true
under exactly the assignments that agree with the last values given in some request
for `true` that succeeded, whatever other requests there were.
-/

namespace DecisionDiagram

open Assignment (valueOf lastValue)

/-- A call that may change a cover. -/
inductive Request
  /-- Declare the output for some named values. -/
  | allow (pairs : List (String × Bool)) (output : Bool)
  /-- Add a cube. -/
  | add (cube : Cube)
  /-- Switch the sharing of nodes on or off. -/
  | share (sharing : Bool)
  deriving DecidableEq

/-- The cube that a request adds if it succeeds. -/
def Request.cube? (o : VarOrder) : Request → Option Cube
  | allow pairs true => (o.cubeOf pairs).toOption
  | allow _ false => none
  | add cube => some cube
  | share _ => none

/-- A request with its outcome. -/
abbrev Entry := Request × Except Failure Unit

/-- The cube that was added according to an entry. -/
def Entry.cube? (o : VarOrder) : Entry → Option Cube
  | (request, .ok _) => request.cube? o
  | (_, .error _) => none

namespace Cover

variable {c c' : Cover} {cube : Cube} {request : Request} {requests : List Request}

/-- The cover that a request leads to. -/
def perform (c : Cover) : Request → Except Failure Cover
  | .allow pairs output => c.allow pairs output
  | .add cube => (c.add cube).mapError .fault
  | .share sharing => .ok (c.withSharing sharing)

/-- Makes requests one after the other, going on with the same cover after one that
fails. Returns the last cover and the journal. -/
def serve (c : Cover) : List Request → Cover × List Entry
  | [] => (c, [])
  | request :: requests =>
    match c.perform request with
    | .ok c' => ((c'.serve requests).1, (request, .ok ()) :: (c'.serve requests).2)
    | .error failure => ((c.serve requests).1, (request, .error failure) :: (c.serve requests).2)

end Cover

/-- The outcome of a request over an order, whatever cubes there are already. -/
def Request.outcome (o : VarOrder) (request : Request) : Except Failure Unit :=
  ((Cover.ofOrder o).perform request).map fun _ => ()

namespace Cover

variable {c c' : Cover} {cube : Cube} {request : Request} {requests : List Request}
  {pairs : List (String × Bool)} {o : VarOrder}

/-! ### One request -/

theorem mapError_eq_ok_iff {α ε ε' : Type} {x : Except ε α} {f : ε → ε'} {a : α} :
    x.mapError f = .ok a ↔ x = .ok a := by
  cases x <;> simp [Except.mapError]

theorem mapError_eq_error_iff {α ε ε' : Type} {x : Except ε α} {f : ε → ε'} {e : ε'} :
    x.mapError f = .error e ↔ ∃ e', x = .error e' ∧ f e' = e := by
  cases x <;> simp [Except.mapError]

theorem map_eq_ok_iff {α β ε : Type} {x : Except ε α} {f : α → β} {b : β} :
    x.map f = .ok b ↔ ∃ a, x = .ok a ∧ f a = b := by
  cases x <;> simp [Except.map]

theorem toOption_eq_some_iff {α ε : Type} {x : Except ε α} {a : α} :
    x.toOption = some a ↔ x = .ok a := by
  cases x <;> simp [Except.toOption]

theorem accept_eq_ok_iff {a : { a : Cube // a.Within o.numVars }} :
    accept o cube = .ok a ↔ cube = a.1 := by
  obtain ⟨a, ha⟩ := a
  rw [accept]
  split
  · rename_i last hlast
    split
    · simp
    · rename_i hout
      simp only [reduceCtorEq, false_iff]
      rintro rfl
      exact hout ((Cube.within_iff_of_lastFixed?_eq_some hlast).1 ha)
  · simp

theorem accept_eq_error_iff {fault : Fault} :
    accept o cube = .error fault ↔ ∃ last, cube.lastFixed? = some last ∧
      o.numVars ≤ last.index ∧ fault = .mintermOutside last.toIndex o.numVars.toNat := by
  rw [accept]
  split
  · rename_i last hlast
    split
    · rename_i hlt
      simpa [hlast] using fun hle => absurd hlt (UInt16.not_lt.2 hle)
    · rename_i hout
      simp [hlast, UInt16.not_lt.1 hout, eq_comm]
  · rename_i hnone
    simp [hnone]

/-- A cube is added at the end, if it is within the order. -/
theorem add_eq_ok_iff :
    c.add cube = .ok c' ↔ ∃ h : cube.Within c.order.numVars, c.push ⟨cube, h⟩ = c' := by
  rw [add]
  cases ha : accept c.order cube with
  | ok a =>
    obtain rfl := accept_eq_ok_iff.1 ha
    simp [a.2]
  | error fault =>
    simp only [reduceCtorEq, false_iff]
    rintro ⟨h, -⟩
    have hok : accept c.order cube = .ok ⟨cube, h⟩ := accept_eq_ok_iff.2 rfl
    rw [ha] at hok
    cases hok

theorem add_eq_error_iff {fault : Fault} :
    c.add cube = .error fault ↔ ∃ last, cube.lastFixed? = some last ∧
      c.order.numVars ≤ last.index ∧
      fault = .mintermOutside last.toIndex c.order.numVars.toNat := by
  rw [← accept_eq_error_iff, add]
  cases accept c.order cube <;> simp

/-- The cube of named values is accepted, since it fixes variables of the order only. -/
theorem add_cubeOf (hcube : c.order.cubeOf pairs = .ok cube) :
    c.add cube = .ok (c.push ⟨cube, VarOrder.within_cubeOf hcube⟩) :=
  add_eq_ok_iff.2 ⟨_, rfl⟩

theorem allow_true (c : Cover) (pairs : List (String × Bool)) :
    c.allow pairs true =
      (c.order.cubeOf pairs).mapError .input >>= fun cube => (c.add cube).mapError .fault := rfl

theorem allow_true_eq_ok_iff :
    c.allow pairs true = .ok c' ↔
      ∃ cube, c.order.cubeOf pairs = .ok cube ∧ c.add cube = .ok c' := by
  rw [allow_true]
  cases c.order.cubeOf pairs with
  | ok cube => simpa [Except.mapError, bind, Except.bind] using mapError_eq_ok_iff
  | error error => simp [Except.mapError, bind, Except.bind]

/-- A request that succeeds adds its cube at the end and keeps the order. -/
theorem perform_eq_ok (h : c.perform request = .ok c') :
    c'.order = c.order ∧ c'.cubes.toList = c.cubes.toList ++ (request.cube? c.order).toList := by
  have hadd : ∀ cube, c.add cube = .ok c' →
      c'.order = c.order ∧ c'.cubes.toList = c.cubes.toList ++ [cube] := by
    intro cube hc
    obtain ⟨-, rfl⟩ := add_eq_ok_iff.1 hc
    exact ⟨rfl, Array.toList_push⟩
  cases request with
  | allow pairs output =>
    cases output with
    | false =>
      cases h
      simp [Request.cube?]
    | true =>
      obtain ⟨cube, hcube, hc⟩ := allow_true_eq_ok_iff.1 h
      rw [Request.cube?, hcube]
      exact hadd cube hc
  | add cube => exact hadd cube (mapError_eq_ok_iff.1 h)
  | share sharing =>
    cases h
    simp [Request.cube?, withSharing]

/-- Whether a request succeeds, and how it fails, depends on the order alone. -/
theorem map_perform (c : Cover) (request : Request) :
    ((c.perform request).map fun _ => ()) = request.outcome c.order := by
  have hadd : ∀ cube, (((c.add cube).mapError Failure.fault).map fun _ => ()) =
      (((ofOrder c.order).add cube).mapError Failure.fault).map fun _ => () := by
    intro cube
    cases h : accept c.order cube with
    | ok a =>
      have h' : accept (ofOrder c.order).order cube = .ok a := h
      rw [add, add, h, h']
      rfl
    | error fault =>
      have h' : accept (ofOrder c.order).order cube = .error fault := h
      rw [add, add, h, h']
  cases request with
  | allow pairs output =>
    cases output with
    | false => rfl
    | true =>
      rw [Request.outcome, perform, perform, allow_true, allow_true]
      change _ = Except.map _ (Except.mapError _ (c.order.cubeOf pairs) >>= _)
      cases c.order.cubeOf pairs with
      | ok cube => exact hadd cube
      | error error => rfl
  | add cube => exact hadd cube
  | share sharing => rfl

/-- A request for `true` succeeds exactly if all its names are in the order. -/
theorem outcome_allow_true_iff :
    (Request.allow pairs true).outcome o = .ok () ↔ ∀ pair ∈ pairs, pair.1 ∈ o.names := by
  rw [← VarOrder.exists_cubeOf_iff, Request.outcome, map_eq_ok_iff]
  constructor
  · rintro ⟨c', h, -⟩
    obtain ⟨cube, hcube, -⟩ := allow_true_eq_ok_iff.1 h
    exact ⟨cube, hcube⟩
  · rintro ⟨cube, hcube⟩
    have hallow := allow_true_eq_ok_iff.2 ⟨cube, hcube, add_cubeOf (c := ofOrder o) hcube⟩
    exact ⟨_, hallow, rfl⟩

/-! ### All requests -/

theorem serve_cons_ok (h : c.perform request = .ok c') :
    c.serve (request :: requests) =
      ((c'.serve requests).1, (request, .ok ()) :: (c'.serve requests).2) := by
  rw [serve, h]

theorem serve_cons_error {failure : Failure} (h : c.perform request = .error failure) :
    c.serve (request :: requests) =
      ((c.serve requests).1, (request, .error failure) :: (c.serve requests).2) := by
  rw [serve, h]

@[simp] theorem order_serve (c : Cover) (requests : List Request) :
    (c.serve requests).1.order = c.order := by
  induction requests generalizing c with
  | nil => rfl
  | cons request requests ih =>
    cases h : c.perform request with
    | ok c' => rw [serve_cons_ok h, ih, (perform_eq_ok h).1]
    | error failure => rw [serve_cons_error h, ih]

/-- Each request has the outcome that it would have on its own. -/
theorem journal_serve (c : Cover) (requests : List Request) :
    (c.serve requests).2 = requests.map fun request => (request, request.outcome c.order) := by
  induction requests generalizing c with
  | nil => rfl
  | cons request requests ih =>
    rw [List.map_cons, ← map_perform]
    cases h : c.perform request with
    | ok c' =>
      rw [serve_cons_ok h, ih, (perform_eq_ok h).1]
      rfl
    | error failure =>
      rw [serve_cons_error h, ih]
      rfl

theorem mem_journal_serve : (request, .ok ()) ∈ (c.serve requests).2 ↔
    request ∈ requests ∧ request.outcome c.order = .ok () := by
  simp [journal_serve]

/-- Requests add the cubes of those that succeed, in order, and nothing else. -/
theorem cubes_serve (c : Cover) (requests : List Request) :
    (c.serve requests).1.cubes.toList =
      c.cubes.toList ++ (c.serve requests).2.filterMap (Entry.cube? c.order) := by
  induction requests generalizing c with
  | nil => exact (List.append_nil _).symm
  | cons request requests ih =>
    cases h : c.perform request with
    | ok c' =>
      obtain ⟨horder, hcubes⟩ := perform_eq_ok h
      rw [serve_cons_ok h, ih, horder, hcubes, List.append_assoc, List.filterMap_cons, Entry.cube?]
      cases request.cube? c.order <;> rfl
    | error failure => rw [serve_cons_error h, ih, List.filterMap_cons, Entry.cube?]

theorem entry_cube?_eq_some_iff {entry : Entry} :
    entry.cube? o = some cube ↔ entry.2 = .ok () ∧ entry.1.cube? o = some cube := by
  obtain ⟨request, _ | _⟩ := entry <;> simp [Entry.cube?]

theorem mem_cubes_serve :
    cube ∈ (c.serve requests).1.cubes ↔ cube ∈ c.cubes ∨
      ∃ request, (request, .ok ()) ∈ (c.serve requests).2 ∧ request.cube? c.order = some cube := by
  simp only [← Array.mem_toList_iff, cubes_serve, List.mem_append, List.mem_filterMap,
    entry_cube?_eq_some_iff, Prod.exists]
  refine or_congr_right (exists_congr fun request => ?_)
  constructor
  · rintro ⟨outcome, hmem, rfl, hcube⟩
    exact ⟨hmem, hcube⟩
  · rintro ⟨hmem, hcube⟩
    exact ⟨_, hmem, rfl, hcube⟩

/-- A fresh cover filled by calls that declare the output for named values, and the
journal of the calls. -/
def declare (o : VarOrder) (sharing : Bool) (calls : List (List (String × Bool) × Bool)) :
    Cover × List Entry :=
  ((ofOrder o).withSharing sharing).serve (calls.map fun call => .allow call.1 call.2)

@[simp] theorem order_declare {sharing : Bool} {calls : List (List (String × Bool) × Bool)} :
    (declare o sharing calls).1.order = o := order_serve _ _

/-- The calls for `true` that succeed are those whose names are all in the order. -/
theorem mem_journal_declare {sharing : Bool} {calls : List (List (String × Bool) × Bool)} :
    (.allow pairs true, .ok ()) ∈ (declare o sharing calls).2 ↔
      (pairs, true) ∈ calls ∧ ∀ pair ∈ pairs, pair.1 ∈ o.names := by
  have hmem : Request.allow pairs true ∈ calls.map (fun call => .allow call.1 call.2) ↔
      (pairs, true) ∈ calls := by
    simp
  rw [declare, mem_journal_serve, hmem]
  exact and_congr_right fun _ => outcome_allow_true_iff

/-! ### Named values -/

section Named

variable {α : Type u} [Assignment α] {a : α}

/-- The cube of named values contains the point of an assignment that agrees. -/
theorem agreesFrom_point_iff (hcube : o.cubeOf pairs = .ok cube)
    (ha : ∀ name ∈ o.names, (valueOf a name).isSome) :
    cube.AgreesFrom 0 (o.point a) ↔
      ∀ name value, lastValue pairs name = some value → valueOf a name = some value := by
  constructor
  · intro h name value hvalue
    obtain ⟨pair, hpair, rfl⟩ := Assignment.exists_mem_of_lastValue hvalue
    obtain ⟨x, hx⟩ := VarOrder.exists_getElem?_of_mem
      (VarOrder.exists_cubeOf_iff.1 ⟨cube, hcube⟩ pair hpair)
    have hget : cube.get? x = some value := by
      rw [VarOrder.get?_cubeOf hcube, hx, Option.bind_some, hvalue]
    rw [VarOrder.valueOf_eq_point ha hx, h x value (Nat.zero_le _) hget]
  · intro h x value _ hget
    rw [VarOrder.get?_cubeOf hcube, Option.bind_eq_some_iff] at hget
    obtain ⟨name, hx, hvalue⟩ := hget
    have hpoint := h name value hvalue
    rw [VarOrder.valueOf_eq_point ha hx] at hpoint
    exact Option.some.inj hpoint

/-- If all requests give values by name then the filled cover is true at the point of
an assignment that agrees with some request for `true` that succeeded. -/
theorem holds_serve_iff (hc : c.cubes = #[])
    (ha : ∀ name ∈ c.order.names, (valueOf a name).isSome)
    (hallow : ∀ request ∈ requests, ∃ pairs output, request = .allow pairs output) :
    (c.serve requests).1.Holds (c.order.point a) ↔
      ∃ pairs, (.allow pairs true, .ok ()) ∈ (c.serve requests).2 ∧
        ∀ name value, lastValue pairs name = some value → valueOf a name = some value := by
  simp only [Holds, mem_cubes_serve, hc, Array.not_mem_empty, false_or, mem_journal_serve]
  constructor
  · rintro ⟨cube, ⟨request, ⟨hmem, hok⟩, hcube⟩, hagrees⟩
    obtain ⟨pairs, output, rfl⟩ := hallow request hmem
    cases output with
    | false => cases hcube
    | true =>
      have hcubeOf := toOption_eq_some_iff.1 hcube
      exact ⟨pairs, ⟨hmem, hok⟩, (agreesFrom_point_iff hcubeOf ha).1 hagrees⟩
  · rintro ⟨pairs, ⟨hmem, hok⟩, hagrees⟩
    obtain ⟨cube, hcubeOf⟩ := VarOrder.exists_cubeOf_iff.2 (outcome_allow_true_iff.1 hok)
    exact ⟨cube, ⟨_, ⟨hmem, hok⟩, toOption_eq_some_iff.2 hcubeOf⟩,
      (agreesFrom_point_iff hcubeOf ha).2 hagrees⟩

/-- If a fresh cover is filled by calls that give values by name, some of which may
fail, then its diagram evaluates under every assignment of all names of the order.
The result is `true` exactly if some call with the output `true` succeeded and the
assignment agrees with the last value that the call gives to each name. -/
theorem evalNamed_compile_declare (o : VarOrder) (sharing : Bool)
    (calls : List (List (String × Bool) × Bool)) (a : α)
    (ha : ∀ name ∈ o.names, (valueOf a name).isSome) :
    ∃ d, (declare o sharing calls).1.compile = .ok d ∧ (d.size ≤ 4294967296 →
      ∃ b, d.evalNamed a = .ok b ∧
        (b = true ↔ ∃ pairs, (.allow pairs true, .ok ()) ∈ (declare o sharing calls).2 ∧
          ∀ name value, lastValue pairs name = some value → valueOf a name = some value)) := by
  have hallow : ∀ request ∈ calls.map fun call => Request.allow call.1 call.2,
      ∃ pairs output, request = .allow pairs output := by
    rw [List.forall_mem_map]
    intro call _
    exact ⟨call.1, call.2, rfl⟩
  refine ⟨_, compile_eq _, fun hsize => ?_⟩
  have horder : (declare o sharing calls).1.diagram.order = o := order_declare
  have hd := valid_diagram _ hsize
  refine ⟨_, hd.evalNamed_eq (by rwa [horder]), ?_⟩
  rw [valueAt_diagram _ hsize, horder]
  exact holds_serve_iff rfl ha hallow

end Named

/-- Of three calls the first is for `false`, the second has an unknown name, and the
last gives two values to `b`. -/
def threeCalls : List (List (String × Bool) × Bool) :=
  [([("a", false)], false), ([("a", false), ("z", true)], true),
    ([("b", false), ("a", true), ("b", true)], true)]

theorem evalNamed_compile_declare_three :
    ∃ d, (declare (.two "a" "b" (by decide)) false threeCalls).1.compile = .ok d ∧
      d.evalNamed [("y", false), ("b", true), ("a", true)] = .ok true ∧
      d.evalNamed [("b", true), ("a", false)] = .ok false := by
  have happly := evalNamed_compile_declare (α := List (String × Bool)) (.two "a" "b" (by decide))
    false threeCalls
  obtain ⟨d, hd, h⟩ := happly [("y", false), ("b", true), ("a", true)] (by decide)
  obtain ⟨d', hd', h'⟩ := happly [("b", true), ("a", false)] (by decide)
  obtain rfl : d = d' := Except.ok.inj (hd.symm.trans hd')
  have hsize : d.size ≤ 4294967296 :=
    Nat.le_trans (size_compile_le hd) (by rw [order_declare]; decide)
  obtain ⟨b, hb, hiff⟩ := h hsize
  obtain ⟨b', hb', hiff'⟩ := h' hsize
  have htrue : b = true := by
    rw [hiff]
    refine ⟨_, mem_journal_declare.2 ⟨.tail _ (.tail _ (.head _)), by simp⟩, ?_⟩
    intro name value hvalue
    obtain ⟨pair, hpair, rfl⟩ := Assignment.exists_mem_of_lastValue hvalue
    revert pair value
    decide
  have hfalse : b' = false := by
    rw [← Bool.not_eq_true, hiff']
    rintro ⟨pairs, hentry, hagrees⟩
    obtain ⟨hcall, hnames⟩ := mem_journal_declare.1 hentry
    simp only [threeCalls, List.mem_cons, Prod.mk.injEq, reduceCtorEq, and_false, and_true, false_or,
      List.not_mem_nil, or_false] at hcall
    rcases hcall with rfl | rfl
    · simpa using hnames ("z", true)
    · exact absurd (hagrees "a" true (by decide)) (by decide)
  exact ⟨d, hd, htrue ▸ hb, hfalse ▸ hb'⟩

end Cover

end DecisionDiagram
