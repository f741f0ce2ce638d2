import DecisionDiagram.Proofs.Cover.Obtained

/-!
# The course of a walk

`Course` says by rules, without any bound for the number of steps, which decision nodes a
walk passes and where it stops: at a terminal, or at a node for whose variable there is no
value.  It has no rule for leaving the table and none for going on for ever.  Every walk
through a diagram has a course, and along a course ids go down and variables go up.  So a
walk ends after at most as many decision nodes as there are variables, and whatever it reads
on the way is there.
-/

namespace DecisionDiagram

open Assignment (valueOf)

/-- The value that a valuation has for a variable. -/
def Valuation.choice (v : Valuation) : Variable → Option Bool := fun x => v.bits[x.toIndex]?

/-- The value that an assignment has for the name of a variable. -/
def VarOrder.choice {α : Type u} [Assignment α] (o : VarOrder) (a : α) : Variable → Option Bool :=
  fun x => o.names[x.toIndex]?.bind (valueOf a)

theorem VarOrder.choice_eq {α : Type u} [Assignment α] {o : VarOrder} {a : α} {x : Variable}
    {name : String} (hn : o.names[x.toIndex]? = some name) : o.choice a x = valueOf a name := by
  simp [choice, hn]

namespace Diagram

variable {d : Diagram} {choose : Variable → Option Bool} {id id' : NodeId}
  {node node' : Node} {ids ids' : List NodeId} {stop stop' : Stop} {x : Variable} {b : Bool}

/-- A walk from the node passes the listed decision nodes and stops for the given reason. -/
inductive Course (d : Diagram) (choose : Variable → Option Bool) :
    NodeId → List NodeId → Stop → Prop
  /-- At a terminal the walk is over. -/
  | leaf (b : Bool) : d.Course choose (.ofBool b) [] (.leaf b)
  /-- It cannot leave a node for whose variable there is no value. -/
  | stuck {id : NodeId} {node : Node} : 2 ≤ id.toIndex → d.nodes[id.toIndex]? = some node →
    choose node.var = none → d.Course choose id [id] (.stuck id node.var)
  /-- It goes on from the child for the value of the variable. -/
  | step {id : NodeId} {node : Node} {b : Bool} {ids : List NodeId} {stop : Stop} :
    2 ≤ id.toIndex → d.nodes[id.toIndex]? = some node → choose node.var = some b →
    d.Course choose (node.child b) ids stop → d.Course choose id (id :: ids) stop

/-! ### Walks have courses -/

/-- With room for as many steps as there are positions up to the node, a walk runs its
course. -/
theorem Grounded.exists_course (hd : d.Grounded) (choose : Variable → Option Bool)
    (hid : id.toIndex < d.size) {steps : Nat} (hsteps : id.toIndex ≤ steps)
    (passed : List NodeId) :
    ∃ ids stop, d.Course choose id ids stop ∧
      d.walkOn choose steps id passed = ⟨passed.reverse ++ ids, stop⟩ := by
  induction id, hid using hd.induct generalizing steps passed with
  | terminal b _ =>
    refine ⟨[], .leaf b, .leaf b, ?_⟩
    rw [walkOn]
    simp
  | decision id node _ h2 hn ih =>
    have hnone : id.toBool? = none := NodeId.toBool?_eq_none_iff.2 h2
    obtain ⟨k, rfl⟩ : ∃ k, steps = k + 1 := ⟨steps - 1, by omega⟩
    rw [walkOn]
    simp only [hnone, hn]
    cases hc : choose node.var with
    | none =>
      refine ⟨[id], _, .stuck h2 hn hc, ?_⟩
      simp
    | some b =>
      have hroom : (node.child b).toIndex ≤ k := by
        have := (hd.fits h2 hn).child_lt b
        omega
      obtain ⟨ids, stop, hcourse, hwalk⟩ := ih b (hd.child_lt_size h2 hn b) hroom (id :: passed)
      refine ⟨id :: ids, stop, .step h2 hn hc hcourse, ?_⟩
      simp [hwalk]

theorem Grounded.course_walk (hd : d.Grounded) (choose : Variable → Option Bool) :
    d.Course choose d.root (d.walk choose).visited (d.walk choose).stop := by
  obtain ⟨ids, stop, hcourse, hwalk⟩ :=
    hd.exists_course choose hd.root_lt (Nat.le_of_lt hd.root_lt) []
  have heq : d.walk choose = ⟨ids, stop⟩ := hwalk
  rw [heq]
  exact hcourse

/-! ### Courses from a node -/

theorem course_ofBool_iff : d.Course choose (.ofBool b) ids stop ↔ ids = [] ∧ stop = .leaf b := by
  constructor
  · intro h
    generalize hid : NodeId.ofBool b = id at h
    cases h with
    | leaf c =>
      rw [NodeId.ofBool_inj.1 hid]
      exact ⟨rfl, rfl⟩
    | stuck h2 => exact absurd (hid ▸ h2) (NodeId.not_two_le_ofBool b)
    | step h2 => exact absurd (hid ▸ h2) (NodeId.not_two_le_ofBool b)
  · rintro ⟨rfl, rfl⟩
    exact .leaf b

/-- From a decision node a walk goes on to a child, if there is a value for the variable,
and stops there otherwise. -/
theorem course_node_iff (h2 : 2 ≤ id.toIndex) (hn : d.nodes[id.toIndex]? = some node) :
    d.Course choose id ids stop ↔
      match choose node.var with
      | none => ids = [id] ∧ stop = .stuck id node.var
      | some b => ∃ ids', ids = id :: ids' ∧ d.Course choose (node.child b) ids' stop := by
  constructor
  · intro h
    cases h with
    | leaf b => exact absurd h2 (NodeId.not_two_le_ofBool b)
    | @stuck _ node' _ hn' hc =>
      obtain rfl : node = node' := Option.some.inj (hn.symm.trans hn')
      rw [hc]
      exact ⟨rfl, rfl⟩
    | @step _ node' b ids _ _ hn' hc hrest =>
      obtain rfl : node = node' := Option.some.inj (hn.symm.trans hn')
      rw [hc]
      exact ⟨ids, rfl, hrest⟩
  · intro h
    cases hc : choose node.var with
    | none =>
      rw [hc] at h
      obtain ⟨rfl, rfl⟩ := h
      exact .stuck h2 hn hc
    | some b =>
      rw [hc] at h
      obtain ⟨ids', rfl, hrest⟩ := h
      exact .step h2 hn hc hrest

/-- A walk has one course only. -/
theorem Course.unique (h : d.Course choose id ids stop) (h' : d.Course choose id ids' stop') :
    ids = ids' ∧ stop = stop' := by
  induction h generalizing ids' with
  | leaf b =>
    obtain ⟨rfl, rfl⟩ := course_ofBool_iff.1 h'
    exact ⟨rfl, rfl⟩
  | stuck h2 hn hc =>
    rw [course_node_iff h2 hn, hc] at h'
    exact ⟨h'.1.symm, h'.2.symm⟩
  | step h2 hn hc _ ih =>
    rw [course_node_iff h2 hn, hc] at h'
    obtain ⟨rest, rfl, hrest⟩ := h'
    obtain ⟨rfl, rfl⟩ := ih hrest
    exact ⟨rfl, rfl⟩

theorem Grounded.stop_walk_eq (hd : d.Grounded) (h : d.Course choose d.root ids stop) :
    (d.walk choose).stop = stop :=
  ((hd.course_walk choose).unique h).2

/-! ### Down the table and along the order -/

/-- The first of the nodes that are passed has the largest id and the first variable. -/
theorem Course.le_of_mem (hd : d.Grounded) (h : d.Course choose id ids stop) (hid' : id' ∈ ids)
    (hn : d.nodes[id.toIndex]? = some node) (hn' : d.nodes[id'.toIndex]? = some node') :
    id'.toIndex ≤ id.toIndex ∧ node.var.toIndex ≤ node'.var.toIndex := by
  induction h generalizing node with
  | leaf b => cases hid'
  | stuck h2 =>
    obtain rfl := List.mem_singleton.1 hid'
    obtain rfl := Option.some.inj (hn.symm.trans hn')
    exact ⟨Nat.le_refl _, Nat.le_refl _⟩
  | @step id node₀ b ids stop h2 hn₀ _ _ ih =>
    obtain rfl : node = node₀ := Option.some.inj (hn.symm.trans hn₀)
    rcases List.mem_cons.1 hid' with rfl | hid'
    · obtain rfl := Option.some.inj (hn.symm.trans hn')
      exact ⟨Nat.le_refl _, Nat.le_refl _⟩
    · obtain ⟨child, hchild, hdown, hup⟩ := hd.exists_child h2 hn b
      obtain ⟨hle, hvar⟩ := ih hid' hchild
      omega

/-- What is passed after a decision node has a smaller id and a later variable. -/
theorem Course.lt_of_mem (hd : d.Grounded) (h2 : 2 ≤ id.toIndex)
    (hn : d.nodes[id.toIndex]? = some node) (h : d.Course choose (node.child b) ids stop)
    (hid' : id' ∈ ids) (hn' : d.nodes[id'.toIndex]? = some node') :
    id'.toIndex < id.toIndex ∧ node.var.toIndex < node'.var.toIndex := by
  obtain ⟨child, hchild, hdown, hup⟩ := hd.exists_child h2 hn b
  obtain ⟨hle, hvar⟩ := h.le_of_mem hd hid' hchild hn'
  omega

/-- Only decision nodes of the table are passed. -/
theorem Course.decision (h : d.Course choose id ids stop) (hid' : id' ∈ ids) :
    2 ≤ id'.toIndex ∧ ∃ node, d.nodes[id'.toIndex]? = some node := by
  induction h with
  | leaf b => cases hid'
  | stuck h2 hn =>
    rw [List.mem_singleton.1 hid']
    exact ⟨h2, _, hn⟩
  | step h2 hn _ _ ih =>
    rcases List.mem_cons.1 hid' with rfl | hid'
    · exact ⟨h2, _, hn⟩
    · exact ih hid'

/-- From each node that is passed to the next the id goes down and the variable up. -/
theorem Course.pairwise (hd : d.Grounded) (h : d.Course choose id ids stop) :
    ids.Pairwise fun id id' => id'.toIndex < id.toIndex ∧
      ∀ node node', d.nodes[id.toIndex]? = some node → d.nodes[id'.toIndex]? = some node' →
        node.var < node'.var := by
  induction h with
  | leaf b => exact .nil
  | stuck => exact List.pairwise_singleton _ _
  | @step id node b ids stop h2 hn _ hrest ih =>
    refine .cons (fun id' hid' => ?_) ih
    obtain ⟨-, node', hn'⟩ := hrest.decision hid'
    obtain ⟨hlt, hvar⟩ := hrest.lt_of_mem hd h2 hn hid' hn'
    refine ⟨hlt, fun node₁ node₂ hn₁ hn₂ => ?_⟩
    obtain rfl := Option.some.inj (hn.symm.trans hn₁)
    obtain rfl := Option.some.inj (hn'.symm.trans hn₂)
    exact Variable.lt_iff.2 hvar

/-- There is a variable for each of the nodes that are passed. -/
theorem Course.length_le (hd : d.Grounded) (h : d.Course choose id ids stop)
    (hn : d.nodes[id.toIndex]? = some node) :
    node.var.toIndex + ids.length ≤ d.numVars.toNat := by
  induction h generalizing node with
  | leaf b => exact Nat.le_of_eq (congrArg Variable.toIndex (hd.var_ofBool b hn))
  | stuck h2 hn₀ =>
    obtain rfl := Option.some.inj (hn.symm.trans hn₀)
    exact UInt16.lt_iff_toNat_lt.1 (hd.fits h2 hn).var_lt
  | @step id node₀ b ids stop h2 hn₀ _ _ ih =>
    obtain rfl : node = node₀ := Option.some.inj (hn.symm.trans hn₀)
    obtain ⟨child, hchild, -, hup⟩ := hd.exists_child h2 hn b
    have hrest := ih hchild
    rw [List.length_cons]
    omega

/-- The ids are those of decision nodes, whose variables have names; from each to the next
the position in the table goes down and the variable comes later in the order; and there are
not more of them than variables. -/
structure Descends (d : Diagram) (ids : List NodeId) : Prop where
  /-- There is a node for each id, and a name for its variable. -/
  decision : ∀ id ∈ ids, 2 ≤ id.toIndex ∧ ∃ node name, d.node id = .ok node ∧
    node.var.index < d.numVars ∧ d.order.nameOf node.var = .ok name
  /-- The ids go down. -/
  ids_lt : ids.Pairwise fun id id' => id'.toIndex < id.toIndex
  /-- The variables go up. -/
  vars_lt : ids.Pairwise fun id id' => ∀ node node', d.node id = .ok node →
    d.node id' = .ok node' → node.var < node'.var
  /-- There are at most as many nodes as variables. -/
  length_le : ids.length ≤ d.numVars.toNat

theorem Course.descends (hd : d.Grounded) (h : d.Course choose d.root ids stop) :
    d.Descends ids where
  decision id hid := by
    obtain ⟨h2, node, hn⟩ := h.decision hid
    have hvar := (hd.fits h2 hn).var_lt
    obtain ⟨name, hname⟩ := VarOrder.exists_name hvar
    exact ⟨h2, node, name, node_eq_ok_iff.2 hn, hvar, readAt_eq_ok_iff.2 hname⟩
  ids_lt := (h.pairwise hd).imp fun h => h.1
  vars_lt := (h.pairwise hd).imp fun h node node' hn hn' =>
    h.2 node node' (node_eq_ok_iff.1 hn) (node_eq_ok_iff.1 hn')
  length_le := by
    have hroot := Array.getElem?_eq_getElem hd.root_lt
    have hle := h.length_le hd hroot
    omega

/-! ### Evaluation along a course -/

theorem Course.stop_cases (h : d.Course choose id ids stop) :
    (∃ b, stop = .leaf b) ∨ ∃ id' x, stop = .stuck id' x := by
  induction h with
  | leaf b => exact .inl ⟨b, rfl⟩
  | stuck => exact .inr ⟨_, _, rfl⟩
  | step _ _ _ _ ih => exact ih

/-- A walk is stuck at the last node that it passes, for whose variable there is no value. -/
theorem Course.of_stuck (h : d.Course choose id ids (.stuck id' x)) :
    id' ∈ ids ∧ 2 ≤ id'.toIndex ∧
      ∃ node, d.nodes[id'.toIndex]? = some node ∧ node.var = x ∧ choose x = none := by
  generalize hstop : Stop.stuck id' x = stop at h
  induction h with
  | leaf b => cases hstop
  | stuck h2 hn hc =>
    cases hstop
    exact ⟨List.mem_singleton_self _, h2, _, hn, rfl, hc⟩
  | step _ _ _ _ ih =>
    obtain ⟨hmem, hstuck⟩ := ih hstop
    exact ⟨List.mem_cons_of_mem _ hmem, hstuck⟩

/-- Only variables of the order are asked for. -/
theorem Course.var_lt_of_stuck (hd : d.Grounded) (h : d.Course choose id ids (.stuck id' x)) :
    x.index < d.numVars ∧ choose x = none := by
  obtain ⟨-, h2, node, hn, rfl, hnone⟩ := h.of_stuck
  exact ⟨(hd.fits h2 hn).var_lt, hnone⟩

/-- Under a valuation the value of the terminal where the walk stops is the result. -/
theorem Grounded.eval_of_leaf (hd : d.Grounded) {v : Valuation}
    (h : d.Course v.choice d.root ids (.leaf b)) : d.eval v = .ok b := by
  have hstop : (d.walkIn v d.root).stop = .leaf b := hd.stop_walk_eq h
  rw [eval, evalFrom, hstop]

/-- Under a valuation of all variables a walk stops at a terminal, and every value that it
asks for is there. -/
theorem Grounded.walkIn_descends (hd : d.Grounded) {v : Valuation}
    (hv : v.bits.size = d.numVars.toNat) :
    ∃ b, d.Course v.choice d.root (d.walkIn v d.root).visited (.leaf b) ∧
      d.Descends (d.walkIn v d.root).visited ∧
      (∀ id ∈ (d.walkIn v d.root).visited, ∀ node, d.node id = .ok node →
        ∃ value, v.value node.var = .ok value) ∧
      d.eval v = .ok b ∧ d.evalGuarded v = .ok b := by
  have hvalue : ∀ x : Variable, x.index < d.numVars → ∃ value, v.value x = .ok value := by
    intro x hx
    exact ⟨_, readAt_eq_ok (hv ▸ UInt16.lt_iff_toNat_lt.1 hx)⟩
  have hguard : v.numVars = d.numVars := by
    rw [Valuation.numVars, hv, UInt16.ofNat_toNat]
  have hcourse : d.Course v.choice d.root (d.walkIn v d.root).visited (d.walkIn v d.root).stop :=
    hd.course_walk v.choice
  rcases hcourse.stop_cases with ⟨b, hstop⟩ | ⟨id, x, hstop⟩
  · rw [hstop] at hcourse
    have heval := hd.eval_of_leaf hcourse
    refine ⟨b, hcourse, hcourse.descends hd, ?_, heval, ?_⟩
    · intro id hid node hnode
      obtain ⟨h2, -⟩ := hcourse.decision hid
      exact hvalue _ (hd.fits h2 (node_eq_ok_iff.1 hnode)).var_lt
    · rw [evalGuarded, if_pos hguard, heval]
  · rw [hstop] at hcourse
    obtain ⟨hx, hnone⟩ := hcourse.var_lt_of_stuck hd
    obtain ⟨value, hx⟩ := hvalue x hx
    rw [Valuation.choice, Valuation.value_eq_ok_iff.1 hx] at hnone
    cases hnone

/-! ### Values by name -/

section Named

variable {α : Type u} [Assignment α] {a : α}

/-- Under an assignment the value of the terminal where the walk stops is the result. -/
theorem Grounded.evalNamed_of_leaf (hd : d.Grounded)
    (h : d.Course (d.order.choice a) d.root ids (.leaf b)) : d.evalNamed a = .ok b := by
  have hstop : (d.walkNamed a).stop = .leaf b := hd.stop_walk_eq h
  rw [evalNamed, hstop]

/-- Where the walk is stuck the name of the variable has no value, and it is reported. -/
theorem Grounded.evalNamed_of_stuck (hd : d.Grounded)
    (h : d.Course (d.order.choice a) d.root ids (.stuck id x)) :
    ∃ name, d.order.names[x.toIndex]? = some name ∧ valueOf a name = none ∧
      d.evalNamed a = .error (.input (.missingVariable name)) := by
  have hstop : (d.walkNamed a).stop = .stuck id x := hd.stop_walk_eq h
  obtain ⟨hx, hnone⟩ := h.var_lt_of_stuck hd
  obtain ⟨name, hname⟩ := VarOrder.exists_name hx
  rw [VarOrder.choice_eq hname] at hnone
  have hnameOf : d.order.nameOf x = .ok name := readAt_eq_ok_iff.2 hname
  refine ⟨name, hname, hnone, ?_⟩
  rw [evalNamed, hstop]
  simp only [hnameOf]
  rfl

/-- Under an assignment a walk stops at a terminal or at a node whose variable has a name
without a value, which is reported. -/
theorem Grounded.walkNamed_descends (hd : d.Grounded) (a : α) :
    d.Descends (d.walkNamed a).visited ∧
      ((∃ b, d.Course (d.order.choice a) d.root (d.walkNamed a).visited (.leaf b) ∧
          d.evalNamed a = .ok b) ∨
        ∃ id x name,
          d.Course (d.order.choice a) d.root (d.walkNamed a).visited (.stuck id x) ∧
          d.order.names[x.toIndex]? = some name ∧ valueOf a name = none ∧
          d.evalNamed a = .error (.input (.missingVariable name))) := by
  have hcourse : d.Course (d.order.choice a) d.root (d.walkNamed a).visited
      (d.walkNamed a).stop := hd.course_walk (d.order.choice a)
  refine ⟨hcourse.descends hd, ?_⟩
  rcases hcourse.stop_cases with ⟨b, hstop⟩ | ⟨id, x, hstop⟩
  · rw [hstop] at hcourse
    exact .inl ⟨b, hcourse, hd.evalNamed_of_leaf hcourse⟩
  · rw [hstop] at hcourse
    obtain ⟨name, hname, hnone, heval⟩ := hd.evalNamed_of_stuck hcourse
    exact .inr ⟨id, x, name, hcourse, hname, hnone, heval⟩

/-- Diagrams that were read or compiled are safe to evaluate. Walks go down the table and
along the order, read only what is there, and pass at most as many decision nodes as there
are variables. Under a valuation of all variables they stop at a terminal; under a named
assignment they may also stop at a variable without a value, whose name is reported. -/
theorem Obtained.walks_descend (h : d.Obtained) :
    (∀ v : Valuation, v.bits.size = d.numVars.toNat →
      ∃ b, d.Course v.choice d.root (d.walkIn v d.root).visited (.leaf b) ∧
        d.Descends (d.walkIn v d.root).visited ∧
        (∀ id ∈ (d.walkIn v d.root).visited, ∀ node, d.node id = .ok node →
          ∃ value, v.value node.var = .ok value) ∧
        d.eval v = .ok b ∧ d.evalGuarded v = .ok b) ∧
      ∀ a : α,
        d.Descends (d.walkNamed a).visited ∧
        ((∃ b, d.Course (d.order.choice a) d.root (d.walkNamed a).visited (.leaf b) ∧
            d.evalNamed a = .ok b) ∨
          ∃ id x name,
            d.Course (d.order.choice a) d.root (d.walkNamed a).visited (.stuck id x) ∧
            d.order.names[x.toIndex]? = some name ∧ valueOf a name = none ∧
            d.evalNamed a = .error (.input (.missingVariable name))) :=
  ⟨fun _ => h.grounded.walkIn_descends, h.grounded.walkNamed_descends⟩

end Named

theorem walks_descend_either :
    (∃ b, either.Descends [.ofIndex 3, .ofIndex 2] ∧ either.eval ⟨#[false, true]⟩ = .ok b) ∧
      ∃ name, either.evalNamed [("a", false)] = .error (.input (.missingVariable name)) := by
  obtain ⟨hin, hnamed⟩ := Obtained.walks_descend (α := List (String × Bool)) obtained_either
  constructor
  · obtain ⟨b, -, hdescends, -, heval, -⟩ := hin ⟨#[false, true]⟩ rfl
    have hvisited : (either.walkIn ⟨#[false, true]⟩ either.root).visited =
        [.ofIndex 3, .ofIndex 2] := by decide
    rw [hvisited] at hdescends
    exact ⟨b, hdescends, heval⟩
  · have hstuck : ∀ b, either.evalNamed [("a", false)] ≠ .ok b := by decide
    obtain ⟨-, ⟨b, -, heval⟩ | ⟨_, _, name, -, -, -, heval⟩⟩ := hnamed [("a", false)]
    · exact absurd heval (hstuck b)
    · exact ⟨name, heval⟩

end Diagram

end DecisionDiagram
