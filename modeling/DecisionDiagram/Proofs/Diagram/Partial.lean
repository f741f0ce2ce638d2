import DecisionDiagram.Proofs.Diagram.Course
import Mathlib.Logic.Function.Basic

/-!
# Evaluation under partial assignments

A named assignment need not give a value to every name.  If evaluation succeeds all the
same, its result holds under every extension, by name or by position.  If it fails, it
reports a name without a value; with any value for that name the walk goes on, and what is
reported next comes later in the order.  So the values that are needed can be supplied one
by one as they are asked for, at most one for each variable.
-/

namespace DecisionDiagram

open Assignment (valueOf)
open Function (update)

section

variable {α : Type u} {β : Type v} [Assignment α] [Assignment β]

/-- The second assignment gives every value that the first one gives. -/
def Assignment.Extends (a : α) (a' : β) : Prop :=
  ∀ (name : String) (value : Bool), valueOf a name = some value → valueOf a' name = some value

/-- The valuation has every value that the assignment gives to a name of the order. -/
def VarOrder.Agrees (o : VarOrder) (a : α) (v : Valuation) : Prop :=
  ∀ (x : Variable) (name : String) (value : Bool), o.names[x.toIndex]? = some name →
    valueOf a name = some value → v.bits[x.toIndex]? = some value

variable {o : VarOrder} {a : α} {a' : β} {x : Variable} {b : Bool}

theorem VarOrder.choice_eq_some_iff :
    o.choice a x = some b ↔ ∃ name, o.names[x.toIndex]? = some name ∧ valueOf a name = some b :=
  Option.bind_eq_some_iff

theorem Assignment.Extends.choice (h : Extends a a') (hc : o.choice a x = some b) :
    o.choice a' x = some b := by
  obtain ⟨name, hname, hvalue⟩ := VarOrder.choice_eq_some_iff.1 hc
  exact VarOrder.choice_eq_some_iff.2 ⟨name, hname, h name b hvalue⟩

theorem VarOrder.Agrees.choice {v : Valuation} (h : o.Agrees a v) (hc : o.choice a x = some b) :
    v.choice x = some b := by
  obtain ⟨name, hname, hvalue⟩ := choice_eq_some_iff.1 hc
  exact h x name b hname hvalue

/-- A valuation has the values of an assignment to all names of the order. -/
theorem VarOrder.exists_valuation (ha : ∀ name ∈ o.names, (valueOf a name).isSome) :
    ∃ v : Valuation, v.bits.size = o.numVars.toNat ∧
      ∀ (x : Variable) (name : String), o.names[x.toIndex]? = some name →
        v.bits[x.toIndex]? = valueOf a name := by
  refine ⟨⟨o.names.map fun name => (valueOf a name).getD false⟩, ?_, ?_⟩
  · rw [Array.size_map, toNat_numVars]
  · intro x name hname
    obtain ⟨value, hvalue⟩ := Option.isSome_iff_exists.1 (ha name (Array.mem_of_getElem? hname))
    rw [Array.getElem?_map, hname, Option.map_some, hvalue, Option.getD_some]

/-- A value for a name that had none extends the assignment. -/
theorem Assignment.extends_update {a : String → Option Bool} {name : String} (h : a name = none)
    (value : Option Bool) : Extends a (update a name value) := by
  intro name' value' hvalue
  have hne : name' ≠ name := by
    rintro rfl
    rw [show valueOf a name' = none from h] at hvalue
    cases hvalue
  exact (Function.update_of_ne hne _ _).trans hvalue

end

namespace Diagram

variable {d : Diagram} {choose choose' : Variable → Option Bool} {id id' id'' : NodeId}
  {node : Node} {ids ids' : List NodeId} {x y : Variable} {b : Bool}

/-! ### Walks with more values -/

/-- More values do not change the course of a walk to a terminal. -/
theorem Course.leaf_of_choice (h : d.Course choose id ids (.leaf b))
    (hc : ∀ x c, choose x = some c → choose' x = some c) : d.Course choose' id ids (.leaf b) := by
  generalize hstop : Stop.leaf b = stop at h ⊢
  induction h with
  | leaf c => exact .leaf c
  | stuck => cases hstop
  | step h2 hn hvalue _ ih => exact .step h2 hn (hc _ _ hvalue) (ih hstop)

/-- With a value for the variable at which it was stuck a walk goes on, and if it is stuck
again then at a later variable. -/
theorem Course.lt_of_choice (hd : d.Grounded) (h : d.Course choose id ids (.stuck id' x))
    (hc : ∀ x c, choose x = some c → choose' x = some c) (hx : (choose' x).isSome)
    (h' : d.Course choose' id ids' (.stuck id'' y)) : x < y := by
  generalize hstop : Stop.stuck id' x = stop at h
  induction h generalizing ids' with
  | leaf c => cases hstop
  | @stuck id node h2 hn _ =>
    cases hstop
    obtain ⟨c, hvalue⟩ := Option.isSome_iff_exists.1 hx
    rw [course_node_iff h2 hn, hvalue] at h'
    obtain ⟨rest, -, hrest⟩ := h'
    obtain ⟨hmem, -, node', hn', rfl, -⟩ := hrest.of_stuck
    exact Variable.lt_iff.2 (hrest.lt_of_mem hd h2 hn hmem hn').2
  | step h2 hn hvalue _ ih =>
    rw [course_node_iff h2 hn, hc _ _ hvalue] at h'
    obtain ⟨rest, -, hrest⟩ := h'
    exact ih hrest hstop

/-! ### Results and reports -/

section Named

variable {α : Type u} {β : Type v} [Assignment α] [Assignment β] {a : α} {a' : β}
  {name name' : String}

/-- A result comes from a walk to a terminal. -/
theorem Grounded.exists_leaf (hd : d.Grounded) (h : d.evalNamed a = .ok b) :
    ∃ ids, d.Course (d.order.choice a) d.root ids (.leaf b) := by
  obtain ⟨-, ⟨c, hcourse, heval⟩ | ⟨_, _, _, -, -, -, heval⟩⟩ := hd.walkNamed_descends a
  · obtain rfl := Except.ok.inj (heval.symm.trans h)
    exact ⟨_, hcourse⟩
  · rw [h] at heval
    cases heval

/-- A failure comes from a walk that is stuck at a variable whose name has no value. -/
theorem Grounded.exists_stuck (hd : d.Grounded) {e : Failure} (h : d.evalNamed a = .error e) :
    ∃ ids id x name, d.Course (d.order.choice a) d.root ids (.stuck id x) ∧
      d.order.names[x.toIndex]? = some name ∧ valueOf a name = none ∧
      e = .input (.missingVariable name) := by
  obtain ⟨-, ⟨c, -, heval⟩ | ⟨id, x, name, hcourse, hname, hnone, heval⟩⟩ :=
    hd.walkNamed_descends a
  · rw [h] at heval
    cases heval
  · exact ⟨_, id, x, name, hcourse, hname, hnone, Except.error.inj (h.symm.trans heval)⟩

/-- A result holds under every extension of the assignment. -/
theorem Grounded.evalNamed_of_extends (hd : d.Grounded) (h : d.evalNamed a = .ok b)
    (hext : Assignment.Extends a a') : d.evalNamed a' = .ok b := by
  obtain ⟨ids, hcourse⟩ := hd.exists_leaf h
  exact hd.evalNamed_of_leaf (hcourse.leaf_of_choice fun _ _ => hext.choice)

/-- A result is the value under every valuation that agrees with the assignment. -/
theorem Grounded.eval_of_agrees (hd : d.Grounded) (h : d.evalNamed a = .ok b) {v : Valuation}
    (hv : d.order.Agrees a v) : d.eval v = .ok b := by
  obtain ⟨ids, hcourse⟩ := hd.exists_leaf h
  exact hd.eval_of_leaf (hcourse.leaf_of_choice fun _ _ => hv.choice)

/-- With any value for the name that was reported, and all else kept, evaluation succeeds or
reports a later name. -/
theorem Grounded.evalNamed_after (hd : d.Grounded)
    (h : d.evalNamed a = .error (.input (.missingVariable name)))
    (hname : d.order.names[x.toIndex]? = some name) (hext : Assignment.Extends a a')
    (hsome : (valueOf a' name).isSome) :
    (∃ b, d.evalNamed a' = .ok b) ∨ ∃ y name', x < y ∧ d.order.names[y.toIndex]? = some name' ∧
      d.evalNamed a' = .error (.input (.missingVariable name')) := by
  obtain ⟨-, ⟨c, -, heval⟩ | ⟨id, y, name', hcourse', hname', -, heval⟩⟩ :=
    hd.walkNamed_descends a'
  · exact .inl ⟨c, heval⟩
  · obtain ⟨ids, id₀, x₀, name₀, hcourse, hname₀, -, he⟩ := hd.exists_stuck h
    cases he
    obtain rfl : x₀ = x := by
      rw [← VarOrder.lookup?_eq_some_iff] at hname hname₀
      exact Option.some.inj (hname₀.symm.trans hname)
    have hx : (d.order.choice a' x₀).isSome := by rwa [VarOrder.choice_eq hname]
    exact .inr ⟨y, name', hcourse.lt_of_choice hd (fun _ _ => hext.choice) hx hcourse',
      hname', heval⟩

/-- With a value for every name of the order evaluation succeeds, and its result is the
value under the valuation that has these values. -/
theorem Grounded.evalNamed_of_all (hd : d.Grounded)
    (ha : ∀ name ∈ d.order.names, (valueOf a name).isSome) :
    ∃ (v : Valuation) (b : Bool), v.bits.size = d.numVars.toNat ∧
      (∀ (x : Variable) (name : String), d.order.names[x.toIndex]? = some name →
        v.bits[x.toIndex]? = valueOf a name) ∧
      d.evalNamed a = .ok b ∧ d.eval v = .ok b := by
  obtain ⟨v, hsize, hbits⟩ := VarOrder.exists_valuation ha
  have hagrees : d.order.Agrees a v := fun x name value hname hvalue =>
    (hbits x name hname).trans hvalue
  obtain ⟨-, ⟨b, -, heval⟩ | ⟨_, x, name, -, hname, hnone, -⟩⟩ := hd.walkNamed_descends a
  · exact ⟨v, b, hsize, hbits, heval, hd.eval_of_agrees heval hagrees⟩
  · have hsome := ha name (Array.mem_of_getElem? hname)
    rw [hnone] at hsome
    cases hsome

end Named

/-! ### Supplying what is missing -/

/-- The second assignment comes from the first by as many additions, each of a value for the
name that evaluation reports. -/
inductive Supplied (d : Diagram) (a : String → Option Bool) :
    Nat → (String → Option Bool) → Prop
  /-- Nothing has been added. -/
  | start : d.Supplied a 0 a
  /-- A value for the name that is reported is added. -/
  | add {k : Nat} {a' : String → Option Bool} {name : String} (value : Bool) :
    d.Supplied a k a' → d.evalNamed a' = .error (.input (.missingVariable name)) →
    d.Supplied a (k + 1) (update a' name (some value))

section Supply

variable {a a' : String → Option Bool} {k : Nat}

/-- After some additions as many variables are behind the one whose name is reported. -/
theorem Supplied.le_of_missing (hd : d.Grounded) (h : d.Supplied a k a') {name : String}
    (hmissing : d.evalNamed a' = .error (.input (.missingVariable name))) :
    ∃ x : Variable, d.order.names[x.toIndex]? = some name ∧ a' name = none ∧ k ≤ x.toIndex := by
  induction h generalizing name with
  | start =>
    obtain ⟨-, -, x, name', -, hname, hnone, he⟩ := hd.exists_stuck hmissing
    cases he
    exact ⟨x, hname, hnone, Nat.zero_le _⟩
  | @add k a' name₀ value _ hmissing₀ ih =>
    obtain ⟨x, hx, hnone, hk⟩ := ih hmissing₀
    have hsome : (valueOf (update a' name₀ (some value)) name₀).isSome := by
      rw [show valueOf (update a' name₀ (some value)) name₀ = some value from
        Function.update_self _ _ _]
      rfl
    rcases hd.evalNamed_after hmissing₀ hx (Assignment.extends_update hnone _) hsome with
      ⟨b, heval⟩ | ⟨y, name', hlt, hy, heval⟩
    · rw [hmissing] at heval
      cases heval
    · obtain ⟨-, -, -, name'', -, -, hnone', he⟩ := hd.exists_stuck hmissing
      cases he
      rw [hmissing] at heval
      cases heval
      rw [Variable.lt_iff] at hlt
      exact ⟨y, hy, hnone', by omega⟩

/-- At most one value is added for each variable, and as long as evaluation fails any value
can be added for the name that it reports. -/
theorem Supplied.complete (hd : d.Grounded) (h : d.Supplied a k a') :
    k ≤ d.numVars.toNat ∧
      ((∃ b, d.evalNamed a' = .ok b) ∨
        ∃ name, d.evalNamed a' = .error (.input (.missingVariable name)) ∧
          ∀ value, d.Supplied a (k + 1) (update a' name (some value))) := by
  constructor
  · cases h with
    | start => exact Nat.zero_le _
    | add value h hmissing =>
      obtain ⟨x, hname, -, hk⟩ := h.le_of_missing hd hmissing
      have hlt := UInt16.lt_iff_toNat_lt.1 (VarOrder.toIndex_lt_numVars hname)
      exact Nat.lt_of_le_of_lt hk hlt
  · cases heval : d.evalNamed a' with
    | ok b => exact .inl ⟨b, rfl⟩
    | error e =>
      obtain ⟨-, -, x, name, -, -, -, rfl⟩ := hd.exists_stuck heval
      exact .inr ⟨name, rfl, fun value => h.add value heval⟩

end Supply

/-- Evaluation by name does not depend on what is missing. A result holds under every
valuation and every assignment that have the values given. A failure reports a name of the
order without a value; with a value for it evaluation succeeds or reports a later name, so
that supplying the reported names one by one ends with a result after at most as many values
as there are variables. With a value for every name of the order there is a result, the one
under the corresponding valuation. -/
theorem Obtained.evalNamed_partial {α : Type u} {β : Type v} [Assignment α] [Assignment β]
    (h : d.Obtained) (a : α) :
    (∀ b, d.evalNamed a = .ok b →
      (∀ v : Valuation, d.order.Agrees a v → d.eval v = .ok b) ∧
      ∀ a' : β, Assignment.Extends a a' → d.evalNamed a' = .ok b) ∧
    (∀ e, d.evalNamed a = .error e → ∃ (x : Variable) (name : String),
      e = .input (.missingVariable name) ∧ d.order.names[x.toIndex]? = some name ∧
      valueOf a name = none ∧
      ∀ a' : β, Assignment.Extends a a' → (valueOf a' name).isSome →
        (∃ b, d.evalNamed a' = .ok b) ∨ ∃ y name', x < y ∧
          d.order.names[y.toIndex]? = some name' ∧
          d.evalNamed a' = .error (.input (.missingVariable name'))) ∧
    (∀ k a', d.Supplied (valueOf a) k a' → k ≤ d.numVars.toNat ∧
      ((∃ b, d.evalNamed a' = .ok b) ∨
        ∃ name, d.evalNamed a' = .error (.input (.missingVariable name)) ∧
          ∀ value, d.Supplied (valueOf a) (k + 1) (update a' name (some value)))) ∧
    ((∀ name ∈ d.order.names, (valueOf a name).isSome) →
      ∃ (v : Valuation) (b : Bool), v.bits.size = d.numVars.toNat ∧
        (∀ (x : Variable) (name : String), d.order.names[x.toIndex]? = some name →
          v.bits[x.toIndex]? = valueOf a name) ∧
        d.evalNamed a = .ok b ∧ d.eval v = .ok b) := by
  have hd := h.grounded
  refine ⟨fun b heval => ?_, fun e heval => ?_, fun k a' => Supplied.complete hd,
    hd.evalNamed_of_all⟩
  · exact ⟨fun v => hd.eval_of_agrees heval, fun a' => hd.evalNamed_of_extends heval⟩
  · obtain ⟨-, -, x, name, -, hname, hnone, rfl⟩ := hd.exists_stuck heval
    exact ⟨x, name, rfl, hname, hnone, fun a' => hd.evalNamed_after heval hname⟩

theorem evalNamed_partial_either :
    (∀ v : Valuation, either.order.Agrees [("a", true)] v → either.eval v = .ok true) ∧
      (∃ name, either.evalNamed [("a", false)] = .error (.input (.missingVariable name)) ∧
        ∀ value, either.Supplied (valueOf [("a", false)]) 1
          (update (valueOf [("a", false)]) name (some value))) ∧
      ∃ (v : Valuation) (b : Bool), v.bits.size = 2 ∧
        either.evalNamed [("b", true), ("a", false)] = .ok b ∧ either.eval v = .ok b := by
  have hpartial := Obtained.evalNamed_partial (α := List (String × Bool))
    (β := List (String × Bool)) obtained_either
  refine ⟨?_, ?_, ?_⟩
  · obtain ⟨hok, -⟩ := hpartial [("a", true)]
    exact (hok true (by decide)).1
  · obtain ⟨-, -, hsupply, -⟩ := hpartial [("a", false)]
    have hfails : ∀ b, either.evalNamed (valueOf [("a", false)]) ≠ .ok b := by decide
    obtain ⟨-, ⟨b, heval⟩ | ⟨name, hmissing, hnext⟩⟩ := hsupply 0 _ .start
    · exact absurd heval (hfails b)
    · exact ⟨name, hmissing, hnext⟩
  · obtain ⟨-, -, -, hall⟩ := hpartial [("b", true), ("a", false)]
    obtain ⟨v, b, hsize, -, heval, hin⟩ := hall (by decide)
    exact ⟨v, b, hsize, heval, hin⟩

end Diagram

end DecisionDiagram
