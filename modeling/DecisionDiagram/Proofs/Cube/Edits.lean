import DecisionDiagram.Proofs.Cube.Agreement
import DecisionDiagram.Proofs.Cube.Tight
import DecisionDiagram.Proofs.Diagram.Routes
import Mathlib.Data.List.Basic

/-!
# Cubes as finite maps

A cube is edited by fixing and freeing variables, in any order and as often as one likes.  Each
variable has the value of its last edit.  The list of the fixed values tells all that can be
read from a cube, and the cube that is made again from this list is its normal form: it has
lost the free cells at the end, and nothing else.
-/

namespace DecisionDiagram

/-- A change of one cell. -/
inductive Edit
  /-- The variable is fixed to a value. -/
  | set (x : Variable) (value : Bool)
  /-- The variable is freed. -/
  | unset (x : Variable)
  deriving DecidableEq

namespace Edit

/-- The variable whose cell is changed. -/
def var : Edit → Variable
  | set x _ => x
  | unset x => x

/-- What the cell holds afterwards. -/
def value? : Edit → Option Bool
  | set _ value => some value
  | unset _ => none

end Edit

namespace Cube

variable {c d : Cube} {x : Variable} {b : Bool} {n : Nat}

/-! ### Edits -/

/-- Carries out one edit. -/
def edit (c : Cube) : Edit → Cube
  | .set x value => c.set x value
  | .unset x => c.unset x

/-- The cube that some edits make of the empty cube. -/
def edited (edits : List Edit) : Cube := edits.foldl edit ∅

theorem get?_edit (e : Edit) : (c.edit e).get? x = if x = e.var then e.value? else c.get? x := by
  cases e with
  | set y value => exact get?_set value
  | unset y => exact get?_unset

theorem edited_concat (edits : List Edit) (e : Edit) :
    edited (edits ++ [e]) = (edited edits).edit e := by
  simp [edited, List.foldl_append]

/-- The last edit of a variable, found by a search from the end, decides its value. -/
theorem get?_edited (edits : List Edit) (x : Variable) :
    (edited edits).get? x = (edits.reverse.find? fun e => e.var = x).bind Edit.value? := by
  induction edits using List.reverseRecOn with
  | nil => exact get?_empty
  | append_singleton edits last ih =>
    rw [edited_concat, get?_edit, List.reverse_concat, List.find?_cons, ih]
    by_cases hlast : last.var = x
    · simp [hlast]
    · simp [hlast, Ne.symm hlast]

/-- A variable has the value to which it was last fixed, if it was not edited after that. -/
theorem get?_edited_iff {edits : List Edit} :
    (edited edits).get? x = some b ↔ ∃ before after,
      edits = before ++ .set x b :: after ∧ ∀ e ∈ after, e.var ≠ x := by
  rw [get?_edited, Option.bind_eq_some_iff]
  constructor
  · rintro ⟨e, hfind, hvalue⟩
    obtain ⟨hvar, later, earlier, hsplit, hlater⟩ := List.find?_eq_some_iff_append.1 hfind
    obtain rfl : e = .set x b := by
      cases e with
      | set y value =>
        cases of_decide_eq_true hvar
        cases hvalue
        rfl
      | unset y => cases hvalue
    refine ⟨earlier.reverse, later.reverse, ?_, ?_⟩
    · rw [← edits.reverse_reverse, hsplit]
      simp
    · intro e he
      simpa using hlater e (List.mem_reverse.1 he)
  · rintro ⟨before, after, rfl, hafter⟩
    refine ⟨.set x b, List.find?_eq_some_iff_append.2 ⟨by simp [Edit.var], ?_⟩, rfl⟩
    refine ⟨after.reverse, before.reverse, by simp, fun e he => ?_⟩
    simpa using hafter e (List.mem_reverse.1 he)

/-! ### The list of the fixed values -/

/-- The positions in the list are the positions of the cells. -/
theorem map_toIndex_toValues (c : Cube) :
    c.toValues.map (fun p => (p.1.toIndex, p.2)) =
      c.cells.toList.zipIdx.filterMap fun p => p.1.map (p.2, ·) := by
  rw [toValues, List.map_filterMap]
  refine List.filterMap_congr ?_
  rintro ⟨cell, i⟩ hmem
  have hi : i < 65536 := by
    have hlt := (List.getElem?_eq_some_iff.1 (List.mem_zipIdx_iff_getElem?.1 hmem)).1
    exact Nat.lt_of_lt_of_le hlt c.size_le
  cases cell with
  | none => rfl
  | some b => simp [Variable.toIndex_atIndex hi]

theorem sorted_positions (c : Cube) : (c.toValues.map fun p => p.1.toIndex).Pairwise (· < ·) := by
  have hcells : (c.cells.toList.zipIdx.map Prod.snd).Pairwise (· < ·) := by
    rw [List.zipIdx_map_snd]
    exact List.pairwise_lt_range'
  have hpositions : (c.toValues.map fun p => (p.1.toIndex, p.2)).Pairwise
      fun p q => p.1 < q.1 := by
    rw [map_toIndex_toValues, List.pairwise_filterMap]
    refine (List.pairwise_map.1 hcells).imp fun {a a'} hlt p hp q hq => ?_
    obtain ⟨b, -, rfl⟩ := Option.map_eq_some_iff.1 hp
    obtain ⟨b', -, rfl⟩ := Option.map_eq_some_iff.1 hq
    exact hlt
  rw [List.pairwise_map] at hpositions ⊢
  exact hpositions

theorem sorted_toValues (c : Cube) : c.toValues.Pairwise fun p q => p.1 < q.1 :=
  (List.pairwise_map.1 c.sorted_positions).imp Variable.lt_iff.2

theorem card_eq_length (c : Cube) : c.card = c.toValues.length := by
  rw [card, toValues, List.length_filterMap_eq_countP, ← Array.countP_toList]
  rw [← List.zipIdx_map_fst 0 c.cells.toList, List.countP_map]
  simp [Function.comp_def]

theorem isEmpty_eq (c : Cube) : c.isEmpty = c.toValues.isEmpty := by
  rw [Bool.eq_iff_iff, List.isEmpty_iff_length_eq_zero, ← card_eq_length, isEmpty, card,
    Array.countP_eq_zero, Array.all_eq_true']
  simp

theorem exists_mem_toValues_iff : (∃ b, (x, b) ∈ c.toValues) ↔ c.fixes x := by
  simp only [mem_toValues, fixes, Option.isSome_iff_exists]

/-- The last fixed variable is the last one of the list. -/
theorem lastFixed?_eq (c : Cube) : c.lastFixed? = c.toValues.getLast?.map Prod.fst := by
  cases hlist : c.toValues.getLast? with
  | none =>
    rw [Option.map_none, lastFixed?_eq_none_iff]
    intro x hx
    obtain ⟨b, hb⟩ := exists_mem_toValues_iff.2 hx
    rw [List.getLast?_eq_none_iff.1 hlist] at hb
    cases hb
  | some p =>
    obtain ⟨init, hinit⟩ := List.getLast?_eq_some_iff.1 hlist
    have hp : c.fixes p.1 := exists_mem_toValues_iff.1 ⟨p.2, by simp [hinit]⟩
    cases hlast : c.lastFixed? with
    | none => exact absurd hp (lastFixed?_eq_none_iff.1 hlast p.1)
    | some y =>
      obtain ⟨hy, hlater⟩ := fixes_of_lastFixed?_eq_some hlast
      obtain ⟨b, hb⟩ := exists_mem_toValues_iff.2 hy
      have hsorted := c.sorted_toValues
      rw [hinit, List.pairwise_append] at hsorted
      rw [hinit, List.mem_append, List.mem_singleton] at hb
      rcases hb with hb | rfl
      · exact absurd hp (hlater p.1 (hsorted.2.2 _ hb p (by simp)))
      · rfl

/-! ### The normal form -/

theorem tight_ofValues (values : List (Variable × Bool)) : (ofValues values).Tight := by
  induction values using List.reverseRecOn with
  | nil => exact tight_empty
  | append_singleton values p ih =>
    rw [ofValues, List.foldl_concat]
    exact ih.set p.1 p.2

theorem get?_ofValues_toValues (c : Cube) (x : Variable) :
    (ofValues c.toValues).get? x = c.get? x :=
  Option.ext fun _ => (Route.get?_ofValues c.sorted_toValues).trans mem_toValues

/-- A tight cube has no cells, or its last cell is fixed. -/
theorem tight_iff : c.Tight ↔ c.cells = #[] ∨ ∃ b, c.cells.back? = some (some b) := by
  have hindex : ∀ {i : Nat}, i < c.cells.size → (Variable.atIndex i).toIndex = i := fun hi =>
    Variable.toIndex_atIndex (Nat.lt_of_lt_of_le hi c.size_le)
  rw [Array.back?_eq_getElem?]
  constructor
  · intro h
    by_cases hempty : c.cells.size = 0
    · exact .inl (Array.eq_empty_of_size_eq_zero hempty)
    -- If the last cell were free, then one cell less would do.
    have hlast : c.fixes (.atIndex (c.cells.size - 1)) := by
      refine Classical.byContradiction fun hfree => ?_
      have hle := h (c.cells.size - 1) fun v hv => by
        have hlt := lt_size_of_fixes hv
        have hne : v.toIndex ≠ c.cells.size - 1 := by
          intro hv'
          rw [← hv', Variable.atIndex_toIndex] at hfree
          exact hfree hv
        omega
      omega
    obtain ⟨b, hb⟩ := Option.isSome_iff_exists.1 hlast
    rw [get?, hindex (by omega), Option.join_eq_some_iff] at hb
    exact .inr ⟨b, hb⟩
  · rintro (hempty | ⟨b, hb⟩) bound hbound
    · rw [hempty]
      exact Nat.zero_le bound
    · have hlt := (Array.getElem?_eq_some_iff.1 hb).1
      have hfix := hbound (.atIndex (c.cells.size - 1)) (by simp [fixes, get?, hindex hlt, hb])
      rw [hindex hlt] at hfix
      omega

/-- The normal form of a tight cube is the cube itself. -/
theorem ofValues_toValues_eq_self_iff : ofValues c.toValues = c ↔ c.Tight := by
  constructor
  · intro h
    rw [← h]
    exact tight_ofValues _
  · intro h
    exact (tight_ofValues _).ext h c.get?_ofValues_toValues

/-- Two cubes have the same normal form exactly if they fix the same values. -/
theorem ofValues_toValues_inj :
    ofValues c.toValues = ofValues d.toValues ↔ ∀ x, c.get? x = d.get? x := by
  constructor
  · intro h x
    rw [← get?_ofValues_toValues c, h, get?_ofValues_toValues]
  · intro h
    refine (tight_ofValues _).ext (tight_ofValues _) fun x => ?_
    rw [get?_ofValues_toValues, get?_ofValues_toValues, h]

/-- After any edits each variable of a cube has the value to which it was last fixed, unless it
was freed since.  The list of the fixed values has one entry for each fixed variable, in the
order of the variables and with the true positions of the cells; it is as long as there are
fixed variables, it is empty if there are none, and the last of them is its last. The cube made
again from the list has the same values everywhere and comes out the same when it is made
again once more. For two cubes it is the same exactly if they have the same values
everywhere. It is the cube itself exactly if this has no cells or ends in a fixed one. -/
theorem edited_normal_form {edits : List Edit} {c : Cube} (hc : edited edits = c) :
    (∀ x b, c.get? x = some b ↔ ∃ before after,
      edits = before ++ .set x b :: after ∧ ∀ e ∈ after, e.var ≠ x) ∧
    (∀ x b, (x, b) ∈ c.toValues ↔ c.get? x = some b) ∧
    (c.toValues.map fun p => p.1.toIndex).Pairwise (· < ·) ∧
    c.toValues.map (fun p => (p.1.toIndex, p.2)) =
      c.cells.toList.zipIdx.filterMap (fun p => p.1.map (p.2, ·)) ∧
    c.card = c.toValues.length ∧
    c.isEmpty = c.toValues.isEmpty ∧
    c.lastFixed? = c.toValues.getLast?.map Prod.fst ∧
    (∀ x, (ofValues c.toValues).get? x = c.get? x) ∧
    ofValues (ofValues c.toValues).toValues = ofValues c.toValues ∧
    (∀ d : Cube, ofValues c.toValues = ofValues d.toValues ↔ ∀ x, c.get? x = d.get? x) ∧
    (ofValues c.toValues = c ↔ c.cells = #[] ∨ ∃ b, c.cells.back? = some (some b)) := by
  subst hc
  refine ⟨fun x b => get?_edited_iff, fun x b => mem_toValues, sorted_positions _,
    map_toIndex_toValues _, card_eq_length _, isEmpty_eq _, lastFixed?_eq _,
    get?_ofValues_toValues _, ?_, fun d => ofValues_toValues_inj, ?_⟩
  · exact ofValues_toValues_eq_self_iff.2 (tight_ofValues _)
  · exact ofValues_toValues_eq_self_iff.trans tight_iff

/-- Edits that free a variable again, and one that was never fixed. -/
def untidy : List Edit :=
  [.set ⟨1⟩ true, .set ⟨5⟩ true, .set ⟨2⟩ true, .unset ⟨1⟩, .set ⟨2⟩ false, .unset ⟨7⟩]

theorem edited_normal_form_untidy : ∃ c, edited untidy = c ∧
    c.get? ⟨2⟩ = some false ∧ c.toValues = [(⟨2⟩, false), (⟨5⟩, true)] ∧ c.card = 2 ∧
    c.lastFixed? = some ⟨5⟩ ∧ ofValues c.toValues ≠ c ∧
    ofValues (ofValues c.toValues).toValues = ofValues c.toValues := by
  obtain ⟨hget, -, -, -, hcard, -, hlast, -, hagain, -, hself⟩ :=
    edited_normal_form (rfl : edited untidy = edited untidy)
  have hlist : (edited untidy).toValues = [(⟨2⟩, false), (⟨5⟩, true)] := by decide
  refine ⟨_, rfl, ?_, hlist, ?_, ?_, ?_, hagain⟩
  · have hafter : ∀ e ∈ [Edit.unset ⟨7⟩], e.var ≠ ⟨2⟩ := by decide
    exact (hget ⟨2⟩ false).2 ⟨untidy.take 4, [.unset ⟨7⟩], rfl, hafter⟩
  · rw [hcard, hlist]
    rfl
  · rw [hlast, hlist]
    rfl
  · rw [Ne, hself]
    decide

end Cube

end DecisionDiagram
