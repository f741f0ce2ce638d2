import DecisionDiagram.Proofs.Cube.Agreement
import DecisionDiagram.Proofs.Cube.Tight
import DecisionDiagram.Proofs.Diagram.Points

/-!
# Refinement is inclusion of completions

A cube refines another if it fixes all that the other one fixes, to the same values.  The test
compares cells.  What it says is that every completion of the first cube completes the
second, over any number of variables that is enough for both.  If the cubes do not clash then
they have a common completion, so that every failure of the test shows in some valuation.
-/

namespace DecisionDiagram

namespace Cube

variable {c d e c' d' : Cube} {n k : Nat} {x : Variable} {b : Bool} {v : Valuation} {σ : Point}

/-! ### Refinement seen through the cells -/

theorem refines_iff : c.refines d = true ↔ ∀ x b, d.get? x = some b → c.get? x = some b := by
  rw [refines, List.all_eq_true]
  constructor
  · intro h x b hb
    simpa using h (x, b) (mem_toValues.2 hb)
  · rintro h ⟨x, b⟩ hp
    simpa using h x b (mem_toValues.1 hp)

theorem refines_refl (c : Cube) : c.refines c = true := refines_iff.2 fun _ _ hb => hb

theorem refines_trans (h : c.refines d = true) (h' : d.refines e = true) : c.refines e = true :=
  refines_iff.2 fun x b hb => refines_iff.1 h x b (refines_iff.1 h' x b hb)

/-- Cubes that refine each other fix the same values. -/
theorem refines_and_refines_iff :
    c.refines d = true ∧ d.refines c = true ↔ ∀ x, c.get? x = d.get? x := by
  rw [refines_iff, refines_iff]
  constructor
  · rintro ⟨hcd, hdc⟩ x
    exact Option.ext fun b => ⟨hdc x b, hcd x b⟩
  · intro h
    exact ⟨fun x b hb => (h x).trans hb, fun x b hb => (h x).symm.trans hb⟩

/-- Refinement depends on the fixed values only. -/
theorem refines_congr (hc : ∀ x, c.get? x = c'.get? x) (hd : ∀ x, d.get? x = d'.get? x) :
    c.refines d = c'.refines d' := by
  rw [Bool.eq_iff_iff, refines_iff, refines_iff]
  simp only [hc, hd]

/-- Free cells at the end fix nothing. -/
theorem get?_of_cells_append (h : d.cells = c.cells ++ Array.replicate k none) (x : Variable) :
    d.get? x = c.get? x := by
  rw [get?, get?, h, Array.getElem?_append]
  split
  · rfl
  · next hx =>
    rw [Array.getElem?_eq_none (Nat.le_of_not_lt hx), Array.getElem?_replicate]
    split <;> rfl

/-! ### Completions -/

theorem below_size (c : Cube) : c.Below c.cells.size := fun _ => lt_size_of_fixes

theorem Below.mono {m : Nat} (h : c.Below n) (hm : n ≤ m) : c.Below m :=
  fun x hx => Nat.lt_of_lt_of_le (h x hx) hm

theorem Below.set (h : c.Below n) (hx : x.toIndex < n) (b : Bool) : (c.set x b).Below n := by
  intro y hy
  rw [fixes, get?_set] at hy
  split at hy
  · next hyx => exact hyx ▸ hx
  · exact h y hy

theorem Below.completes_ofPoint (h : c.Below n) (hσ : c.AgreesFrom 0 σ) :
    (Valuation.ofPoint n σ).Completes c := by
  rw [completes_iff_agreesFrom (by rwa [Valuation.size_ofPoint])]
  intro x b hx hb
  rw [Valuation.point_ofPoint (h.toIndex_lt hb)]
  exact hσ x b hx hb

/-- The values of the first cube, and where it is free those of the second. -/
def joint (c d : Cube) : Point := fun x => ((c.get? x).or (d.get? x)).getD false

theorem agreesFrom_joint_left (c d : Cube) : c.AgreesFrom 0 (c.joint d) := by
  intro x b _ hb
  simp [joint, hb]

theorem agreesFrom_joint_right (h : ¬c.Clashes d) : d.AgreesFrom 0 (c.joint d) := by
  intro x b _ hb
  cases hc : c.get? x with
  | none => simp [joint, hc, hb]
  | some b' =>
    have hne : b ≠ !b' := by
      rintro rfl
      exact h ⟨x, b', hc, hb⟩
    obtain rfl : b = b' := by simpa [Bool.eq_not] using hne
    simp [joint, hc]

theorem completes_of_refines (h : c.refines d = true) (hv : v.Completes c) : v.Completes d :=
  fun x b hb => hv x b (refines_iff.1 h x b hb)

/-- A value that is not fixed can be chosen the other way. -/
theorem refines_set_not (h : c.get? x ≠ some b) : (c.set x !b).refines c = true := by
  rw [refines_iff]
  intro y b' hb'
  rw [get?_set]
  split
  · next hy =>
    rw [hy] at hb'
    have hne : b' ≠ b := by
      rintro rfl
      exact h hb'
    rw [Bool.eq_not.2 hne]
  · exact hb'

theorem refines_iff_completes (hc : c.Below n) (hd : d.Below n) :
    c.refines d = true ↔
      ∀ v : Valuation, v.bits.size = n → v.Completes c → v.Completes d := by
  constructor
  · intro h v _
    exact completes_of_refines h
  · intro h
    rw [refines_iff]
    intro x b hb
    refine Classical.byContradiction fun hne => ?_
    -- Some completion of `c` has the other value at `x`.
    have hset := hc.set (hd.toIndex_lt hb) !b
    have hv := hset.completes_ofPoint (agreesFrom_joint_left (c.set x !b) ∅)
    have hbit := h _ Valuation.size_ofPoint (completes_of_refines (refines_set_not hne) hv) x b hb
    have hbit' := hv x (!b) (by rw [get?_set, if_pos rfl])
    rw [hbit, Option.some_inj] at hbit'
    exact Bool.eq_not.1 hbit' rfl

theorem clashes_iff_completes (hc : c.Below n) (hd : d.Below n) :
    c.Clashes d ↔
      ¬∃ v : Valuation, v.bits.size = n ∧ v.Completes c ∧ v.Completes d := by
  constructor
  · rintro h ⟨v, -, hv, hv'⟩
    exact h.not_completes hv hv'
  · intro h
    refine Classical.byContradiction fun hnot => h ?_
    have hv := hc.completes_ofPoint (agreesFrom_joint_left c d)
    have hv' := hd.completes_ofPoint (agreesFrom_joint_right hnot)
    exact ⟨_, Valuation.size_ofPoint, hv, hv'⟩

/-- Over any number of variables that is enough for both cubes, the tests for completion
deliver answers, the first cube refines the second exactly if each of its completions completes
the second, and the cubes clash exactly if they have no common completion. So refinement is a
preorder.  Cubes refine each other if they fix the same values, and free cells at the end of
either cube make no difference. -/
theorem refines_inclusion (p q : Cube) :
    (∀ n : Nat, p.Below n → q.Below n →
      (∀ v : Valuation, v.bits.size = n →
        (∃ r, v.completes p = .ok r) ∧ ∃ r, v.completes q = .ok r) ∧
      (p.refines q = true ↔ ∀ v : Valuation, v.bits.size = n →
        v.completes p = .ok true → v.completes q = .ok true) ∧
      ((∃ x b, p.get? x = some b ∧ q.get? x = some !b) ↔
        ¬∃ v : Valuation, v.bits.size = n ∧
          v.completes p = .ok true ∧ v.completes q = .ok true)) ∧
    p.refines p = true ∧
    (∀ r : Cube, p.refines q = true → q.refines r = true → p.refines r = true) ∧
    (p.refines q = true ∧ q.refines p = true ↔ ∀ x, p.get? x = q.get? x) ∧
    ∀ (p' q' : Cube) (j k : Nat), p'.cells = p.cells ++ Array.replicate j none →
      q'.cells = q.cells ++ Array.replicate k none → p'.refines q' = p.refines q := by
  refine ⟨?_, p.refines_refl, fun r => refines_trans, refines_and_refines_iff, ?_⟩
  · intro n hp hq
    have htest : ∀ {c : Cube}, c.Below n → ∀ v : Valuation, v.bits.size = n →
        (v.Completes c ↔ v.completes c = .ok true) := by
      rintro c hc v rfl
      exact hc.completes_iff
    refine ⟨?_, ?_, ?_⟩
    · rintro v rfl
      exact ⟨⟨_, hp.completes_eq_ok⟩, ⟨_, hq.completes_eq_ok⟩⟩
    · rw [refines_iff_completes hp hq]
      refine forall₂_congr fun v hv => ?_
      rw [htest hp v hv, htest hq v hv]
    · refine (clashes_iff_completes hp hq).trans (not_congr (exists_congr fun v => ?_))
      refine and_congr_right fun hv => ?_
      rw [htest hp v hv, htest hq v hv]
  · intro p' q' j k hp' hq'
    exact refines_congr (get?_of_cells_append hp') (get?_of_cells_append hq')

/-- A cube that fixes two variables. -/
def wide : Cube := ofValues [(⟨0⟩, true), (⟨2⟩, false)]

/-- A cube that fixes one of them, with cells for more. -/
def narrow : Cube := (ofValues [(⟨2⟩, false)]).unset ⟨5⟩

/-- The wider cube refines the narrower one, and over six variables the completions say so;
one of them tells the cubes apart. -/
theorem refines_inclusion_narrow :
    wide.Below 6 ∧ narrow.Below 6 ∧ wide.refines narrow = true ∧
    (∀ v : Valuation, v.bits.size = 6 →
      v.completes wide = .ok true → v.completes narrow = .ok true) ∧
    narrow.refines wide = false ∧
    ¬∀ v : Valuation, v.bits.size = 6 →
      v.completes narrow = .ok true → v.completes wide = .ok true := by
  have hwide : wide.Below 6 := wide.below_size.mono (by decide)
  have hnarrow : narrow.Below 6 := narrow.below_size.mono (by decide)
  have hrefines : wide.refines narrow = true := by decide
  have hfails : narrow.refines wide = false := by decide
  obtain ⟨hincluded, -⟩ := refines_inclusion wide narrow
  obtain ⟨hexceeds, -⟩ := refines_inclusion narrow wide
  obtain ⟨-, hiff, -⟩ := hincluded 6 hwide hnarrow
  obtain ⟨-, hiff', -⟩ := hexceeds 6 hnarrow hwide
  refine ⟨hwide, hnarrow, hrefines, hiff.1 hrefines, hfails, ?_⟩
  rw [← hiff', hfails]
  exact Bool.false_ne_true

end Cube

end DecisionDiagram
