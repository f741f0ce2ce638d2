import DecisionDiagram.Proofs.Diagram.Value

/-!
# Agreement with a cube

A point agrees with a cube if it has the fixed values.  For a valuation that is long
enough this is the same as to complete the cube, and the test for it delivers an answer.
Two cubes clash if they fix a variable to opposite values; then nothing completes both.
-/

namespace DecisionDiagram

variable {m : Nat} {n : UInt16} {c c' : Cube} {v : Valuation} {x : Variable} {b : Bool}

/-- The point has the values that the cube fixes from position `k` on. -/
def Cube.AgreesFrom (c : Cube) (k : Nat) (σ : Point) : Prop :=
  ∀ (x : Variable) (b : Bool), k ≤ x.toIndex → c.get? x = some b → σ x = b

/-- The variables that the cube fixes come before position `m`. -/
def Cube.Below (c : Cube) (m : Nat) : Prop := ∀ x : Variable, c.fixes x → x.toIndex < m

/-- The cubes fix some variable to opposite values. -/
def Cube.Clashes (c c' : Cube) : Prop := ∃ x b, c.get? x = some b ∧ c'.get? x = some !b

theorem Cube.mem_toValues : (x, b) ∈ c.toValues ↔ c.get? x = some b := by
  simp only [toValues, List.mem_filterMap, List.mem_zipIdx_iff_getElem?, Prod.exists,
    Array.getElem?_toList, Option.map_eq_some_iff, Prod.mk.injEq]
  constructor
  · rintro ⟨cell, i, hi, b', rfl, rfl, rfl⟩
    have hlt := (Array.getElem?_eq_some_iff.1 hi).1
    have := c.size_le
    rw [get?, Variable.toIndex_atIndex (by omega), hi]
    rfl
  · intro h
    rw [get?, Option.join_eq_some_iff] at h
    exact ⟨some b, x.toIndex, h, b, rfl, x.atIndex_toIndex, rfl⟩

theorem Cube.Below.toIndex_lt (h : c.Below m) (hb : c.get? x = some b) : x.toIndex < m :=
  h x (by simp [fixes, hb])

theorem Cube.Within.below (h : c.Within n) : c.Below n.toNat :=
  fun x hx => UInt16.lt_iff_toNat_lt.1 (h x hx)

theorem Cube.Within.toIndex_lt (h : c.Within n) (hb : c.get? x = some b) :
    x.toIndex < n.toNat :=
  h.below.toIndex_lt hb

theorem Cube.Below.completes_iff_agreesFrom (hc : c.Below v.bits.size) :
    v.Completes c ↔ c.AgreesFrom 0 v.point := by
  constructor
  · intro h x b _ hb
    have hbit := h x b hb
    rw [v.getElem?_eq_point (hc.toIndex_lt hb)] at hbit
    exact Option.some.inj hbit
  · intro h x b hb
    rw [v.getElem?_eq_point (hc.toIndex_lt hb), h x b (Nat.zero_le _) hb]

theorem Valuation.completes_iff_agreesFrom (hv : v.bits.size = n.toNat) (hc : c.Within n) :
    v.Completes c ↔ c.AgreesFrom 0 v.point :=
  Cube.Below.completes_iff_agreesFrom (hv ▸ hc.below)

/-- No valuation completes two cubes that clash. -/
theorem Cube.Clashes.not_completes (h : c.Clashes c') (hc : v.Completes c) : ¬v.Completes c' := by
  obtain ⟨x, b, hb, hb'⟩ := h
  intro hc'
  have hbits := (hc x b hb).symm.trans (hc' x _ hb')
  cases b <;> simp at hbits

/-! ### The test for completion -/

/-- Tests that all deliver a value are decided together by the conjunction. -/
theorem allM_ok {α ε : Type} {l : List α} {f : α → Except ε Bool} {g : α → Bool}
    (h : ∀ a ∈ l, f a = .ok (g a)) : l.allM f = .ok (l.all g) := by
  induction l with
  | nil => rfl
  | cons a l ih =>
    have hl := ih fun a' ha' => h a' (List.mem_cons_of_mem _ ha')
    rw [List.allM, h a (by simp), List.all_cons]
    cases g a with
    | false => rfl
    | true => exact hl

/-- The test for completion delivers an answer under valuations that are long enough. -/
theorem Cube.Below.completes_eq_ok (hc : c.Below v.bits.size) :
    v.completes c = .ok (c.toValues.all fun p => v.point p.1 == p.2) := by
  refine allM_ok fun (x, b) hp => ?_
  have hlt := hc.toIndex_lt (Cube.mem_toValues.1 hp)
  simp only [Valuation.value_eq_ok_iff.2 (v.getElem?_eq_point hlt)]
  rfl

/-- Under valuations that are long enough the test for completion is right. -/
theorem Cube.Below.completes_iff (hc : c.Below v.bits.size) :
    v.Completes c ↔ v.completes c = .ok true := by
  rw [hc.completes_eq_ok, hc.completes_iff_agreesFrom, Except.ok.injEq, List.all_eq_true]
  constructor
  · intro h p hp
    simpa using h p.1 p.2 (Nat.zero_le _) (Cube.mem_toValues.1 hp)
  · intro h x b _ hb
    simpa using h (x, b) (Cube.mem_toValues.2 hb)

/-- The test for completion delivers an answer under valuations of all variables. -/
theorem Valuation.completes_eq_ok (hv : v.bits.size = n.toNat) (hc : c.Within n) :
    v.completes c = .ok (c.toValues.all fun p => v.point p.1 == p.2) :=
  Cube.Below.completes_eq_ok (hv ▸ hc.below)

/-- Under valuations of all variables the test for completion is right. -/
theorem Valuation.completes_iff (hv : v.bits.size = n.toNat) (hc : c.Within n) :
    v.Completes c ↔ v.completes c = .ok true :=
  Cube.Below.completes_iff (hv ▸ hc.below)

end DecisionDiagram
