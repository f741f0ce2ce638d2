import DecisionDiagram.Completions
import DecisionDiagram.Proofs.Cube.Agreement
import Mathlib.Data.List.Nodup
import Mathlib.Data.Nat.Bitwise

/-!
# The completions of a cube

A cube with `m` free variables among the first `n` has `2 ^ m` completions, one for every
number below: the first free variable has its lowest binary digit.  The cursor counts up.
Its carry turns the completion of `k` into that of `k + 1` from the left, and while it
runs the digits behind it are still those of `k`.
-/

namespace DecisionDiagram

/-- Adding one reverses a binary digit exactly if all lower digits are ones. -/
theorem testBit_succ_eq_xor (k j : Nat) :
    (k + 1).testBit j = ((k.testBit j) ^^ decide (∀ i < j, k.testBit i = true)) := by
  induction j generalizing k with
  | zero =>
    rcases Nat.mod_two_eq_zero_or_one k with hk | hk <;>
      simp [Nat.testBit_zero, Nat.add_mod, hk]
  | succ j ih =>
    have hlower : (∀ i < j + 1, k.testBit i = true) ↔
        k % 2 = 1 ∧ ∀ i < j, (k / 2).testBit i = true := by
      rw [Nat.forall_lt_succ_left]
      simp [Nat.testBit_succ, Nat.testBit_zero]
    simp only [Nat.testBit_succ, hlower]
    rcases Nat.mod_two_eq_zero_or_one k with hk | hk
    · have hhalf : (k + 1) / 2 = k / 2 := by omega
      simp [hhalf, hk]
    · have hhalf : (k + 1) / 2 = k / 2 + 1 := by omega
      simp [hhalf, hk, ih]

/-- Numbers with `m` binary digits are equal if their digits are. -/
theorem eq_of_testBit_eq_of_lt {k k' m : Nat} (hk : k < 2 ^ m) (hk' : k' < 2 ^ m)
    (h : ∀ j < m, k.testBit j = k'.testBit j) : k = k' := by
  refine Nat.eq_of_testBit_eq fun j => ?_
  by_cases hj : j < m
  · exact h j hj
  · have hpow : 2 ^ m ≤ 2 ^ j := Nat.pow_le_pow_right (by decide) (Nat.le_of_not_lt hj)
    rw [Nat.testBit_lt_two_pow (Nat.lt_of_lt_of_le hk hpow),
      Nat.testBit_lt_two_pow (Nat.lt_of_lt_of_le hk' hpow)]

/-- The next number still has `m` digits exactly if one of the digits is zero. -/
theorem succ_lt_two_pow_iff {k m : Nat} (hk : k < 2 ^ m) :
    k + 1 < 2 ^ m ↔ ∃ j < m, k.testBit j = false := by
  constructor
  · intro hlt
    by_contra hones
    have hall : ∀ j, j < m → k.testBit j = true := by simpa using hones
    have hlast : k = 2 ^ m - 1 := by
      refine eq_of_testBit_eq_of_lt hk (by omega) fun j hj => ?_
      rw [hall j hj, Nat.testBit_two_pow_sub_one, decide_eq_true hj]
    omega
  · rintro ⟨j, hj, hzero⟩
    refine Nat.lt_of_le_of_ne hk fun hlast => ?_
    rw [Nat.eq_sub_of_add_eq hlast, Nat.testBit_two_pow_sub_one, decide_eq_true hj] at hzero
    cases hzero

namespace Cube

variable {c c' : Cube} {i j k k' n : Nat} {v : Valuation} {b : Bool}

/-- The number of free variables at the positions below `i`. -/
def freeBelow (c : Cube) (i : Nat) : Nat := (List.range i).countP fun j => !c.fixes (.atIndex j)

/-- The value at position `i` in the completion with number `k`. -/
def digit (c : Cube) (k i : Nat) : Bool := (c.get? (.atIndex i)).getD (k.testBit (c.freeBelow i))

/-- The completion over `n` variables in whose free variables the number `k` is written,
the lowest digit first. -/
def completion (c : Cube) (n k : Nat) : Valuation := ⟨(Array.range n).map (c.digit k)⟩

/-- All completions over `n` variables, in the order of counting. -/
def completions (c : Cube) (n : Nat) : List Valuation :=
  (List.range (2 ^ c.freeBelow n)).map (c.completion n)

/-! ### Free variables -/

theorem freeBelow_succ_of_fixes (h : c.fixes (.atIndex i)) :
    c.freeBelow (i + 1) = c.freeBelow i := by
  simp [freeBelow, List.range_succ, h]

theorem freeBelow_succ_of_not_fixes (h : ¬c.fixes (.atIndex i)) :
    c.freeBelow (i + 1) = c.freeBelow i + 1 := by
  simp [freeBelow, List.range_succ, h]

theorem freeBelow_mono (h : i ≤ j) : c.freeBelow i ≤ c.freeBelow j :=
  (List.range_sublist.2 h).countP_le

theorem freeBelow_lt (h : ¬c.fixes (.atIndex i)) (hij : i < j) :
    c.freeBelow i < c.freeBelow j := by
  have hle : c.freeBelow (i + 1) ≤ c.freeBelow j := freeBelow_mono hij
  rw [freeBelow_succ_of_not_fixes h] at hle
  exact hle

/-- Every number below the number of free variables counts those before one of them. -/
theorem exists_freeBelow_eq (h : j < c.freeBelow n) :
    ∃ i < n, ¬c.fixes (.atIndex i) ∧ c.freeBelow i = j := by
  induction n with
  | zero => cases h
  | succ n ih =>
    by_cases hfree : c.fixes (.atIndex n)
    · rw [freeBelow_succ_of_fixes hfree] at h
      obtain ⟨i, hi, hrest⟩ := ih h
      exact ⟨i, Nat.lt_succ_of_lt hi, hrest⟩
    · rw [freeBelow_succ_of_not_fixes hfree] at h
      rcases Nat.lt_succ_iff_lt_or_eq.1 h with hj | rfl
      · obtain ⟨i, hi, hrest⟩ := ih hj
        exact ⟨i, Nat.lt_succ_of_lt hi, hrest⟩
      · exact ⟨n, Nat.lt_succ_self n, hfree, rfl⟩

/-! ### Digits -/

theorem digit_of_fixes (h : c.fixes (.atIndex i)) (k k' : Nat) : c.digit k i = c.digit k' i := by
  obtain ⟨b, hb⟩ := Option.isSome_iff_exists.1 h
  simp [digit, hb]

theorem digit_of_not_fixes (h : ¬c.fixes (.atIndex i)) :
    c.digit k i = k.testBit (c.freeBelow i) := by
  have hnone : c.get? (.atIndex i) = none := by simpa [fixes] using h
  simp [digit, hnone]

@[simp] theorem size_completion : (c.completion n k).bits.size = n := by simp [completion]

theorem getElem?_completion (hi : i < n) : (c.completion n k).bits[i]? = some (c.digit k i) := by
  simp [completion, hi]

theorem completion_eq (h : ∀ j < v.bits.size, v.bits[j]? = some (c.digit k j)) :
    c.completion v.bits.size k = v := by
  refine congrArg Valuation.mk (Array.ext_getElem? fun j => ?_)
  by_cases hj : j < v.bits.size
  · rw [h j hj]
    exact getElem?_completion hj
  · simp [Nat.le_of_not_lt hj]

/-- Different numbers are written differently. -/
theorem completion_inj (hk : k < 2 ^ c.freeBelow n) (hk' : k' < 2 ^ c.freeBelow n)
    (h : c.completion n k = c.completion n k') : k = k' := by
  refine eq_of_testBit_eq_of_lt hk hk' fun j hj => ?_
  obtain ⟨i, hi, hfree, rfl⟩ := exists_freeBelow_eq hj
  have hdigit : c.digit k i = c.digit k' i := by
    rw [← Option.some_inj, ← getElem?_completion hi, h, getElem?_completion hi]
  rwa [digit_of_not_fixes hfree, digit_of_not_fixes hfree] at hdigit

theorem nodup_completions (c : Cube) (n : Nat) : (c.completions n).Nodup := by
  refine List.Nodup.map_on (fun k hk k' hk' h => ?_) List.nodup_range
  exact completion_inj (List.mem_range.1 hk) (List.mem_range.1 hk') h

/-! ### Every completion has a number -/

theorem completes_completion {n : UInt16} (hc : c.Within n) :
    (c.completion n.toNat k).Completes c := by
  intro x b hb
  rw [getElem?_completion (hc.toIndex_lt hb)]
  simp [digit, hb]

/-- The free values of a completion, up to some position, are the digits of a number. -/
theorem exists_digits (hv : v.Completes c) (hsize : v.bits.size ≤ 65536) (hi : i ≤ v.bits.size) :
    ∃ k < 2 ^ c.freeBelow i, ∀ j < i, v.bits[j]? = some (c.digit k j) := by
  induction i with
  | zero => exact ⟨0, Nat.two_pow_pos _, by simp⟩
  | succ i ih =>
    obtain ⟨k, hk, hdigits⟩ := ih (Nat.le_of_succ_le hi)
    by_cases hfix : c.fixes (.atIndex i)
    · refine ⟨k, freeBelow_succ_of_fixes hfix ▸ hk, Nat.forall_lt_succ_right.2 ⟨hdigits, ?_⟩⟩
      obtain ⟨b, hb⟩ := Option.isSome_iff_exists.1 hfix
      have hbit := hv _ b hb
      rw [Variable.toIndex_atIndex (by omega)] at hbit
      simp [hbit, digit, hb]
    · -- The value of a free variable becomes the digit above those of `k`.
      have hbit : v.bits[i]? = some v.bits[i] := Array.getElem?_eq_getElem hi
      have hnew := Nat.testBit_two_pow_mul_add v.bits[i].toNat hk
      refine ⟨2 ^ c.freeBelow i * v.bits[i].toNat + k, ?_, Nat.forall_lt_succ_right.2 ⟨?_, ?_⟩⟩
      · have htop := Nat.mul_le_mul_left (2 ^ c.freeBelow i) v.bits[i].toNat_le
        rw [freeBelow_succ_of_not_fixes hfix, Nat.pow_succ]
        omega
      · intro j hj
        rw [hdigits j hj]
        by_cases hfixj : c.fixes (.atIndex j)
        · rw [digit_of_fixes hfixj]
        · rw [digit_of_not_fixes hfixj, digit_of_not_fixes hfixj, hnew,
            if_pos (freeBelow_lt hfixj hj)]
      · rw [hbit, digit_of_not_fixes hfix, hnew, if_neg (Nat.lt_irrefl _), Nat.sub_self]
        cases v.bits[i] <;> rfl

/-- The list holds exactly the completions. -/
theorem mem_completions_iff {n : UInt16} (hc : c.Within n) :
    v ∈ c.completions n.toNat ↔ v.bits.size = n.toNat ∧ v.Completes c := by
  have hn := n.toNat_lt
  rw [completions, List.mem_map]
  constructor
  · rintro ⟨k, -, rfl⟩
    exact ⟨size_completion, completes_completion hc⟩
  · rintro ⟨hsize, hv⟩
    obtain ⟨k, hk, hdigits⟩ := exists_digits hv (by omega) (Nat.le_refl _)
    exact ⟨k, List.mem_range.2 (hsize ▸ hk), hsize ▸ completion_eq hdigits⟩

/-- Cubes that clash have no common completion. -/
theorem Clashes.disjoint_completions {n : UInt16} (h : c.Clashes c') (hc : c.Within n)
    (hc' : c'.Within n) : (c.completions n.toNat).Disjoint (c'.completions n.toNat) := by
  intro v hv hv'
  exact h.not_completes ((mem_completions_iff hc).1 hv).2 ((mem_completions_iff hc').1 hv').2

/-! ### Counting up -/

/-- The carry at position `i`: the digits before it are those of `k + 1` already, and the
others are still those of `k`. -/
def carried (c : Cube) (n k i : Nat) : Array Bool :=
  (Array.range n).map fun j => c.digit (if j < i then k + 1 else k) j

@[simp] theorem size_carried : (c.carried n k i).size = n := by simp [carried]

theorem carried_zero : c.carried n k 0 = (c.completion n k).bits := by
  simp [carried, completion]

theorem carried_succ_of_fixes (h : c.fixes (.atIndex i)) :
    c.carried n k (i + 1) = c.carried n k i := by
  refine Array.map_congr_left fun j _ => ?_
  by_cases hj : j = i
  · subst hj
    exact digit_of_fixes h _ _
  · have hlt : j < i + 1 ↔ j < i := by omega
    simp only [hlt]

/-- Over a free variable the carry writes its digit. -/
theorem set_carried (h : ¬c.fixes (.atIndex i)) (hi : i < (c.carried n k i).size)
    (hb : (k + 1).testBit (c.freeBelow i) = b) :
    (c.carried n k i).set i b hi = c.carried n k (i + 1) := by
  refine Array.ext (by simp) fun j hj _ => ?_
  rw [Array.getElem_set]
  by_cases hij : i = j
  · subst hij
    simp [carried, digit_of_not_fixes h, hb]
  · have hlt : j < i + 1 ↔ j < i := by omega
    simp only [hij, if_false, carried, Array.getElem_map, Array.getElem_range, hlt]

/-- The carry ends at the first zero, for the digits beyond it are those of `k` anyway. -/
theorem carried_succ_of_testBit (h : ¬c.fixes (.atIndex i))
    (hzero : k.testBit (c.freeBelow i) = false) :
    c.carried n k (i + 1) = (c.completion n (k + 1)).bits := by
  refine Array.map_congr_left fun j _ => ?_
  by_cases hj : j < i + 1
  · rw [if_pos hj]
  · rw [if_neg hj]
    by_cases hfix : c.fixes (.atIndex j)
    · exact digit_of_fixes hfix _ _
    · have hlt : c.freeBelow i < c.freeBelow j := freeBelow_lt h (by omega)
      have hsome : ¬∀ l < c.freeBelow j, k.testBit l = true := by
        intro hall
        rw [hall _ hlt] at hzero
        cases hzero
      rw [digit_of_not_fixes hfix, digit_of_not_fixes hfix, testBit_succ_eq_xor]
      simp [hsome]

/-- As long as it has met only ones, the carry ends with the next completion, or with none
if there is no further number. -/
theorem go_carried {left : Nat} (hi : i + left = n) (hk : k < 2 ^ c.freeBelow n)
    (hones : ∀ j < c.freeBelow i, k.testBit j = true) :
    Valuation.succIn?.go c i (c.carried n k i) =
      if k + 1 < 2 ^ c.freeBelow n then some (c.completion n (k + 1)) else none := by
  induction left generalizing i with
  | zero =>
    obtain rfl : i = n := hi
    have hlast : ¬k + 1 < 2 ^ c.freeBelow i := by
      rw [succ_lt_two_pow_iff hk]
      rintro ⟨j, hj, hzero⟩
      rw [hones j hj] at hzero
      cases hzero
    rw [Valuation.succIn?.go, dif_neg (by simp), if_neg hlast]
  | succ left ih =>
    have hlt : i < (c.carried n k i).size := by
      rw [size_carried]
      omega
    have hnext : i + 1 + left = n := by omega
    rw [Valuation.succIn?.go, dif_pos hlt]
    by_cases hfix : c.fixes (.atIndex i)
    · rw [if_pos hfix, ← carried_succ_of_fixes hfix]
      exact ih hnext (freeBelow_succ_of_fixes hfix ▸ hones)
    · have hdigit : (c.carried n k i)[i] = k.testBit (c.freeBelow i) := by
        simp [carried, digit_of_not_fixes hfix]
      have hflip : (k + 1).testBit (c.freeBelow i) = !k.testBit (c.freeBelow i) := by
        rw [testBit_succ_eq_xor, decide_eq_true hones, Bool.xor_true]
      rw [if_neg hfix, hdigit]
      cases hbit : k.testBit (c.freeBelow i) with
      | true =>
        rw [hbit, Bool.not_true] at hflip
        rw [if_pos rfl, set_carried hfix hlt hflip]
        refine ih hnext ?_
        rw [freeBelow_succ_of_not_fixes hfix]
        exact Nat.forall_lt_succ_right.2 ⟨hones, hbit⟩
      | false =>
        rw [hbit, Bool.not_false] at hflip
        have hmore : k + 1 < 2 ^ c.freeBelow n :=
          (succ_lt_two_pow_iff hk).2 ⟨_, freeBelow_lt hfix (by omega), hbit⟩
        rw [if_neg (by decide), if_pos hmore, set_carried hfix hlt hflip,
          carried_succ_of_testBit hfix hbit]

/-- Counting up leads from the completion with one number to that with the next. -/
theorem succIn?_completion (hk : k < 2 ^ c.freeBelow n) :
    (c.completion n k).succIn? c =
      if k + 1 < 2 ^ c.freeBelow n then some (c.completion n (k + 1)) else none := by
  rw [Valuation.succIn?, ← carried_zero]
  exact go_carried (Nat.zero_add n) hk (by simp [freeBelow])

theorem least_eq_completion (c : Cube) (n : Nat) : Valuation.least c n = c.completion n 0 := by
  refine congrArg Valuation.mk (Array.map_congr_left fun i _ => ?_)
  cases hi : c.get? (.atIndex i) with
  | none => simp [digit, hi]
  | some b => cases b <;> simp [digit, hi]

end Cube

namespace Completions

variable {c : Cube} {k left : Nat}

/-! ### What the cursor delivers -/

theorem yields_empty : Cursor.Yields (∅ : Completions) [] := .done rfl

theorem next_completion {n : Nat} (hk : k < 2 ^ c.freeBelow n) :
    Cursor.next (⟨c, some (c.completion n k)⟩ : Completions) =
      .ok (some (c.completion n k,
        ⟨c, if k + 1 < 2 ^ c.freeBelow n then some (c.completion n (k + 1)) else none⟩)) := by
  rw [next_eq, Option.map_some, Cube.succIn?_completion hk]

/-- From the completion with number `k` on, the cursor delivers all that are left. -/
theorem yields_completion {n : Nat} (hk : k + (left + 1) = 2 ^ c.freeBelow n) :
    Cursor.Yields (⟨c, some (c.completion n k)⟩ : Completions)
      ((List.range' k (left + 1)).map (c.completion n)) := by
  induction left generalizing k with
  | zero =>
    have hnext := next_completion (c := c) (n := n) (k := k) (by omega)
    rw [if_neg (by omega)] at hnext
    exact .more hnext (.done rfl)
  | succ left ih =>
    have hnext := next_completion (c := c) (n := n) (k := k) (by omega)
    rw [if_pos (by omega)] at hnext
    exact .more hnext (ih (by omega))

theorem ofClause_eq {n : UInt16} (hc : c.Within n) :
    ofClause c n = .ok ⟨c, some (.least c n.toNat)⟩ := by
  rw [ofClause]
  cases hlast : c.lastFixed? with
  | none => rfl
  | some last => exact if_pos ((Cube.within_iff_of_lastFixed?_eq_some hlast).1 hc)

/-- The cursor that starts at a clause delivers all its completions. -/
theorem yields_ofClause {n : UInt16} (hc : c.Within n) :
    ∃ t : Completions, ofClause c n = .ok t ∧ Cursor.Yields t (c.completions n.toNat) := by
  refine ⟨_, ofClause_eq hc, ?_⟩
  obtain ⟨left, hleft⟩ : ∃ left, 2 ^ c.freeBelow n.toNat = left + 1 :=
    Nat.exists_eq_add_one.2 (Nat.two_pow_pos _)
  rw [Cube.least_eq_completion, Cube.completions, List.range_eq_range', hleft]
  exact yields_completion (by omega)

end Completions

end DecisionDiagram
