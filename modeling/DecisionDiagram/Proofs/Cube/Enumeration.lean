import DecisionDiagram.Proofs.Cube.Completions

/-!
# Completions in the order of counting

The cursor over the completions of a cube is asked for one item after the other.  Its
answers are the binary numbers with as many digits as the cube has free variables, written
into these variables, the lowest digit first; after the last number there is nothing more,
however often it is asked.
-/

namespace DecisionDiagram

namespace Cursor

variable {σ : Type u} {α : Type v} [Cursor σ α] {s : σ} {l : List α}

/-- What the draw after the first `k` finds, whether or not these came to the end: at the
end the state stays as it is. -/
def draw : (k : Nat) → σ → Except Fault (Option α)
  | 0, s => (next s).map fun found => found.map Prod.fst
  | k + 1, s =>
    match next s with
    | .error fault => .error fault
    | .ok none => draw k s
    | .ok (some (_, s)) => draw k s

theorem draw_of_end (h : next s = .ok none) (k : Nat) : draw k s = .ok none := by
  induction k with
  | zero => rw [draw, h]; rfl
  | succ k ih => rw [draw, h]; exact ih

/-- A cursor is asked for the items that it delivers, and for nothing more. -/
theorem Yields.draw_eq (h : Yields s l) (k : Nat) : draw k s = .ok l[k]? := by
  induction h generalizing k with
  | done hn => exact draw_of_end hn k
  | more hn _ ih =>
    cases k with
    | zero => rw [draw, hn]; rfl
    | succ k => rw [draw, hn]; exact ih k

end Cursor

namespace Cube

variable {c : Cube} {i j k n : Nat} {x : Variable}

/-! ### The free variables -/

/-- The free variables below position `n`, in order. -/
def freeVars (c : Cube) (n : Nat) : List Variable :=
  ((List.range n).filter fun i => !c.fixes (.atIndex i)).map .atIndex

theorem freeVars_succ_of_fixes (h : c.fixes (.atIndex n)) : c.freeVars (n + 1) = c.freeVars n := by
  simp [freeVars, List.range_succ, h]

theorem freeVars_succ_of_not_fixes (h : ¬c.fixes (.atIndex n)) :
    c.freeVars (n + 1) = c.freeVars n ++ [.atIndex n] := by
  simp [freeVars, List.range_succ, h]

theorem length_freeVars (c : Cube) (n : Nat) : (c.freeVars n).length = c.freeBelow n := by
  rw [freeVars, List.length_map, freeBelow, List.countP_eq_length_filter]

theorem mem_freeVars (hn : n ≤ 65536) : x ∈ c.freeVars n ↔ x.toIndex < n ∧ ¬c.fixes x := by
  rw [freeVars, List.mem_map]
  constructor
  · rintro ⟨i, hi, rfl⟩
    simp only [List.mem_filter, List.mem_range, Bool.not_eq_true'] at hi
    rw [Variable.toIndex_atIndex (by omega)]
    exact ⟨hi.1, by simp [hi.2]⟩
  · rintro ⟨hx, hfree⟩
    exact ⟨x.toIndex, by simp [hx, hfree], x.atIndex_toIndex⟩

theorem sorted_freeVars (c : Cube) (hn : n ≤ 65536) : (c.freeVars n).Pairwise (· < ·) := by
  rw [freeVars, List.pairwise_map]
  refine (List.pairwise_lt_range.filter _).imp_of_mem fun hi hj hlt => ?_
  have hi := List.mem_range.1 (List.mem_filter.1 hi).1
  have hj := List.mem_range.1 (List.mem_filter.1 hj).1
  rwa [Variable.lt_iff, Variable.toIndex_atIndex (by omega), Variable.toIndex_atIndex (by omega)]

/-- Before the free variable with number `j` there are `j` others. -/
theorem freeBelow_of_getElem?_freeVars (hn : n ≤ 65536) (h : (c.freeVars n)[j]? = some x) :
    c.freeBelow x.toIndex = j := by
  induction n with
  | zero => simp [freeVars] at h
  | succ n ih =>
    have hle : n ≤ 65536 := Nat.le_of_succ_le hn
    by_cases hfix : c.fixes (.atIndex n)
    · exact ih hle (freeVars_succ_of_fixes hfix ▸ h)
    · rw [freeVars_succ_of_not_fixes hfix, List.getElem?_append] at h
      split at h
      · exact ih hle h
      · rename_i hlast
        obtain ⟨hj, rfl⟩ := List.getElem?_eq_some_iff.1 h
        rw [List.length_singleton] at hj
        rw [List.getElem_singleton, Variable.toIndex_atIndex (by omega), ← length_freeVars]
        omega

/-! ### The values of a completion -/

theorem value_completion (hx : x.toIndex < n) (k : Nat) :
    (c.completion n k).value x = .ok (c.digit k x.toIndex) :=
  Valuation.value_eq_ok_iff.2 (getElem?_completion hx)

theorem value_completion_of_get? {b : Bool} (hx : x.toIndex < n) (hb : c.get? x = some b) :
    (c.completion n k).value x = .ok b := by
  rw [value_completion hx, digit, Variable.atIndex_toIndex, hb]
  rfl

/-- The free variable with number `j` has the binary digit `j`. -/
theorem value_completion_of_getElem? (hn : n ≤ 65536) (h : (c.freeVars n)[j]? = some x) :
    (c.completion n k).value x = .ok (k.testBit j) := by
  obtain ⟨hx, hfree⟩ := (mem_freeVars hn).1 (List.mem_of_getElem? h)
  rw [value_completion hx, digit_of_not_fixes (by rwa [Variable.atIndex_toIndex]),
    freeBelow_of_getElem?_freeVars hn h]

theorem getElem?_completions (c : Cube) (n k : Nat) :
    (c.completions n)[k]? =
      if k < 2 ^ c.freeBelow n then some (c.completion n k) else none := by
  rw [completions, List.getElem?_map]
  by_cases hk : k < 2 ^ c.freeBelow n <;> simp [hk]

end Cube

namespace Completions

variable {c : Cube} {n : UInt16}

/-- The completions of a cube with `m` free variables come in the order of counting: the
item with number `k` has the fixed values of the cube and the binary digits of `k` in its
free variables, the lowest digit in the first of them.  There are `2 ^ m` items, and then
the cursor is at its end for good.  Each valuation that completes the cube is drawn once. -/
theorem ofClause_counts (hc : c.Within n) :
    ∃ t, ofClause c n = .ok t ∧
      (c.freeVars n.toNat).Pairwise (· < ·) ∧
      (∀ x, x ∈ c.freeVars n.toNat ↔ x.toIndex < n.toNat ∧ c.get? x = none) ∧
      (∀ k < 2 ^ (c.freeVars n.toNat).length, ∃ v : Valuation,
        Cursor.draw k t = .ok (some v) ∧ v.bits.size = n.toNat ∧
        (∀ x b, c.get? x = some b → v.value x = .ok b) ∧
        ∀ j x, (c.freeVars n.toNat)[j]? = some x → v.value x = .ok (k.testBit j)) ∧
      (∀ k, 2 ^ (c.freeVars n.toNat).length ≤ k → Cursor.draw k t = .ok none) ∧
      ∀ v : Valuation, v.bits.size = n.toNat → v.completes c = .ok true →
        ∃! k, Cursor.draw k t = .ok (some v) := by
  have hn : n.toNat ≤ 65536 := Nat.le_of_lt n.toNat_lt
  obtain ⟨t, ht, hyields⟩ := yields_ofClause hc
  have hdraw : ∀ k, Cursor.draw k t =
      .ok (if k < 2 ^ c.freeBelow n.toNat then some (c.completion n.toNat k) else none) := by
    intro k
    rw [hyields.draw_eq, Cube.getElem?_completions]
  refine ⟨t, ht, c.sorted_freeVars hn, fun x => ?_, ?_⟩
  · rw [Cube.mem_freeVars hn]
    simp [Cube.fixes]
  rw [Cube.length_freeVars]
  refine ⟨fun k hk => ⟨c.completion n.toNat k, ?_, Cube.size_completion, ?_, ?_⟩, ?_, ?_⟩
  · rw [hdraw, if_pos hk]
  · intro x b hb
    exact Cube.value_completion_of_get? (hc.toIndex_lt hb) hb
  · intro j x hx
    exact Cube.value_completion_of_getElem? hn hx
  · intro k hk
    rw [hdraw, if_neg (Nat.not_lt_of_le hk)]
  · intro v hv hcompletes
    have hmem := (Cube.mem_completions_iff hc).2 ⟨hv, (Valuation.completes_iff hv hc).2 hcompletes⟩
    obtain ⟨k, hk, rfl⟩ := List.mem_map.1 hmem
    rw [List.mem_range] at hk
    refine ⟨k, ?_, fun k' hk' => ?_⟩
    · simp only [hdraw, if_pos hk]
    · simp only [hdraw, Except.ok.injEq] at hk'
      split at hk'
      · rename_i hlt
        exact Cube.completion_inj hlt hk (Option.some.inj hk')
      · cases hk'

/-- A cube that fixes the second of three variables, with cells for more. -/
def middle : Cube := (Cube.ofValues [(⟨1⟩, true)]).unset ⟨4⟩

theorem ofClause_counts_middle :
    ∃ t v, ofClause middle 3 = .ok t ∧ Cursor.draw 2 t = .ok (some v) ∧
      v.value ⟨0⟩ = .ok false ∧ v.value ⟨1⟩ = .ok true ∧ v.value ⟨2⟩ = .ok true ∧
      Cursor.draw 4 t = .ok none ∧ ∃! k, Cursor.draw k t = .ok (some ⟨#[true, true, false]⟩) := by
  obtain ⟨t, ht, -, -, hitems, hend, honce⟩ := ofClause_counts (c := middle) (n := 3) (by decide)
  obtain ⟨v, hv, -, hfixed, hfree⟩ := hitems 2 (by decide)
  refine ⟨t, v, ht, hv, ?_, ?_, ?_, hend 4 (by decide), honce _ rfl (by decide)⟩
  · exact hfree 0 ⟨0⟩ (by decide)
  · exact hfixed ⟨1⟩ true (by decide)
  · exact hfree 1 ⟨2⟩ (by decide)

end Completions

end DecisionDiagram
