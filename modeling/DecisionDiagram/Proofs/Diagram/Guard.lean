import DecisionDiagram.Proofs.Cover.Obtained
import DecisionDiagram.Proofs.Diagram.Points

/-!
# Evaluation behind the length guard

Guarded evaluation compares the number of values with the number of variables, and both
are 16-bit numbers.  A valuation can have more values than that, and of their number only
the low 16 bits are compared.  So what passes the guard are the valuations whose length is
the number of variables plus a multiple of 65536.  The values after the last variable are
never read, and none before is missing: whatever passes has a result, which is that of
the leading values.
-/

namespace DecisionDiagram

namespace Valuation

variable {v : Valuation} {n : Nat} {x : Variable}

/-- The values of the first `n` variables. -/
def first (n : Nat) (v : Valuation) : Valuation := ⟨v.bits.extract 0 n⟩

@[simp] theorem size_first : (v.first n).bits.size = min n v.bits.size := by simp [first]

theorem point_first (h : x.toIndex < n) : (v.first n).point x = v.point x := by
  have hread : (v.bits.extract 0 n)[x.toIndex]? = v.bits[x.toIndex]? := by
    rw [Array.getElem?_extract, Nat.sub_zero, Nat.zero_add]
    split
    · rfl
    · exact (Array.getElem?_eq_none (by omega)).symm
  rw [point, point, first, hread]

theorem point_constant {b : Bool} (h : x.toIndex < n) : (constant n b).point x = b := by
  simp [point, constant, h]

/-- Of the number of values the low 16 bits are left. -/
theorem toNat_numVars (v : Valuation) : v.numVars.toNat = v.bits.size % 65536 := by
  rw [numVars, UInt16.toNat_ofNat']

theorem numVars_eq_iff {count : UInt16} :
    v.numVars = count ↔ ∃ k, v.bits.size = count.toNat + 65536 * k := by
  have hcount := count.toNat_lt
  rw [← UInt16.toNat_inj, toNat_numVars]
  constructor
  · intro h
    have hdiv := Nat.mod_add_div v.bits.size 65536
    rw [h] at hdiv
    exact ⟨v.bits.size / 65536, hdiv.symm⟩
  · rintro ⟨k, hk⟩
    omega

end Valuation

/-- The wording of the fault that the guard raises. -/
theorem Fault.message_valuationMismatch (n k : Nat) :
    (valuationMismatch n k).message =
      "Diagram has " ++ toString n ++ " variables, but valuation has " ++ toString k ++ "." := rfl

namespace Diagram

variable {d : Diagram} {v : Valuation}

/-- Values after the last variable of the order are not read. -/
theorem Valid.eval_first (hd : d.Valid) (hv : d.numVars.toNat ≤ v.bits.size) :
    d.eval (v.first d.numVars.toNat) = d.eval v := by
  have hfirst : (v.first d.numVars.toNat).bits.size = d.numVars.toNat := by simp [hv]
  rw [eval, eval, hd.evalFrom_of_le hv hd.root_lt, hd.evalFrom_eq hfirst hd.root_lt]
  refine congrArg _ (hd.valueAt_congr_order hd.root_lt fun x hx => ?_)
  exact Valuation.point_first (UInt16.lt_iff_toNat_lt.1 hx)

/-- Behind the guard no value is missing. -/
theorem Valid.evalGuarded_eq_ok (hd : d.Valid) (h : v.numVars = d.numVars) :
    d.evalGuarded v = .ok (d.valueAt v.point d.root) := by
  obtain ⟨k, hk⟩ := Valuation.numVars_eq_iff.1 h
  rw [evalGuarded, if_pos h, eval, hd.evalFrom_of_le (by omega) hd.root_lt]

theorem evalGuarded_eq_error (h : v.numVars ≠ d.numVars) :
    d.evalGuarded v = .error (.valuationMismatch d.numVars.toNat (v.bits.size % 65536)) := by
  rw [evalGuarded, if_neg h, Valuation.toNat_numVars]

theorem Valid.evalGuarded_isOk_iff (hd : d.Valid) :
    (∃ b, d.evalGuarded v = .ok b) ↔ v.numVars = d.numVars := by
  constructor
  · rintro ⟨b, hb⟩
    refine Decidable.byContradiction fun h => ?_
    rw [evalGuarded_eq_error h] at hb
    cases hb
  · exact fun h => ⟨_, hd.evalGuarded_eq_ok h⟩

/-- What guarded evaluation does with a valuation of any length.  Of the lengths below the
number of variables plus 65536 it accepts the number of variables and no other.  Of all
lengths it accepts those that differ from the number of variables by a multiple of 65536,
and then the leading values decide.  Any other is a mismatch, and the message gives the
length as its low 16 bits. -/
theorem Valid.evalGuarded_result (hd : d.Valid) (v : Valuation) :
    (v.bits.size < d.numVars.toNat + 65536 →
      ((∃ b, d.evalGuarded v = .ok b) ↔ v.bits.size = d.numVars.toNat)) ∧
    ((∃ b, d.evalGuarded v = .ok b) ↔ ∃ k, v.bits.size = d.numVars.toNat + 65536 * k) ∧
    (∀ b, d.evalGuarded v = .ok b → d.eval (v.first d.numVars.toNat) = .ok b) ∧
    ((∀ k, v.bits.size ≠ d.numVars.toNat + 65536 * k) →
      ∃ fault, d.evalGuarded v = .error fault ∧
        fault.message = "Diagram has " ++ toString d.numVars.toNat ++
          " variables, but valuation has " ++ toString (v.bits.size % 65536) ++ ".") := by
  have hok : (∃ b, d.evalGuarded v = .ok b) ↔
      ∃ k, v.bits.size = d.numVars.toNat + 65536 * k :=
    hd.evalGuarded_isOk_iff.trans Valuation.numVars_eq_iff
  refine ⟨fun hlt => hok.trans ⟨?_, fun h => ⟨0, h⟩⟩, hok, ?_, ?_⟩
  · rintro ⟨k, hk⟩
    omega
  · intro b hb
    have hguard : v.numVars = d.numVars := hd.evalGuarded_isOk_iff.1 ⟨b, hb⟩
    obtain ⟨k, hk⟩ := Valuation.numVars_eq_iff.1 hguard
    rw [evalGuarded, if_pos hguard] at hb
    rw [hd.eval_first (by omega), hb]
  · intro h
    have hguard : v.numVars ≠ d.numVars := fun he =>
      (Valuation.numVars_eq_iff.1 he).elim h
    exact ⟨_, evalGuarded_eq_error hguard, Fault.message_valuationMismatch _ _⟩

theorem evalGuarded_result_either :
    (∃ b, either.evalGuarded ⟨#[true, false]⟩ = .ok b) ∧
      ∃ fault, either.evalGuarded ⟨#[true]⟩ = .error fault ∧
        fault.message = "Diagram has 2 variables, but valuation has 1." := by
  have hpair := valid_either.evalGuarded_result ⟨#[true, false]⟩
  have hone := valid_either.evalGuarded_result ⟨#[true]⟩
  refine ⟨hpair.2.1.2 ⟨0, rfl⟩, hone.2.2.2 fun k hk => ?_⟩
  have : 1 = 2 + 65536 * k := hk
  omega

/-- With 65536 values too many a valuation passes the guard. -/
theorem evalGuarded_surplus :
    either.Valid ∧ (Valuation.constant 65538 true).bits.size ≠ either.numVars.toNat ∧
      either.evalGuarded (.constant 65538 true) = .ok true := by
  have hsize : (Valuation.constant 65538 true).bits.size = 65538 := Valuation.size_constant _ _
  have hguard : (Valuation.constant 65538 true).numVars = either.numVars :=
    Valuation.numVars_eq_iff.2 ⟨1, hsize⟩
  refine ⟨valid_either, by rw [hsize]; decide, ?_⟩
  rw [valid_either.evalGuarded_eq_ok hguard]
  have htrue : either.valueAt (Valuation.constant 65538 true).point either.root =
      either.valueAt (fun _ => true) either.root := by
    refine valid_either.valueAt_congr_order valid_either.root_lt fun x hx => ?_
    have hlt : x.toIndex < 2 := UInt16.lt_iff_toNat_lt.1 hx
    exact Valuation.point_constant (by omega)
  rw [htrue]
  decide

end Diagram

end DecisionDiagram
