import DecisionDiagram.Diagram.Count
import Mathlib

/-!
# Natural numbers in binary64

The natural numbers up to `2 ^ 53` are among the binary64 numbers, and as long as results
stay there, sums and products with powers of two are exact.  What is computed beyond that is
not a number if zero meets infinity, and then it remains so.
-/

namespace DecisionDiagram

namespace Binary64

open Float.Model Float.Model.UnpackedFloat

variable {k l m n : Nat} {e : Int}

/-! ### Packing -/

/-- The implicit bit is the leading digit. -/
theorem toNat_append_implicit (hlo : 2 ^ 52 ≤ m) (hhi : m < 2 ^ 53) :
    (1#1 ++ BitVec.ofNat 52 m).toNat = m := by
  rw [BitVec.toNat_append, BitVec.toNat_ofNat, BitVec.toNat_ofNat,
    ← Nat.shiftLeft_add_eq_or_of_lt (Nat.mod_lt _ (Nat.two_pow_pos 52)), Nat.shiftLeft_eq]
  omega

theorem pack_finite (hlo : 2 ^ 52 ≤ m) (hhi : m < 2 ^ 53) (hpos : 0 < m) {b : Nat}
    (hb : e + 1075 = b) (hmax : b ≤ 2046) :
    UnpackedFloat.pack Format.binary64 (.finite .positive m e hpos) =
      packComponents Format.binary64 .positive (BitVec.ofNat 11 b) (BitVec.ofNat 52 m) := by
  have hlog : m.log2 = 52 := (Nat.log2_eq_iff (Nat.pos_iff_ne_zero.1 hpos)).2 ⟨hlo, hhi⟩
  have hbias : (e + (Format.binary64.exponentBias : Int) + (52 : Nat)).toNat = b := by
    simp only [Format.exponentBias]
    omega
  rw [UnpackedFloat.pack]
  simp only [hbias]
  rw [if_neg (by simp; omega), if_pos (by rw [hlog]; rfl)]

/-- A number with its leading digit at position 52 is unpacked as it was packed. -/
theorem unpack_pack_finite (hlo : 2 ^ 52 ≤ m) (hhi : m < 2 ^ 53) (hpos : 0 < m)
    (he : -1074 ≤ e) (he' : e ≤ 971) :
    (Float.Model.pack (.finite .positive m e hpos)).unpack = .finite .positive m e hpos := by
  obtain ⟨b, hb⟩ : ∃ b : Nat, e + 1075 = b := ⟨(e + 1075).toNat, by omega⟩
  have hexp : (BitVec.ofNat 11 b).toNat = b := by
    rw [BitVec.toNat_ofNat]
    exact Nat.mod_eq_of_lt (by omega)
  have hne : ∀ c : BitVec 11, c.toNat ≠ b → BitVec.ofNat 11 b ≠ c := by
    rintro c hc rfl
    exact hc hexp
  show UnpackedFloat.unpack Format.binary64 (UnpackedFloat.pack Format.binary64 _) = _
  rw [pack_finite hlo hhi hpos hb (by omega), UnpackedFloat.unpack]
  simp only [unpackMantissa_packComponents, unpackExponent_packComponents,
    unpackSign_packComponents]
  rw [if_neg (hne _ (by simp; omega)), if_neg (hne _ (by simp; omega))]
  simp only [toNat_append_implicit hlo hhi, hexp, Format.exponentBias, finite.injEq, true_and]
  exact ⟨rfl, by omega⟩

/-! ### Rounding -/

theorem log2_mul_two_pow (hn : n ≠ 0) (k : Nat) : (n * 2 ^ k).log2 = n.log2 + k := by
  induction k with
  | zero => simp
  | succ k ih =>
    have hk : n * 2 ^ (k + 1) = 2 * (n * 2 ^ k) := by
      rw [Nat.pow_succ, ← Nat.mul_assoc, Nat.mul_comm]
    have hne : n * 2 ^ k ≠ 0 := Nat.mul_ne_zero hn (Nat.ne_of_gt (Nat.two_pow_pos k))
    rw [hk, Nat.log2_two_mul hne, ih]
    rfl

/-- Shifting out zeros leaves nothing behind. -/
theorem shiftRight_exact (m k : Nat) :
    (⟨m * 2 ^ k, false, false⟩ : ExtendedMantissa) >>> k = ⟨m, false, false⟩ := by
  show Nat.repeat ExtendedMantissa.shiftRightOne k _ = _
  induction k generalizing m with
  | zero => simp [Nat.repeat]
  | succ k ih =>
    have hm : m * 2 ^ (k + 1) = m * 2 * 2 ^ k := by rw [Nat.pow_succ, Nat.mul_assoc, Nat.mul_comm 2]
    rw [Nat.repeat, hm, ih]
    simp [ExtendedMantissa.shiftRightOne]

section Round

variable (hlo : 2 ^ 52 ≤ m) (hhi : m < 2 ^ 53) (he : -1074 ≤ e)
include hlo hhi he

/-- The exponent that belongs to a value does not depend on how it is written. -/
theorem targetExponent_eq (k : Nat) :
    Format.binary64.targetExponent (totalExponent (m * 2 ^ k) (e - k)) = e := by
  have hne : m ≠ 0 := by omega
  have hlog : m.log2 = 52 := (Nat.log2_eq_iff hne).2 ⟨hlo, hhi⟩
  rw [Format.targetExponent, totalExponent, log2_mul_two_pow hne, hlog]
  simp only [Format.mantissaBits, Format.minExponent]
  omega

theorem shiftToTargetExponent_eq (k : Nat) :
    shiftToTargetExponent Format.binary64 (m * 2 ^ k) (e - k) .exact =
      (⟨m, false, false⟩, e) := by
  have hshift : (e - (e - k)).toNat = k := by omega
  rw [shiftToTargetExponent, targetExponent_eq hlo hhi he, shiftToExponent, hshift]
  simp only [ExtendedMantissa.ofMantissaAndAccuracy, shiftRight_exact]
  rw [Int.sub_add_cancel]

/-- A value that can be represented is not changed by rounding. -/
theorem roundWithAccuracy_eq (hpos : 0 < m) (k : Nat) :
    roundWithAccuracy Format.binary64 .positive (m * 2 ^ k) (e - k) .exact =
      .finite .positive m e hpos := by
  have hagain := shiftToTargetExponent_eq hlo hhi he 0
  simp only [Nat.pow_zero, Nat.mul_one, Int.natCast_zero, Int.sub_zero] at hagain
  rw [roundWithAccuracy, shiftToTargetExponent_eq hlo hhi he]
  simp only [ExtendedMantissa.roundedMantissa, ExtendedMantissa.accuracy,
    Accuracy.roundToNearestEven, hagain]
  rw [dif_neg (Nat.pos_iff_ne_zero.1 hpos)]

theorem round_eq (hpos : 0 < m) (k : Nat) :
    UnpackedFloat.round Format.binary64 .positive (m * 2 ^ k) (e - k) =
      .finite .positive m e hpos := by
  have hnone : (e - k - e).toNat = 0 := by omega
  rw [UnpackedFloat.round, targetExponent_eq hlo hhi he]
  simp only [decreaseExponent, hnone, Nat.shiftLeft_zero, Int.natCast_zero, Int.sub_zero]
  exact roundWithAccuracy_eq hlo hhi he hpos k

end Round

/-- What is positive is rounded as it is. -/
theorem normalize_natCast (hpos : 0 < m) :
    UnpackedFloat.normalize Format.binary64 m e .positive =
      UnpackedFloat.round Format.binary64 .positive m e := by
  have hcmp : compare (m : Int) 0 = .gt := Std.compare_eq_gt.2 (Int.natCast_pos.2 hpos)
  rw [UnpackedFloat.normalize, hcmp]
  simp only [Int.toNat_natCast]

/-! ### Natural numbers -/

/-- The digits of a number, moved to where the leading one is at position 52. -/
def significand (n : Nat) : Nat := n * 2 ^ 52 / 2 ^ n.log2

/-- A natural number, taken apart. -/
def unpacked (n : Nat) : UnpackedFloat :=
  if h : 0 < significand n then .finite .positive (significand n) (n.log2 - 52) h
  else .zero .positive

/-- The floating-point number with the value of a natural number. -/
def nat (n : Nat) : Float := .ofModel (.pack (unpacked n))

/-- The rational number that a finite floating-point number stands for. -/
def value? (x : Float) : Option ℚ :=
  match x.toModel.unpack with
  | .zero _ => some 0
  | .finite sign mantissa exponent _ => some (sign.apply mantissa * 2 ^ exponent)
  | _ => none

/-- Up to `2 ^ 53` no digit is lost. -/
theorem significand_mul (hn : n ≤ 2 ^ 53) : significand n * 2 ^ n.log2 = n * 2 ^ 52 := by
  refine Nat.div_mul_cancel ?_
  by_cases hlog : n.log2 ≤ 52
  · exact Nat.dvd_mul_left_of_dvd (Nat.pow_dvd_pow 2 hlog) n
  · have hge : 2 ^ 53 ≤ n := by
      refine Nat.le_trans (Nat.pow_le_pow_right (by decide) (Nat.lt_of_not_le hlog)) ?_
      exact Nat.log2_self_le (by rintro rfl; exact hlog (by decide))
    obtain rfl := Nat.le_antisymm hn hge
    decide

theorem unpacked_zero : unpacked 0 = .zero .positive := rfl

theorem significand_range (h0 : 0 < n) (hn : n ≤ 2 ^ 53) :
    2 ^ 52 ≤ significand n ∧ significand n < 2 ^ 53 := by
  have hmul := significand_mul hn
  have hpos := Nat.two_pow_pos n.log2
  have hle := Nat.log2_self_le (Nat.pos_iff_ne_zero.1 h0)
  have hlt := Nat.lt_log2_self (n := n)
  constructor
  · refine Nat.le_of_mul_le_mul_right (c := 2 ^ n.log2) ?_ hpos
    rw [hmul, Nat.mul_comm]
    exact Nat.mul_le_mul_right _ hle
  · refine Nat.lt_of_mul_lt_mul_right (a := 2 ^ n.log2) ?_
    rw [hmul]
    rw [Nat.pow_succ] at hlt
    omega

theorem unpacked_of_pos (h0 : 0 < n) (hn : n ≤ 2 ^ 53) :
    unpacked n = .finite .positive (significand n) (n.log2 - 52)
      (Nat.lt_of_lt_of_le (by decide) (significand_range h0 hn).1) :=
  dif_pos _

theorem log2_le_log2 (h : m ≤ n) : m.log2 ≤ n.log2 := by
  rcases Nat.eq_zero_or_pos m with rfl | h0
  · exact Nat.zero_le _
  · rw [Nat.le_log2 (by omega)]
    exact Nat.le_trans (Nat.log2_self_le (Nat.pos_iff_ne_zero.1 h0)) h

theorem log2_le (hn : n ≤ 2 ^ 53) : n.log2 ≤ 53 :=
  Nat.le_trans (log2_le_log2 hn) (by decide)

theorem unpack_nat (hn : n ≤ 2 ^ 53) : (nat n).toModel.unpack = unpacked n := by
  rcases Nat.eq_zero_or_pos n with rfl | h0
  · rfl
  · obtain ⟨hlo, hhi⟩ := significand_range h0 hn
    have hlog := log2_le hn
    rw [nat, unpacked_of_pos h0 hn]
    exact unpack_pack_finite hlo hhi _ (by omega) (by omega)

/-- The value is the number itself. -/
theorem value?_nat (hn : n ≤ 2 ^ 53) : value? (nat n) = some (n : ℚ) := by
  rcases Nat.eq_zero_or_pos n with rfl | h0
  · rfl
  · have hmul : (significand n : ℚ) * 2 ^ n.log2 = n * 2 ^ 52 := by
      exact_mod_cast significand_mul hn
    rw [value?, unpack_nat hn, unpacked_of_pos h0 hn]
    simp only [Sign.apply, Option.some_inj, Int.cast_natCast]
    rw [zpow_sub₀ two_ne_zero, zpow_natCast, zpow_ofNat, ← mul_div_assoc, hmul,
      mul_div_cancel_right₀ _ (by norm_num)]

theorem nan_eq : Float.nan = .ofModel (.pack .notANumber) := by decide

theorem unpack_nan : Float.nan.toModel.unpack = .notANumber := by
  rw [nan_eq]
  rfl

/-! ### Sums -/

theorem add_eq (x y : Float) :
    x + y = .ofModel (.pack (UnpackedFloat.add Format.binary64 x.toModel.unpack
      y.toModel.unpack)) := rfl

/-- Written with a common exponent, significands add up like their numbers. -/
theorem significand_add (h : m + n ≤ 2 ^ 53) (hm : l ≤ m.log2) (hn : l ≤ n.log2) :
    significand m * 2 ^ (m.log2 - l) + significand n * 2 ^ (n.log2 - l) =
      significand (m + n) * 2 ^ ((m + n).log2 - l) := by
  have hmul : ∀ {i}, l ≤ i.log2 → i ≤ 2 ^ 53 →
      significand i * 2 ^ (i.log2 - l) * 2 ^ l = i * 2 ^ 52 := by
    intro i hi hle
    rw [Nat.mul_assoc, ← Nat.pow_add, Nat.sub_add_cancel hi, significand_mul hle]
  have hsum : l ≤ (m + n).log2 := Nat.le_trans hm (log2_le_log2 (Nat.le_add_right m n))
  refine Nat.eq_of_mul_eq_mul_right (Nat.two_pow_pos l) ?_
  rw [Nat.add_mul, hmul hm (by omega), hmul hn (by omega), hmul hsum h, Nat.add_mul]

theorem add_unpacked (h : m + n ≤ 2 ^ 53) (hm : 0 < m) (hn : 0 < n) :
    UnpackedFloat.add Format.binary64 (unpacked m) (unpacked n) = unpacked (m + n) := by
  obtain ⟨l, hl⟩ : ∃ l, l = min m.log2 n.log2 := ⟨_, rfl⟩
  have hlm : l ≤ m.log2 := by omega
  have hln : l ≤ n.log2 := by omega
  have hsum : l ≤ (m + n).log2 := Nat.le_trans hlm (log2_le_log2 (Nat.le_add_right m n))
  obtain ⟨hlo, hhi⟩ := significand_range (Nat.add_pos_left hm n) h
  have hmin : min ((m.log2 : Int) - 52) (n.log2 - 52) = l - 52 := by omega
  have hshift : ∀ {i : Nat}, l ≤ i.log2 → ((i.log2 : Int) - 52 - (l - 52)).toNat = i.log2 - l := by
    intro i hi
    omega
  rw [unpacked_of_pos hm (by omega), unpacked_of_pos hn (by omega),
    unpacked_of_pos (Nat.add_pos_left hm n) h, UnpackedFloat.add]
  simp only [hmin, decreaseExponent, hshift hlm, hshift hln, Sign.apply, Nat.shiftLeft_eq]
  rw [← Int.natCast_add, significand_add h hlm hln]
  have hpos : 0 < significand (m + n) * 2 ^ ((m + n).log2 - l) :=
    Nat.mul_pos (by omega) (Nat.two_pow_pos _)
  have hexp : (l : Int) - 52 = (m + n).log2 - 52 - ((m + n).log2 - l : Nat) := by omega
  rw [normalize_natCast hpos, hexp]
  exact round_eq hlo hhi (by omega) _ _

/-- Sums that stay in the range are exact. -/
theorem nat_add (h : m + n ≤ 2 ^ 53) : nat m + nat n = nat (m + n) := by
  rw [add_eq, unpack_nat (by omega), unpack_nat (by omega), nat]
  refine congrArg (fun u => Float.ofModel (.pack u)) ?_
  rcases Nat.eq_zero_or_pos m with rfl | hm
  · rw [Nat.zero_add, unpacked_zero, unpacked]
    split <;> rfl
  · rcases Nat.eq_zero_or_pos n with rfl | hn
    · rw [Nat.add_zero, unpacked_zero, unpacked]
      split <;> rfl
    · exact add_unpacked h hm hn

/-! ### Products with powers of two -/

theorem mul_eq (x y : Float) :
    x * y = .ofModel (.pack (UnpackedFloat.mul Format.binary64 x.toModel.unpack
      y.toModel.unpack)) := rfl

theorem toBitVec_pow2 {b : Nat} (hb : b < 2048) :
    (b.toUInt64 <<< 52).toBitVec =
      packComponents Format.binary64 .positive (BitVec.ofNat 11 b) 0#52 := by
  have hword : b.toUInt64.toNat = b := Nat.mod_eq_of_lt (by omega)
  have hexp : (BitVec.ofNat 11 b).toNat = b := Nat.mod_eq_of_lt hb
  have hsign : Sign.positive.toBitVec.toNat = 0 := rfl
  have hshift : UInt64.toNat 52 % 64 = 52 := rfl
  apply BitVec.eq_of_toNat_eq
  rw [packComponents, BitVec.toNat_append, BitVec.toNat_append, UInt64.toNat_toBitVec,
    UInt64.toNat_shiftLeft, hword, hexp, hsign, hshift, Nat.shiftLeft_eq, Nat.zero_shiftLeft,
    Nat.zero_or, BitVec.toNat_zero, Nat.or_zero, Nat.shiftLeft_eq]
  omega

theorem unpack_floatPow2 (hk : k ≤ 1023) :
    (floatPow2 k).toModel.unpack = .finite .positive (2 ^ 52) (k - 52) (by decide) := by
  have hunpack := unpack_pack_finite (m := 2 ^ 52) (e := (k : Int) - 52) (by decide) (by decide)
    (by decide) (by omega) (by omega)
  have hbits : Float.Model.ofBits ((k + 1023).toUInt64 <<< 52) =
      .pack (.finite .positive (2 ^ 52) (k - 52) (by decide)) := by
    have hpack := pack_finite (m := 2 ^ 52) (e := (k : Int) - 52) (b := k + 1023) (by decide)
      (by decide) (by decide) (by omega) (by omega)
    rw [Float.Model.ofBits, toBitVec_pow2 (by omega)]
    exact congrArg Float.Model.pack (hpack ▸ hunpack)
  rw [floatPow2, if_pos hk, Float.ofBits, hbits, hunpack]

theorem floatPow2_of_lt (hk : 1023 < k) : floatPow2 k = Float.inf := by
  rw [floatPow2, if_neg (by omega)]
  rfl

/-- Doubling a number leaves its digits the same. -/
theorem significand_mul_two_pow (hn : n ≠ 0) (k : Nat) :
    significand (n * 2 ^ k) = significand n := by
  rw [significand, log2_mul_two_pow hn, Nat.pow_add, Nat.mul_right_comm,
    Nat.mul_div_mul_right _ _ (Nat.two_pow_pos k), significand]

/-- Products with powers of two that stay in the range are exact. -/
theorem nat_mul (h : n * 2 ^ k ≤ 2 ^ 53) (hn : 0 < n) :
    nat n * floatPow2 k = nat (n * 2 ^ k) := by
  have hk : k ≤ 53 :=
    (Nat.pow_le_pow_iff_right (by decide)).1 (Nat.le_trans (Nat.le_mul_of_pos_left _ hn) h)
  have hpos : 0 < n * 2 ^ k := Nat.mul_pos hn (Nat.two_pow_pos k)
  have hle : n ≤ 2 ^ 53 := Nat.le_trans (Nat.le_mul_of_pos_right n (Nat.two_pow_pos k)) h
  obtain ⟨hlo, hhi⟩ := significand_range hpos h
  have hne := Nat.pos_iff_ne_zero.1 hn
  have hexp : (n.log2 : Int) - 52 + (k - 52) = (n * 2 ^ k).log2 - 52 - (52 : Nat) := by
    rw [log2_mul_two_pow hne]
    omega
  rw [mul_eq, unpack_nat hle, unpack_floatPow2 (by omega), unpacked_of_pos hn hle,
    UnpackedFloat.mul, hexp, ← significand_mul_two_pow hne k, nat, unpacked_of_pos hpos h]
  refine congrArg (fun u => Float.ofModel (.pack u)) ?_
  exact roundWithAccuracy_eq hlo hhi (by omega) _ 52

theorem nat_zero_mul (hk : k ≤ 1023) : nat 0 * floatPow2 k = nat 0 := by
  rw [mul_eq, unpack_floatPow2 hk]
  rfl

/-- Zero times infinity is not a number. -/
theorem nat_zero_mul_of_lt (hk : 1023 < k) : nat 0 * floatPow2 k = Float.nan := by
  rw [floatPow2_of_lt hk]
  rfl

/-! ### What is not a number -/

theorem nan_mul (x : Float) : Float.nan * x = Float.nan := by
  rw [mul_eq, unpack_nan, UnpackedFloat.mul]
  rfl

theorem nan_add (x : Float) : Float.nan + x = Float.nan := by
  rw [add_eq, unpack_nan, UnpackedFloat.add]
  rfl

theorem add_nan (x : Float) : x + Float.nan = Float.nan := by
  rw [add_eq, unpack_nan]
  cases x.toModel.unpack <;> rfl

/-! ### Literals -/

theorem nat_zero : (0.0 : Float) = nat 0 := by decide

theorem nat_one : (1.0 : Float) = nat 1 := by decide

/-- A number below `2 ^ 53` is rounded to itself. -/
theorem round_nat (h0 : 0 < n) (hlt : n < 2 ^ 53) :
    UnpackedFloat.round Format.binary64 .positive n 0 = unpacked n := by
  have hne := Nat.pos_iff_ne_zero.1 h0
  have hlog : n.log2 ≤ 52 := Nat.le_of_lt_succ ((Nat.log2_lt hne).2 hlt)
  obtain ⟨hlo, hhi⟩ := significand_range h0 (Nat.le_of_lt hlt)
  have hdigits : n <<< (52 - n.log2) = significand n * 2 ^ 0 := by
    rw [Nat.shiftLeft_eq, Nat.pow_zero, Nat.mul_one, significand]
    refine (Nat.div_eq_of_eq_mul_left (Nat.two_pow_pos _) ?_).symm
    rw [Nat.mul_assoc, ← Nat.pow_add, Nat.sub_add_cancel hlog]
  have htarget : Format.binary64.targetExponent (totalExponent n 0) = n.log2 - 52 := by
    simp only [Format.targetExponent, totalExponent, Format.mantissaBits, Format.minExponent]
    omega
  have hshift : (0 - ((n.log2 : Int) - 52)).toNat = 52 - n.log2 := by omega
  have hexp : 0 - ((52 - n.log2 : Nat) : Int) = n.log2 - 52 - (0 : Nat) := by omega
  rw [UnpackedFloat.round, htarget]
  simp only [decreaseExponent, hshift]
  rw [hdigits, hexp, unpacked_of_pos h0 (Nat.le_of_lt hlt)]
  exact roundWithAccuracy_eq hlo hhi (by omega) _ 0

theorem toFloat_toUInt64 (hlt : n < 2 ^ 53) : n.toUInt64.toFloat = nat n := by
  have hword : n.toUInt64.toNat = n := Nat.mod_eq_of_lt (by omega)
  rw [UInt64.toFloat, Float.Model.ofUInt64, UnpackedFloat.ofUInt64, hword, UnpackedFloat.ofNat,
    UnpackedFloat.ofInt, nat]
  rcases Nat.eq_zero_or_pos n with rfl | h0
  · rfl
  · rw [normalize_natCast h0, round_nat h0 hlt]

/-- Conversion of natural numbers is exact up to `2 ^ 53`. -/
theorem ofNat_eq (hn : n ≤ 2 ^ 53) : Float.ofNat n = nat n := by
  show Float.ofScientific n false 0 = nat n
  rw [Float.ofScientific]
  by_cases hlt : n < 2 ^ 53
  · have hone : getElem Float.exactlyRepresentablePowersOfTen 0 (by decide) = floatPow2 0 := by
      decide
    rw [dif_pos ⟨hlt, by decide⟩]
    simp only [hone]
    show n.toUInt64.toFloat * floatPow2 0 = nat n
    rw [toFloat_toUInt64 hlt]
    rcases Nat.eq_zero_or_pos n with rfl | h0
    · exact nat_zero_mul (by decide)
    · rw [nat_mul (by omega) h0, Nat.pow_zero, Nat.mul_one]
  · obtain rfl : n = 2 ^ 53 := by omega
    decide

theorem isFinite_nat (hn : n ≤ 2 ^ 53) : (nat n).isFinite := by
  rw [Float.isFinite, Float.Model.isFinite, unpack_nat hn, unpacked]
  split <;> rfl

theorem isNaN_nat (hn : n ≤ 2 ^ 53) : (nat n).isNaN = false := by
  rw [Float.isNaN, Float.Model.isNaN, unpack_nat hn, unpacked]
  split <;> rfl

end Binary64

end DecisionDiagram
