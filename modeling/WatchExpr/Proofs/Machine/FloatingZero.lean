import Mathlib
import WatchExpr.Machine.Slot

namespace WatchExpr

namespace FloatingZero

open Float.Model (Format UnpackedFloat)
open Float.Model.UnpackedFloat

variable {spec : Format} {b : BitVec spec.numBits}

/-- A number is below or above zero unless its exponent and its mantissa are zero. -/
theorem lt_zero_or_zero_lt (sign : Sign)
    (hn : unpackExponent b = -1#_ → unpackMantissa b = 0#_) :
    ((unpack spec b).lt (.zero sign) ∨ (UnpackedFloat.zero sign).lt (unpack spec b)) ↔
      ¬ (unpackExponent b = 0#_ ∧ unpackMantissa b = 0#_) := by
  have hone : -BitVec.ofNat spec.exponentBits 1 ≠ 0#_ := by
    have hp := Nat.one_lt_two_pow (Nat.ne_of_gt spec.he)
    rw [BitVec.neg_one_eq_allOnes, ne_eq, ← BitVec.toNat_inj, BitVec.toNat_allOnes]
    simp only [BitVec.toNat_ofNat, Nat.zero_mod]
    omega
  have hinf (s : Sign) :
      (infinity s).lt (.zero sign) ∨ (UnpackedFloat.zero sign).lt (infinity s) := by
    cases s with
    | negative => exact .inl rfl
    | positive => exact .inr rfl
  have hfin (s : Sign) (m : Nat) (e : Int) (hm : 0 < m) :
      (finite s m e hm).lt (.zero sign) ∨ (UnpackedFloat.zero sign).lt (finite s m e hm) := by
    cases s with
    | negative => exact .inl rfl
    | positive => exact .inr rfl
  simp only [unpack]
  split
  · rename_i hexp
    simp only [hn hexp, if_true, hinf, hexp, hone, false_and, not_false_eq_true]
  · split
    · rename_i hzero
      split
      · rename_i hman
        simp only [hzero, hman, and_self, not_true_eq_false, iff_false]
        rintro (h | h) <;> cases h
      · rename_i hman
        simp only [hfin, hman, and_false, not_false_eq_true]
    · rename_i hzero
      simp only [hfin, hzero, false_and, not_false_eq_true]

/-- The bits below the sign: the exponent in front of the mantissa. -/
theorem magnitude_eq (b : BitVec spec.numBits) :
    b.toNat % 2 ^ (spec.mantissaBitsWithoutImplicit + spec.exponentBits) =
      (unpackMantissa b).toNat +
        2 ^ spec.mantissaBitsWithoutImplicit * (unpackExponent b).toNat := by
  have hm := spec.hm
  have he := spec.he
  rw [Nat.pow_add, Nat.mod_mul]
  simp only [unpackMantissa, unpackExponent, BitVec.toNat_cast, BitVec.extractLsb_toNat,
    Nat.shiftRight_eq_div_pow, Nat.pow_zero, Nat.div_one]
  congr 3
  · omega
  · congr 1
    omega

/-- What is stored of a number that is no NaN is below or above zero unless all bits below the sign
are clear. -/
theorem stored_lt_zero_or_zero_lt (spec : Format) {b : BitVec spec.numBits}
    (he : 2 ≤ spec.exponentBits) {sign : Sign}
    (hn : b.toNat % 2 ^ (spec.mantissaBitsWithoutImplicit + spec.exponentBits) ≤
      2 ^ spec.mantissaBitsWithoutImplicit * (2 ^ spec.exponentBits - 1)) :
    ((unpack spec (pack spec (unpack spec b))).lt (.zero sign) ∨
        (UnpackedFloat.zero sign).lt (unpack spec (pack spec (unpack spec b)))) ↔
      b.toNat % 2 ^ (spec.mantissaBitsWithoutImplicit + spec.exponentBits) ≠ 0 := by
  rw [magnitude_eq] at hn ⊢
  have hnan : isNaNBits b = false := by
    rw [isNaNBits, decide_eq_false_iff_not]
    rintro ⟨hexp, hman⟩
    rw [hexp, BitVec.neg_one_eq_allOnes, BitVec.toNat_allOnes] at hn
    rw [ne_eq, ← BitVec.toNat_inj, BitVec.toNat_ofNat, Nat.zero_mod] at hman
    omega
  rw [pack_unpack b he, hnan, if_neg Bool.false_ne_true, lt_zero_or_zero_lt, ← BitVec.toNat_inj,
    ← BitVec.toNat_inj]
  · simp only [BitVec.toNat_ofNat, Nat.zero_mod, ne_eq, Nat.add_eq_zero_iff, Nat.mul_eq_zero,
      Nat.ne_of_gt (Nat.two_pow_pos _), false_or, and_comm]
  · simpa [isNaNBits] using hnan

theorem single_lt_iff (x y : Slot) :
    Slot.single x < Slot.single y ↔
      (unpack .binary32 (pack .binary32 (unpack .binary32 x.toUInt32.toBitVec))).lt
        (unpack .binary32 (pack .binary32 (unpack .binary32 y.toUInt32.toBitVec))) :=
  decide_eq_true_iff

theorem double_lt_iff (x y : Slot) :
    Slot.double x < Slot.double y ↔
      (unpack .binary64 (pack .binary64 (unpack .binary64 x.toBitVec))).lt
        (unpack .binary64 (pack .binary64 (unpack .binary64 y.toBitVec))) :=
  decide_eq_true_iff

theorem single_zero :
    unpack .binary32 (pack .binary32 (unpack .binary32 (0 : Slot).toUInt32.toBitVec)) =
      .zero .positive := rfl

theorem double_zero :
    unpack .binary64 (pack .binary64 (unpack .binary64 (0 : Slot).toBitVec)) =
      .zero .positive := rfl

theorem toNat_and_single (v : Slot) : (v &&& 0x7fffffff).toNat = v.toNat % 2 ^ 31 := by
  rw [UInt64.toNat_and, ← Nat.and_two_pow_sub_one_eq_mod]
  rfl

theorem toNat_and_double (v : Slot) : (v &&& 0x7fffffffffffffff).toNat = v.toNat % 2 ^ 63 := by
  rw [UInt64.toNat_and, ← Nat.and_two_pow_sub_one_eq_mod]
  rfl

theorem single_lt_zero_or_zero_lt {v : Slot} (hn : Slot.isSingleNaN v = false) :
    (Slot.single v < Slot.single 0 ∨ Slot.single 0 < Slot.single v) ↔ v &&& 0x7fffffff ≠ 0 := by
  have hb : v.toUInt32.toBitVec.toNat % 2 ^ 31 = (v &&& 0x7fffffff).toNat := by
    rw [toNat_and_single]
    simp
  have hle : v.toUInt32.toBitVec.toNat % 2 ^ 31 ≤ 2 ^ 23 * (2 ^ 8 - 1) := by
    rw [hb]
    simpa [Slot.isSingleNaN, UInt64.le_iff_toNat_le] using hn
  rw [single_lt_iff, single_lt_iff, single_zero]
  refine (stored_lt_zero_or_zero_lt .binary32 (by decide) hle).trans ?_
  change v.toUInt32.toBitVec.toNat % 2 ^ 31 ≠ 0 ↔ _
  rw [hb, ne_eq, ← UInt64.toNat_zero, UInt64.toNat_inj]

theorem double_lt_zero_or_zero_lt {v : Slot} (hn : Slot.isDoubleNaN v = false) :
    (Slot.double v < Slot.double 0 ∨ Slot.double 0 < Slot.double v) ↔
      v &&& 0x7fffffffffffffff ≠ 0 := by
  have hb : v.toBitVec.toNat % 2 ^ 63 = (v &&& 0x7fffffffffffffff).toNat := by
    rw [toNat_and_double]
    rfl
  have hle : v.toBitVec.toNat % 2 ^ 63 ≤ 2 ^ 52 * (2 ^ 11 - 1) := by
    rw [hb]
    simpa [Slot.isDoubleNaN, UInt64.le_iff_toNat_le] using hn
  rw [double_lt_iff, double_lt_iff, double_zero]
  refine (stored_lt_zero_or_zero_lt .binary64 (by decide) hle).trans ?_
  change v.toBitVec.toNat % 2 ^ 63 ≠ 0 ↔ _
  rw [hb, ne_eq, ← UInt64.toNat_zero, UInt64.toNat_inj]

end FloatingZero

namespace Comparison

theorem apply_ne (g : Group) (x y : Slot) : apply .ne g x y = !(order? g x y == some .eq) := by
  rw [apply]
  split
  · rename_i o ho
    rw [ho]
    cases o <;> rfl
  · rename_i ho
    rw [ho]
    rfl

theorem ite_order_eq {nan : Bool} {p q : Prop} [Decidable p] [Decidable q] :
    (if nan then none else if p then some Ordering.lt else if q then some .gt else some .eq) =
      some .eq ↔ nan = false ∧ ¬ (p ∨ q) := by
  cases nan <;> by_cases hp : p <;> by_cases hq : q <;> simp [hp, hq]

theorem order_zero (g : Group) (v : Slot) : order? g v 0 = some .eq ↔ Slot.isZero g v := by
  cases g with
  | f32 =>
    rw [order?, ite_order_eq, Bool.or_eq_false_iff, Slot.isZero, beq_iff_eq]
    constructor
    · rintro ⟨⟨hn, -⟩, hlt⟩
      exact not_not.1 (mt (FloatingZero.single_lt_zero_or_zero_lt hn).2 hlt)
    · intro hz
      have hn : Slot.isSingleNaN v = false := by
        rw [Slot.isSingleNaN, hz]
        decide
      exact ⟨⟨hn, by decide⟩, fun hlt => (FloatingZero.single_lt_zero_or_zero_lt hn).1 hlt hz⟩
  | f64 =>
    rw [order?, ite_order_eq, Bool.or_eq_false_iff, Slot.isZero, beq_iff_eq]
    constructor
    · rintro ⟨⟨hn, -⟩, hlt⟩
      exact not_not.1 (mt (FloatingZero.double_lt_zero_or_zero_lt hn).2 hlt)
    · intro hz
      have hn : Slot.isDoubleNaN v = false := by
        rw [Slot.isDoubleNaN, hz]
        decide
      exact ⟨⟨hn, by decide⟩, fun hlt => (FloatingZero.double_lt_zero_or_zero_lt hn).1 hlt hz⟩
  | s =>
    have hz : Slot.signed v = Slot.signed 0 ↔ v = 0 :=
      ⟨fun h => congrArg Int64.toUInt64 h, fun h => by rw [h]⟩
    simp [order?, Slot.isZero, hz]
  | _ => simp [order?, Slot.isZero]

/-- A slot differs from zero by the comparison of its group exactly when it is not zero there. -/
theorem apply_ne_zero (g : Group) (v : Slot) : apply .ne g v 0 = !Slot.isZero g v := by
  rw [apply_ne, Bool.eq_iff_iff]
  simp only [Bool.not_eq_true', beq_eq_false_iff_ne, ne_eq, order_zero, Bool.not_eq_true]

end Comparison

end WatchExpr
