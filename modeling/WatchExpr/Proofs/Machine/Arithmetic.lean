import Mathlib.Algebra.Order.GroupWithZero.Basic
import Mathlib.Data.Int.Bitwise
import WatchExpr.Proofs.Machine.Integer

namespace WatchExpr

namespace Slot

variable {i j : Int} {n : Nat}

theorem toNat_ofInt (i : Int) : (ofInt i).toNat = (i % 2 ^ 64).toNat := by
  simp [ofInt]

theorem ofInt_toNat (v : Slot) : ofInt v.toNat = v := by
  apply UInt64.toNat_inj.1
  have := v.toNat_lt
  rw [toNat_ofInt]
  omega

theorem signExtend_ofInt (h : n ≤ 64) (i : Int) :
    signExtend n (ofInt i) = ofInt (i.bmod (2 ^ n)) := by
  rw [← ofInt_toInt (signExtend n (ofInt i)), toInt_signExtend h, toInt_ofInt,
    Int.bmod_bmod_of_dvd (Nat.pow_dvd_pow 2 h)]

theorem truncate_ofInt (h : n ≤ 64) (i : Int) : truncate n (ofInt i) = ofInt (i % 2 ^ n) := by
  apply UInt64.toNat_inj.1
  rcases Nat.lt_or_eq_of_le h with hn | rfl
  · have h0 : (0 : Int) < 2 ^ n := Int.pow_pos (by decide)
    have hle : (2 : Int) ^ n ≤ 2 ^ 64 := pow_le_pow_right₀ (by decide) h
    have hlt : i % 2 ^ n < 2 ^ 64 := lt_of_lt_of_le (Int.emod_lt_of_pos i h0) hle
    have hm : i % 2 ^ n % 2 ^ 64 = i % 2 ^ 64 % 2 ^ n := by
      rw [Int.emod_emod_of_dvd _ (pow_dvd_pow 2 h),
        Int.emod_eq_of_lt (Int.emod_nonneg _ (by omega)) hlt]
    rw [toNat_truncate hn, toNat_ofInt, toNat_ofInt, hm,
      Int.toNat_emod (Int.emod_nonneg _ (by decide)) (Int.le_of_lt h0)]
    rfl
  · rw [truncate, if_pos (Nat.le_refl _), toNat_ofInt, toNat_ofInt,
      Int.emod_emod_of_dvd _ (dvd_refl _)]

theorem ofInt_add (i j : Int) : ofInt (i + j) = ofInt i + ofInt j := by
  apply UInt64.toBitVec_inj.1
  exact BitVec.ofInt_add i j

theorem ofInt_mul (i j : Int) : ofInt (i * j) = ofInt i * ofInt j := by
  apply UInt64.toBitVec_inj.1
  exact BitVec.ofInt_mul i j

theorem ofInt_neg (i : Int) : ofInt (-i) = -ofInt i := by
  apply UInt64.toBitVec_inj.1
  exact BitVec.ofInt_neg

theorem ofInt_sub (i j : Int) : ofInt (i - j) = ofInt i - ofInt j := by
  rw [Int.sub_eq_add_neg, ofInt_add, ofInt_neg, ← UInt64.sub_eq_add_neg]

theorem getLsbD_ofInt (i : Int) {k : Nat} (hk : k < 64) :
    (BitVec.ofInt 64 i).getLsbD k = i.testBit k := by
  cases i with
  | ofNat m =>
    rw [Int.ofNat_eq_natCast, BitVec.ofInt_natCast, BitVec.getLsbD_ofNat]
    simp [hk, Int.testBit]
  | negSucc m =>
    rw [BitVec.ofInt_negSucc_eq_not_ofNat, BitVec.getLsbD_not, BitVec.getLsbD_ofNat]
    simp [hk, Int.testBit]

theorem ofInt_land (i j : Int) : ofInt (i.land j) = ofInt i &&& ofInt j := by
  apply UInt64.toBitVec_inj.1
  apply BitVec.eq_of_getLsbD_eq
  intro k hk
  change (BitVec.ofInt 64 _).getLsbD k = (BitVec.ofInt 64 i &&& BitVec.ofInt 64 j).getLsbD k
  rw [BitVec.getLsbD_and, getLsbD_ofInt _ hk, getLsbD_ofInt _ hk, getLsbD_ofInt _ hk,
    Int.testBit_land]

theorem ofInt_lor (i j : Int) : ofInt (i.lor j) = ofInt i ||| ofInt j := by
  apply UInt64.toBitVec_inj.1
  apply BitVec.eq_of_getLsbD_eq
  intro k hk
  change (BitVec.ofInt 64 _).getLsbD k = (BitVec.ofInt 64 i ||| BitVec.ofInt 64 j).getLsbD k
  rw [BitVec.getLsbD_or, getLsbD_ofInt _ hk, getLsbD_ofInt _ hk, getLsbD_ofInt _ hk,
    Int.testBit_lor]

theorem ofInt_xor (i j : Int) : ofInt (i.xor j) = ofInt i ^^^ ofInt j := by
  apply UInt64.toBitVec_inj.1
  apply BitVec.eq_of_getLsbD_eq
  intro k hk
  change (BitVec.ofInt 64 _).getLsbD k = (BitVec.ofInt 64 i ^^^ BitVec.ofInt 64 j).getLsbD k
  rw [BitVec.getLsbD_xor, getLsbD_ofInt _ hk, getLsbD_ofInt _ hk, getLsbD_ofInt _ hk,
    Int.testBit_lxor]

theorem ofInt_lnot (i : Int) : ofInt i.lnot = ~~~ofInt i := by
  apply UInt64.toBitVec_inj.1
  apply BitVec.eq_of_getLsbD_eq
  intro k hk
  change (BitVec.ofInt 64 _).getLsbD k = (~~~BitVec.ofInt 64 i).getLsbD k
  rw [BitVec.getLsbD_not, getLsbD_ofInt _ hk, getLsbD_ofInt _ hk, Int.testBit_lnot]
  simp [hk]

/-- The integers that a slot holds as two's complement numbers. -/
def IsSigned (i : Int) : Prop := -2 ^ 63 ≤ i ∧ i < 2 ^ 63

/-- The integers that a slot holds as natural numbers. -/
def IsUnsigned (i : Int) : Prop := 0 ≤ i ∧ i < 2 ^ 64

theorem toInt_ofInt_of_signed (h : IsSigned i) : (ofInt i).toInt = i := by
  rw [toInt_ofInt]
  exact (bmod_two_pow_eq_self_iff (by decide) i).2 h

theorem toNat_ofInt_of_unsigned (h : IsUnsigned i) : ((ofInt i).toNat : Int) = i := by
  obtain ⟨h0, h1⟩ := h
  rw [toNat_ofInt]
  omega

theorem toInt_signed (v : Slot) : (signed v).toInt = v.toInt := rfl

theorem toInt_ofSigned (x : Int64) : (ofSigned x).toInt = x.toInt := rfl

theorem signed_div (hi : IsSigned i) (hj : IsSigned j) :
    ofSigned (signed (ofInt i) / signed (ofInt j)) = ofInt (i.tdiv j) := by
  rw [← toInt_inj, toInt_ofSigned, Int64.toInt_div, toInt_signed, toInt_signed,
    toInt_ofInt_of_signed hi, toInt_ofInt_of_signed hj, toInt_ofInt]

theorem signed_mod (hi : IsSigned i) (hj : IsSigned j) :
    ofSigned (signed (ofInt i) % signed (ofInt j)) = ofInt (i.tmod j) := by
  rw [← ofInt_toInt (ofSigned _), toInt_ofSigned, Int64.toInt_mod, toInt_signed, toInt_signed,
    toInt_ofInt_of_signed hi, toInt_ofInt_of_signed hj]

theorem unsigned_div (hi : IsUnsigned i) (hj : IsUnsigned j) :
    ofInt i / ofInt j = ofInt (i.tdiv j) := by
  rw [← ofInt_toNat (ofInt i / ofInt j), UInt64.toNat_div, Int.natCast_ediv,
    toNat_ofInt_of_unsigned hi, toNat_ofInt_of_unsigned hj, Int.tdiv_eq_ediv_of_nonneg hi.1]

theorem unsigned_mod (hi : IsUnsigned i) (hj : IsUnsigned j) :
    ofInt i % ofInt j = ofInt (i.tmod j) := by
  rw [← ofInt_toNat (ofInt i % ofInt j), UInt64.toNat_mod, Int.natCast_emod,
    toNat_ofInt_of_unsigned hi, toNat_ofInt_of_unsigned hj, Int.tmod_eq_emod_of_nonneg hi.1]

theorem ofInt_natCast_mod (m : Nat) : ofInt (m % 2 ^ 64 : Nat) = ofInt m := by
  apply UInt64.toNat_inj.1
  rw [toNat_ofInt, toNat_ofInt]
  omega

theorem shiftLeft_ofInt (i : Int) (y : Slot) : shiftLeft (ofInt i) y = ofInt (i * 2 ^ y.toNat) := by
  by_cases hy : y < 64
  · have hn : y.toNat < 64 := hy
    rw [shiftLeft, if_pos hy, ← ofInt_toNat (ofInt i <<< y), UInt64.toNat_shiftLeft,
      Nat.mod_eq_of_lt hn, Nat.shiftLeft_eq, ofInt_natCast_mod, Nat.cast_mul, ofInt_mul, ofInt_mul,
      ofInt_toNat, Nat.cast_pow, Nat.cast_ofNat]
  · have hn : 64 ≤ y.toNat := Nat.not_lt.1 hy
    have hz : i * 2 ^ y.toNat % 2 ^ 64 = 0 :=
      Int.emod_eq_zero_of_dvd (Dvd.dvd.mul_left (pow_dvd_pow 2 hn) i)
    apply UInt64.toNat_inj.1
    rw [shiftLeft, if_neg hy, toNat_ofInt, hz]
    rfl

theorem toInt_shiftRight (v : Slot) {c : Slot} (hc : c.toNat < 64) :
    (ofSigned (signed v >>> c.toInt64)).toInt = v.toInt / 2 ^ c.toNat := by
  have hs : c = c.toNat.toUInt64 := (UInt64.ofNat_toNat).symm
  change (v.toBitVec.sshiftRight' (BitVec.smod (c.toInt64).toBitVec 64#64)).toInt = _
  rw [BitVec.toInt_sshiftRight', hs, toNat_smod_width hc, Int.shiftRight_eq_div_pow, ← hs]
  rfl

theorem ediv_two_pow_of_signed (hi : IsSigned i) {k : Nat} (hk : 63 ≤ k) :
    i / 2 ^ k = if i < 0 then -1 else 0 := by
  obtain ⟨h0, h1⟩ := hi
  have hp : (2 : Int) ^ 63 ≤ 2 ^ k := pow_le_pow_right₀ (by decide) hk
  split
  · have hl : -1 ≤ i / 2 ^ k := (Int.le_ediv_iff_mul_le (by omega)).2 (by omega)
    have hu : i / 2 ^ k < 0 := (Int.ediv_lt_iff_lt_mul (by omega)).2 (by omega)
    omega
  · exact Int.ediv_eq_zero_of_lt (by omega) (by omega)

theorem shiftRightSigned_ofInt (hi : IsSigned i) (y : Slot) :
    shiftRightSigned (ofInt i) y = ofInt (i / 2 ^ y.toNat) := by
  rw [shiftRightSigned, ← ofInt_toInt (ofSigned _)]
  by_cases hy : y < 64
  · rw [if_pos hy, toInt_shiftRight _ hy, toInt_ofInt_of_signed hi]
  · have hn : 64 ≤ y.toNat := Nat.not_lt.1 hy
    rw [if_neg hy, toInt_shiftRight _ (by decide), toInt_ofInt_of_signed hi,
      ediv_two_pow_of_signed hi (by decide), ediv_two_pow_of_signed hi (by omega)]

theorem shiftRight_ofInt (hi : IsUnsigned i) (y : Slot) :
    shiftRight (ofInt i) y = ofInt (i / 2 ^ y.toNat) := by
  rw [shiftRight]
  by_cases hy : y < 64
  · have hn : y.toNat < 64 := hy
    rw [if_pos hy, ← ofInt_toNat (ofInt i >>> y), UInt64.toNat_shiftRight, Nat.mod_eq_of_lt hn,
      Nat.shiftRight_eq_div_pow, Int.natCast_ediv, toNat_ofInt_of_unsigned hi, Nat.cast_pow,
      Nat.cast_ofNat]
  · have hn : 64 ≤ y.toNat := Nat.not_lt.1 hy
    have hp : (2 : Int) ^ 64 ≤ 2 ^ y.toNat := pow_le_pow_right₀ (by decide) hn
    have hz : i / 2 ^ y.toNat = 0 := Int.ediv_eq_zero_of_lt hi.1 (by have := hi.2; omega)
    rw [if_neg hy, hz]
    rfl

end Slot

theorem Comparison.apply_signed (op : Comparison) {i j : Int} (hi : Slot.IsSigned i)
    (hj : Slot.IsSigned j) :
    op.apply .s (Slot.ofInt i) (Slot.ofInt j) = op.holds (compare i j) := by
  have hc (a b : Int64) : compare a b = compare a.toInt b.toInt := by
    simp only [compare, compareOfLessAndEq, Int64.lt_iff_toInt_lt, Int64.toInt_inj]
  simp only [apply, order?, hc, Slot.toInt_signed, Slot.toInt_ofInt_of_signed hi,
    Slot.toInt_ofInt_of_signed hj]

theorem Comparison.apply_unsigned (op : Comparison) {i j : Int} (hi : Slot.IsUnsigned i)
    (hj : Slot.IsUnsigned j) :
    op.apply .u (Slot.ofInt i) (Slot.ofInt j) = op.holds (compare i j) := by
  have hc (a b : UInt64) : compare a b = compare (a.toNat : Int) b.toNat := by
    simp only [compare, compareOfLessAndEq, UInt64.lt_iff_toNat_lt, Int.ofNat_lt, Int.ofNat_inj,
      UInt64.toNat_inj]
  simp only [apply, order?, hc, Slot.toNat_ofInt_of_unsigned hi, Slot.toNat_ofInt_of_unsigned hj]

namespace Slot

def Holds (signed : Bool) (i : Int) : Prop := if signed then IsSigned i else IsUnsigned i

theorem ofInt_eq_zero_iff {signed : Bool} {i : Int} (h : Holds signed i) :
    ofInt i = 0 ↔ i = 0 := by
  constructor
  · intro hz
    cases signed with
    | true =>
      have := toInt_ofInt_of_signed h
      rw [hz] at this
      exact this.symm
    | false =>
      have := toNat_ofInt_of_unsigned h
      rw [hz] at this
      exact this.symm
  · rintro rfl
    rfl

theorem isTrue_ofInt {signed : Bool} {i : Int} (h : Holds signed i) :
    isTrue (ofInt i) = decide (i ≠ 0) := by
  by_cases hi : i = 0
  · rw [hi]
    rfl
  · rw [decide_eq_true hi, isTrue, bne_iff_ne]
    exact mt (ofInt_eq_zero_iff h).1 hi

end Slot

namespace BinaryOp

/-- An operation on integers, before its result is brought back into range. Quotients go toward
zero, and a shift count is read as an unsigned 64-bit number. -/
def onInts (op : BinaryOp) (i j : Int) : Except Fault Int :=
  match op with
  | .add => .ok (i + j)
  | .sub => .ok (i - j)
  | .mul => .ok (i * j)
  | .div => if j = 0 then .error .divideByZero else .ok (i.tdiv j)
  | .mod => if j = 0 then .error .divideByZero else .ok (i.tmod j)
  | .shl => .ok (i * 2 ^ (j % 2 ^ 64).toNat)
  | .shr => .ok (i / 2 ^ (j % 2 ^ 64).toNat)
  | .bitAnd => .ok (i.land j)
  | .bitOr => .ok (i.lor j)
  | .bitXor => .ok (i.xor j)
  | .logAnd => .ok (if i ≠ 0 ∧ j ≠ 0 then 1 else 0)
  | .logOr => .ok (if i ≠ 0 ∨ j ≠ 0 then 1 else 0)

def isShift : BinaryOp → Bool
  | .shl | .shr => true
  | _ => false

theorem onIntegers_ofInt (op : BinaryOp) {signed : Bool} {i j : Int} (hi : Slot.Holds signed i)
    (hj : op.isShift = false → Slot.Holds signed j) :
    op.onIntegers signed (Slot.ofInt i) (Slot.ofInt j) = (op.onInts i j).map Slot.ofInt := by
  cases op with
  | add => rw [onIntegers, onInts, Except.map, Slot.ofInt_add]
  | sub => rw [onIntegers, onInts, Except.map, Slot.ofInt_sub]
  | mul => rw [onIntegers, onInts, Except.map, Slot.ofInt_mul]
  | div =>
    have hz := Slot.ofInt_eq_zero_iff (hj rfl)
    rw [onIntegers, onInts]
    by_cases h : j = 0
    · rw [if_pos h, if_pos (hz.2 h)]
      rfl
    · rw [if_neg h, if_neg (mt hz.1 h)]
      cases signed with
      | true => exact congrArg Except.ok (Slot.signed_div hi (hj rfl))
      | false => exact congrArg Except.ok (Slot.unsigned_div hi (hj rfl))
  | mod =>
    have hz := Slot.ofInt_eq_zero_iff (hj rfl)
    rw [onIntegers, onInts]
    by_cases h : j = 0
    · rw [if_pos h, if_pos (hz.2 h)]
      rfl
    · rw [if_neg h, if_neg (mt hz.1 h)]
      cases signed with
      | true => exact congrArg Except.ok (Slot.signed_mod hi (hj rfl))
      | false => exact congrArg Except.ok (Slot.unsigned_mod hi (hj rfl))
  | shl => rw [onIntegers, onInts, Except.map, Slot.shiftLeft_ofInt, Slot.toNat_ofInt]
  | shr =>
    rw [onIntegers, onInts, Except.map, ← Slot.toNat_ofInt]
    cases signed with
    | true => exact congrArg Except.ok (Slot.shiftRightSigned_ofInt hi _)
    | false => exact congrArg Except.ok (Slot.shiftRight_ofInt hi _)
  | bitAnd => rw [onIntegers, onInts, Except.map, Slot.ofInt_land]
  | bitOr => rw [onIntegers, onInts, Except.map, Slot.ofInt_lor]
  | bitXor => rw [onIntegers, onInts, Except.map, Slot.ofInt_xor]
  | logAnd =>
    rw [onIntegers, onInts, Slot.isTrue_ofInt hi, Slot.isTrue_ofInt (hj rfl), ← Bool.decide_and]
    by_cases h : i ≠ 0 ∧ j ≠ 0
    · rw [if_pos h, decide_eq_true h]
      rfl
    · rw [if_neg h, decide_eq_false h]
      rfl
  | logOr =>
    rw [onIntegers, onInts, Slot.isTrue_ofInt hi, Slot.isTrue_ofInt (hj rfl), ← Bool.decide_or]
    by_cases h : i ≠ 0 ∨ j ≠ 0
    · rw [if_pos h, decide_eq_true h]
      rfl
    · rw [if_neg h, decide_eq_false h]
      rfl

end BinaryOp

end WatchExpr
