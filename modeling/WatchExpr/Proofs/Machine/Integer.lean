import Mathlib.Algebra.Order.Ring.Int
import WatchExpr.Machine.Slot

namespace WatchExpr

namespace Slot

theorem toNat_smod_width {s : Nat} (hs : s < 64) :
    (BitVec.smod (s.toUInt64.toInt64).toBitVec 64#64).toNat = s := by
  have h : ∀ s < 64, (BitVec.smod (s.toUInt64.toInt64).toBitVec 64#64).toNat = s := by decide
  exact h s hs

theorem toBitVec_shiftLeft_of_lt (v : Slot) {s : Nat} (hs : s < 64) :
    (v <<< s.toUInt64).toBitVec = v.toBitVec <<< s := by
  have h : (s.toUInt64.toBitVec % 64#64).toNat = s := by
    simp [BitVec.toNat_umod]
    omega
  change v.toBitVec <<< (s.toUInt64.toBitVec % 64#64) = _
  rw [BitVec.shiftLeft_eq', h]

theorem toBitVec_signExtend (n : Nat) (v : Slot) :
    (signExtend n v).toBitVec = (v.toBitVec.setWidth n).signExtend 64 := by
  unfold signExtend
  split
  · rename_i h
    rw [BitVec.signExtend_eq_setWidth_of_le _ h, BitVec.setWidth_setWidth_of_le _ h]
    simp
  · split
    · subst_vars
      apply BitVec.eq_of_toInt_eq
      rw [BitVec.toInt_signExtend_of_le (Nat.zero_le _)]
      simp
    · rename_i h h0
      apply BitVec.eq_of_getLsbD_eq
      intro i hi
      change ((v <<< (64 - n).toUInt64).toBitVec.sshiftRight'
        (BitVec.smod ((64 - n).toUInt64.toInt64).toBitVec 64#64)).getLsbD i = _
      rw [BitVec.getLsbD_sshiftRight', toNat_smod_width (by omega), BitVec.getLsbD_signExtend,
        toBitVec_shiftLeft_of_lt v (show 64 - n < 64 by omega), BitVec.msb_eq_getLsbD_last,
        BitVec.msb_eq_getLsbD_last]
      simp only [BitVec.getLsbD_shiftLeft, BitVec.getLsbD_setWidth]
      by_cases hin : i < n
      · simp [hi, hin, show 64 - n + i < 64 by omega, show ¬ 64 ≤ i by omega]
      · simp [hi, hin, show ¬ 64 - n + i < 64 by omega, show ¬ 64 ≤ i by omega,
          show ¬ 63 < 64 - n by omega, show 63 - (64 - n) = n - 1 by omega, show n - 1 < n by omega]

theorem toNat_truncate {n : Nat} (h : n < 64) (v : Slot) :
    (truncate n v).toNat = v.toNat % 2 ^ n := by
  have hm : ((1 <<< n.toUInt64 : Slot) - 1).toNat = 2 ^ n - 1 := by
    have hp : 2 ^ n < 2 ^ 64 := Nat.pow_lt_pow_right (by decide) h
    have hs : (1 <<< n.toUInt64 : Slot).toNat = 2 ^ n := by
      rw [UInt64.toNat_shiftLeft]
      simp [Nat.shiftLeft_eq, Nat.mod_eq_of_lt h]
      omega
    have h1 : (1 : Slot) ≤ 1 <<< n.toUInt64 := by
      rw [UInt64.le_iff_toNat_le, hs]
      exact Nat.one_le_two_pow
    rw [UInt64.toNat_sub_of_le _ _ h1, hs]
    rfl
  rw [truncate, if_neg (by omega), UInt64.toNat_and, hm, Nat.and_two_pow_sub_one_eq_mod]

/-- The value of a slot read as a two's complement number. -/
def toInt (v : Slot) : Int := v.toBitVec.toInt

/-- The slot that holds an integer modulo two to the 64th. -/
def ofInt (i : Int) : Slot := UInt64.ofBitVec (BitVec.ofInt 64 i)

theorem toInt_signExtend {n : Nat} (h : n ≤ 64) (v : Slot) :
    (signExtend n v).toInt = v.toInt.bmod (2 ^ n) := by
  rw [toInt, toInt, toBitVec_signExtend, BitVec.toInt_signExtend_of_le h, BitVec.toInt_setWidth,
    BitVec.toInt_eq_toNat_bmod, Int.bmod_bmod_of_dvd (Nat.pow_dvd_pow 2 h)]

@[simp] theorem ofInt_toInt (v : Slot) : ofInt v.toInt = v := by
  simp [ofInt, toInt]

theorem toInt_ofInt (i : Int) : (ofInt i).toInt = i.bmod (2 ^ 64) := by
  simp [ofInt, toInt]

theorem toInt_inj {v w : Slot} : v.toInt = w.toInt ↔ v = w := by
  constructor
  · intro h
    rw [← ofInt_toInt v, h, ofInt_toInt]
  · exact congrArg toInt

theorem bmod_two_pow_eq_self_iff {n : Nat} (h0 : 0 < n) (i : Int) :
    i.bmod (2 ^ n) = i ↔ -2 ^ (n - 1) ≤ i ∧ i < 2 ^ (n - 1) := by
  obtain ⟨k, rfl⟩ : ∃ k, n = k + 1 := ⟨n - 1, by omega⟩
  have hp : ((2 ^ (k + 1) : Nat) : Int) = 2 * 2 ^ k := by
    push_cast
    rw [Int.pow_succ, Int.mul_comm]
  have hpos : (0 : Int) < 2 ^ k := Int.pow_pos (by decide)
  simp only [Nat.add_sub_cancel]
  constructor
  · intro h
    have h1 := Int.le_bmod (x := i) (m := 2 ^ (k + 1)) (Nat.two_pow_pos _)
    have h2 := Int.bmod_lt (x := i) (m := 2 ^ (k + 1)) (Nat.two_pow_pos _)
    rw [h, hp] at h1 h2
    omega
  · rintro ⟨h1, h2⟩
    apply Int.bmod_eq_of_le <;> omega

theorem signExtend_congr {n : Nat} {v w : Slot} (h : v.toNat % 2 ^ n = w.toNat % 2 ^ n) :
    signExtend n v = signExtend n w := by
  apply UInt64.toBitVec_inj.1
  rw [toBitVec_signExtend, toBitVec_signExtend]
  congr 1
  apply BitVec.eq_of_toNat_eq
  rw [BitVec.toNat_setWidth, BitVec.toNat_setWidth]
  exact h

/-- A slot is its own sign extension when its value fits the narrower width. -/
theorem signExtend_eq_self_iff {n : Nat} (h0 : 0 < n) (h : n ≤ 64) (v : Slot) :
    signExtend n v = v ↔ -2 ^ (n - 1) ≤ v.toInt ∧ v.toInt < 2 ^ (n - 1) := by
  rw [← toInt_inj, toInt_signExtend h, bmod_two_pow_eq_self_iff h0]

end Slot

end WatchExpr
