import WatchExpr.Proofs.Machine.Arithmetic
import WatchExpr.Types.Kind

namespace WatchExpr

/-- The integers of some bits and a sign. -/
def Fits (n : Nat) (i : Int) : Prop := -2 ^ n ≤ i ∧ i < 2 ^ n

namespace Fits

variable {n m : Nat} {i j : Int}

theorem natCast_iff : Fits n (m : Int) ↔ m < 2 ^ n := by
  have hp : ((2 ^ n : Nat) : Int) = 2 ^ n := by push_cast; rfl
  rw [Fits, ← hp]
  omega

theorem negSucc_iff : Fits n (Int.negSucc m) ↔ m < 2 ^ n := by
  have hp : ((2 ^ n : Nat) : Int) = 2 ^ n := by push_cast; rfl
  rw [Fits, ← hp]
  omega

theorem ldiff_lt (hm : m < 2 ^ n) (k : Nat) : Nat.ldiff m k < 2 ^ n := by
  apply Nat.lt_pow_two_of_testBit
  intro p hp
  have hlt : m < 2 ^ p := Nat.lt_of_lt_of_le hm (Nat.pow_le_pow_right (by decide) hp)
  rw [Nat.testBit_ldiff, Nat.testBit_lt_two_pow hlt]
  rfl

theorem land (hi : Fits n i) (hj : Fits n j) : Fits n (i.land j) := by
  cases i with
  | ofNat a =>
    cases j with
    | ofNat b => exact natCast_iff.2 (Nat.and_lt_two_pow _ (natCast_iff.1 hj))
    | negSucc b => exact natCast_iff.2 (ldiff_lt (natCast_iff.1 hi) b)
  | negSucc a =>
    cases j with
    | ofNat b => exact natCast_iff.2 (ldiff_lt (natCast_iff.1 hj) a)
    | negSucc b => exact negSucc_iff.2 (Nat.or_lt_two_pow (negSucc_iff.1 hi) (negSucc_iff.1 hj))

theorem lor (hi : Fits n i) (hj : Fits n j) : Fits n (i.lor j) := by
  cases i with
  | ofNat a =>
    cases j with
    | ofNat b => exact natCast_iff.2 (Nat.or_lt_two_pow (natCast_iff.1 hi) (natCast_iff.1 hj))
    | negSucc b => exact negSucc_iff.2 (ldiff_lt (negSucc_iff.1 hj) a)
  | negSucc a =>
    cases j with
    | ofNat b => exact negSucc_iff.2 (ldiff_lt (negSucc_iff.1 hi) b)
    | negSucc b => exact negSucc_iff.2 (Nat.and_lt_two_pow _ (negSucc_iff.1 hj))

theorem xor (hi : Fits n i) (hj : Fits n j) : Fits n (i.xor j) := by
  cases i with
  | ofNat a =>
    cases j with
    | ofNat b => exact natCast_iff.2 (Nat.xor_lt_two_pow (natCast_iff.1 hi) (natCast_iff.1 hj))
    | negSucc b => exact negSucc_iff.2 (Nat.xor_lt_two_pow (natCast_iff.1 hi) (negSucc_iff.1 hj))
  | negSucc a =>
    cases j with
    | ofNat b => exact negSucc_iff.2 (Nat.xor_lt_two_pow (negSucc_iff.1 hi) (natCast_iff.1 hj))
    | negSucc b => exact natCast_iff.2 (Nat.xor_lt_two_pow (negSucc_iff.1 hi) (negSucc_iff.1 hj))

theorem tmod (hi : Fits n i) (j : Int) : Fits n (i.tmod j) := by
  obtain ⟨h0, h1⟩ := hi
  have ha : (i.tmod j).natAbs ≤ i.natAbs := by
    rw [Int.natAbs_tmod]
    exact Nat.mod_le _ _
  rcases Int.le_total 0 i with hs | hs
  · have hl := Int.tmod_nonneg j hs
    constructor <;> omega
  · have hl := Int.tmod_nonneg j (a := -i) (by omega)
    rw [Int.neg_tmod] at hl
    have hp : (0 : Int) < 2 ^ n := Int.pow_pos (by decide)
    constructor <;> omega

theorem ediv (hi : Fits n i) (k : Nat) : Fits n (i / 2 ^ k) := by
  obtain ⟨h0, h1⟩ := hi
  have ha := Int.natAbs_ediv_le_natAbs i (2 ^ k)
  have hp : (0 : Int) < 2 ^ k := Int.pow_pos (by decide)
  have hs := Int.ediv_nonneg_iff_of_pos (a := i) hp
  constructor <;> omega

end Fits

namespace BasicKind

def bits (b : BasicKind) : Nat := 8 * b.size.toNat

def isSigned (b : BasicKind) : Bool := b.group == .s

/-- The integer kinds that fit a slot. -/
def IsWord (b : BasicKind) : Prop := b.group.isInteger ∧ b.size ≤ 8

instance (b : BasicKind) : Decidable b.IsWord := inferInstanceAs (Decidable (_ ∧ _))

/-- The integers of a kind. -/
def InRange (b : BasicKind) (i : Int) : Prop :=
  if b.isSigned then -2 ^ (b.bits - 1) ≤ i ∧ i < 2 ^ (b.bits - 1) else 0 ≤ i ∧ i < 2 ^ b.bits

/-- Brings an integer into the range of a kind, modulo its width. -/
def wrap (b : BasicKind) (i : Int) : Int :=
  if b.isSigned then i.bmod (2 ^ b.bits) else i % 2 ^ b.bits

/-- Extends a slot from the width of a kind according to its sign. -/
def extend (b : BasicKind) (v : Slot) : Slot :=
  if b.isSigned then Slot.signExtend b.bits v else Slot.truncate b.bits v

/-- The integer kinds that are narrower than a slot. -/
def IsNarrow (b : BasicKind) : Prop := b.group.isInteger ∧ b.size < 8

instance (b : BasicKind) : Decidable b.IsNarrow := inferInstanceAs (Decidable (_ ∧ _))

variable {b : BasicKind} {i j : Int}

theorem IsNarrow.isWord (h : b.IsNarrow) : b.IsWord := ⟨h.1, UInt64.le_of_lt h.2⟩

theorem IsWord.bits_le (h : b.IsWord) : 0 < b.bits ∧ b.bits ≤ 64 := by
  cases b <;> revert h <;> decide

theorem IsWord.group_eq (h : b.IsWord) : b.group = if b.isSigned then .s else .u := by
  cases b <;> revert h <;> decide

theorem inRange_of_signed (hs : b.isSigned = true) : b.InRange i ↔ Fits (b.bits - 1) i := by
  rw [InRange, if_pos hs, Fits]

theorem inRange_of_unsigned (hs : b.isSigned = false) :
    b.InRange i ↔ 0 ≤ i ∧ Fits b.bits i := by
  have hp : (0 : Int) < 2 ^ b.bits := Int.pow_pos (by decide)
  rw [InRange, if_neg (by simp [hs]), Fits]
  constructor
  · rintro ⟨h0, h1⟩
    exact ⟨h0, by omega, h1⟩
  · rintro ⟨h0, -, h1⟩
    exact ⟨h0, h1⟩

theorem inRange_zero (b : BasicKind) : b.InRange 0 := by
  have hp : ∀ n : Nat, (0 : Int) < 2 ^ n := fun n => Int.pow_pos (by decide)
  have hs := hp (b.bits - 1)
  have hu := hp b.bits
  rw [InRange]
  split
  · omega
  · omega

theorem InRange.holds (hb : b.IsWord) (h : b.InRange i) : Slot.Holds b.isSigned i := by
  obtain ⟨h0, h64⟩ := hb.bits_le
  rw [InRange] at h
  rw [Slot.Holds]
  split
  · rename_i hs
    rw [if_pos hs] at h
    have hp : (2 : Int) ^ (b.bits - 1) ≤ 2 ^ 63 := pow_le_pow_right₀ (by decide) (by omega)
    exact ⟨by omega, by omega⟩
  · rename_i hs
    rw [if_neg hs] at h
    have hp : (2 : Int) ^ b.bits ≤ 2 ^ 64 := pow_le_pow_right₀ (by decide) h64
    exact ⟨h.1, by omega⟩

theorem wrap_of_inRange (hb : b.IsWord) (h : b.InRange i) : b.wrap i = i := by
  rw [InRange] at h
  rw [wrap]
  split
  · rename_i hs
    rw [if_pos hs] at h
    exact (Slot.bmod_two_pow_eq_self_iff hb.bits_le.1 i).2 h
  · rename_i hs
    rw [if_neg hs] at h
    exact Int.emod_eq_of_lt h.1 h.2

theorem inRange_wrap (hb : b.IsWord) (i : Int) : b.InRange (b.wrap i) := by
  rw [InRange, wrap]
  split
  · have hm : (i.bmod (2 ^ b.bits)).bmod (2 ^ b.bits) = i.bmod (2 ^ b.bits) := Int.bmod_bmod
    exact (Slot.bmod_two_pow_eq_self_iff hb.bits_le.1 _).1 hm
  · have hp : (0 : Int) < 2 ^ b.bits := Int.pow_pos (by decide)
    exact ⟨Int.emod_nonneg _ (by omega), Int.emod_lt_of_pos _ hp⟩

theorem extend_ofInt (hb : b.IsWord) (i : Int) :
    b.extend (Slot.ofInt i) = Slot.ofInt (b.wrap i) := by
  rw [extend, wrap]
  split
  · exact Slot.signExtend_ofInt hb.bits_le.2 i
  · exact Slot.truncate_ofInt hb.bits_le.2 i

theorem extend_eq_self_iff (hb : b.IsWord) {v : Slot} :
    b.extend v = v ↔ ∃ i, b.InRange i ∧ v = Slot.ofInt i := by
  constructor
  · intro h
    refine ⟨b.wrap v.toInt, inRange_wrap hb _, ?_⟩
    rw [← extend_ofInt hb, Slot.ofInt_toInt, h]
  · rintro ⟨i, hi, rfl⟩
    rw [extend_ofInt hb, wrap_of_inRange hb hi]

theorem extend_extend (hb : b.IsWord) (v : Slot) : b.extend (b.extend v) = b.extend v := by
  rw [extend_eq_self_iff hb]
  refine ⟨b.wrap v.toInt, inRange_wrap hb _, ?_⟩
  rw [← extend_ofInt hb, Slot.ofInt_toInt]

/-- A wider kind of the same sign holds what a narrower one does. -/
theorem InRange.of_size_le {a : BasicKind} (hs : a.isSigned = b.isSigned) (hl : a.size ≤ b.size)
    (h : a.InRange i) : b.InRange i := by
  have hbits : a.bits ≤ b.bits := Nat.mul_le_mul_left 8 (UInt64.le_iff_toNat_le.1 hl)
  rw [InRange, hs] at h
  rw [InRange]
  split
  · rename_i hb
    rw [if_pos hb] at h
    have hp : (2 : Int) ^ (a.bits - 1) ≤ 2 ^ (b.bits - 1) :=
      pow_le_pow_right₀ (by decide) (Nat.sub_le_sub_right hbits 1)
    omega
  · rename_i hb
    rw [if_neg hb] at h
    have hp : (2 : Int) ^ a.bits ≤ 2 ^ b.bits := pow_le_pow_right₀ (by decide) hbits
    omega

theorem extend_of_size_le {a : BasicKind} (ha : a.IsWord) (hb : b.IsWord)
    (hs : a.isSigned = b.isSigned) (hl : a.size ≤ b.size) {v : Slot} (h : a.extend v = v) :
    b.extend v = v := by
  obtain ⟨i, hi, rfl⟩ := (extend_eq_self_iff ha).1 h
  exact (extend_eq_self_iff hb).2 ⟨i, hi.of_size_le hs hl, rfl⟩

/-- A natural number below the power of an unsigned kind is canonical. -/
theorem extend_of_toNat_lt (hb : b.IsWord) (hs : b.isSigned = false) {v : Slot}
    (h : v.toNat < 2 ^ b.bits) : b.extend v = v := by
  have hp : ((2 ^ b.bits : Nat) : Int) = 2 ^ b.bits := by push_cast; rfl
  refine (extend_eq_self_iff hb).2 ⟨v.toNat, ?_, (Slot.ofInt_toNat v).symm⟩
  rw [InRange, if_neg (by simp [hs]), ← hp]
  exact ⟨Int.natCast_nonneg _, Int.ofNat_lt.2 h⟩

/-- The operations that never leave the range of their left operand's kind. -/
theorem InRange.onInts {op : BinaryOp} (hi : b.InRange i)
    (hj : op.isShift = false → b.InRange j)
    (hop : op ∈ [.mod, .shr, .bitAnd, .bitXor, .bitOr]) {r : Int} (h : op.onInts i j = .ok r) :
    b.InRange r := by
  cases hs : b.isSigned with
  | true =>
    rw [inRange_of_signed hs] at hi hj ⊢
    cases op with
    | mod =>
      rw [BinaryOp.onInts] at h
      split at h <;> cases h
      exact hi.tmod j
    | shr => cases h; exact hi.ediv _
    | bitAnd => cases h; exact hi.land (hj rfl)
    | bitOr => cases h; exact hi.lor (hj rfl)
    | bitXor => cases h; exact hi.xor (hj rfl)
    | _ => simp at hop
  | false =>
    rw [inRange_of_unsigned hs] at hi hj ⊢
    obtain ⟨h0, hi⟩ := hi
    have hnat (hop : op.isShift = false) : ∃ m n : Nat, i = m ∧ j = n :=
      ⟨i.toNat, j.toNat, (Int.toNat_of_nonneg h0).symm, (Int.toNat_of_nonneg (hj hop).1).symm⟩
    cases op with
    | mod =>
      rw [BinaryOp.onInts] at h
      split at h <;> cases h
      exact ⟨Int.tmod_nonneg j h0, hi.tmod j⟩
    | shr =>
      cases h
      exact ⟨Int.ediv_nonneg h0 (Int.le_of_lt (Int.pow_pos (by decide))), hi.ediv _⟩
    | bitAnd =>
      cases h
      refine ⟨?_, hi.land (hj rfl).2⟩
      obtain ⟨m, n, rfl, rfl⟩ := hnat rfl
      exact Int.natCast_nonneg _
    | bitOr =>
      cases h
      refine ⟨?_, hi.lor (hj rfl).2⟩
      obtain ⟨m, n, rfl, rfl⟩ := hnat rfl
      exact Int.natCast_nonneg _
    | bitXor =>
      cases h
      refine ⟨?_, hi.xor (hj rfl).2⟩
      obtain ⟨m, n, rfl, rfl⟩ := hnat rfl
      exact Int.natCast_nonneg _
    | _ => simp at hop

end BasicKind

theorem BinaryOp.apply_group {b : BasicKind} (hb : b.IsWord) (o : BinaryOp) (x y : Slot) :
    o.apply b.group x y = o.onIntegers b.isSigned x y := by
  rw [hb.group_eq]
  cases b.isSigned <;> rfl

end WatchExpr
