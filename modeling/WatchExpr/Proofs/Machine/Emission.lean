import Mathlib.Algebra.Ring.Nat
import WatchExpr.Proofs.Machine.Drive

namespace WatchExpr

@[simp] theorem length_littleEndian (n : Nat) (v : UInt64) : (littleEndian n v).length = n := by
  induction n generalizing v with
  | zero => rfl
  | succ n ih => simp [littleEndian, ih]

theorem toNat_ofLittleEndian_cons {b : UInt8} {rest : List UInt8}
    (h : (ofLittleEndian rest).toNat < 2 ^ 56) :
    (ofLittleEndian (b :: rest)).toNat = b.toNat + 256 * (ofLittleEndian rest).toNat := by
  have hb := b.toNat_lt
  simp only [ofLittleEndian, UInt64.toNat_or, UInt64.toNat_shiftLeft, UInt8.toNat_toUInt64]
  rw [Nat.or_comm, Nat.mod_eq_of_lt (by simp [Nat.shiftLeft_eq]; omega)]
  rw [show (8 : UInt64).toNat % 64 = 8 from rfl, ← Nat.shiftLeft_add_eq_or_of_lt hb]
  simp [Nat.shiftLeft_eq]
  omega

/-- A number of at most eight bytes stays below the power they span. -/
theorem toNat_ofLittleEndian_lt {bytes : List UInt8} (h : bytes.length ≤ 8) :
    (ofLittleEndian bytes).toNat < 2 ^ (8 * bytes.length) := by
  induction bytes with
  | nil => simp [ofLittleEndian]
  | cons b rest ih =>
    simp only [List.length_cons] at h ⊢
    have hr := ih (by omega)
    have hp : 2 ^ (8 * rest.length) ≤ 2 ^ 56 := Nat.pow_le_pow_right (by decide) (by omega)
    have hb := b.toNat_lt
    rw [toNat_ofLittleEndian_cons (by omega), Nat.mul_succ, Nat.pow_add]
    omega

theorem toNat_ofLittleEndian_take (n : Nat) {bytes : List UInt8} (h : bytes.length ≤ 8) :
    (ofLittleEndian (bytes.take n)).toNat = (ofLittleEndian bytes).toNat % 2 ^ (8 * n) := by
  induction bytes generalizing n with
  | nil => simp [ofLittleEndian]
  | cons b rest ih =>
    rw [List.length_cons] at h
    have hp : 2 ^ (8 * rest.length) ≤ 2 ^ 56 := Nat.pow_le_pow_right (by decide) (by omega)
    have hrest : (ofLittleEndian rest).toNat < 2 ^ (8 * rest.length) :=
      toNat_ofLittleEndian_lt (by omega)
    cases n with
    | zero => simp [ofLittleEndian, Nat.mod_one]
    | succ n =>
      have hle := Nat.mod_le (ofLittleEndian rest).toNat (2 ^ (8 * n))
      have hb := b.toNat_lt
      have hdiv : (b.toNat + 256 * (ofLittleEndian rest).toNat) / 2 ^ 8 =
          (ofLittleEndian rest).toNat := by omega
      rw [List.take_succ_cons, toNat_ofLittleEndian_cons (by rw [ih n (by omega)]; omega),
        toNat_ofLittleEndian_cons (by omega), ih n (by omega), Nat.mul_succ, Nat.add_comm (8 * n),
        Nat.pow_add, Nat.mod_mul, hdiv]
      omega

/-- The bytes of a number give back its low bytes. -/
theorem toNat_ofLittleEndian_littleEndian {n : Nat} (hn : n ≤ 8) (v : UInt64) :
    (ofLittleEndian (littleEndian n v)).toNat = v.toNat % 2 ^ (8 * n) := by
  induction n generalizing v with
  | zero => simp [littleEndian, ofLittleEndian, Nat.mod_one]
  | succ n ih =>
    have hl : (ofLittleEndian (littleEndian n (v >>> 8))).toNat < 2 ^ (8 * n) := by
      rw [ih (by omega)]
      exact Nat.mod_lt _ (Nat.two_pow_pos _)
    have hp : 2 ^ (8 * n) ≤ 2 ^ 56 := Nat.pow_le_pow_right (by decide) (by omega)
    rw [littleEndian, toNat_ofLittleEndian_cons (by omega), ih (by omega)]
    rw [show 8 * (n + 1) = 8 + 8 * n by omega, Nat.pow_add, Nat.mod_mul]
    simp [Nat.shiftRight_eq_div_pow]

theorem ofLittleEndian_littleEndian {n : Nat} (hn : n ≤ 8) {v : UInt64}
    (hv : v.toNat < 2 ^ (8 * n)) : ofLittleEndian (littleEndian n v) = v := by
  apply UInt64.toNat_inj.1
  rw [toNat_ofLittleEndian_littleEndian hn, Nat.mod_eq_of_lt hv]

theorem Opcode.operandLength_le (op : Opcode) : op.operandLength ≤ 8 := by
  cases op with
  | const w => cases w <;> decide
  | _ => simp [operandLength]

namespace Instruction

/-- What is left of an instruction in its bytes: the immediate is cut to its width. -/
def stored (i : Instruction) : Instruction :=
  ⟨i.op, ofLittleEndian (littleEndian i.op.operandLength i.operand)⟩

theorem stored_eq_self {i : Instruction} (h : i.operand.toNat < 2 ^ (8 * i.op.operandLength)) :
    i.stored = i := by
  rw [stored, ofLittleEndian_littleEndian i.op.operandLength_le h]

theorem decode_encode {i : Instruction} (h : i.op.isValid) (rest : List UInt8) :
    decode i.op.toByte (littleEndian i.op.operandLength i.operand ++ rest) =
      .ok (i.stored, rest) := by
  simp only [decode, Opcode.ofByte_toByte h]
  rw [List.take_left' (length_littleEndian _ _), List.drop_left' (length_littleEndian _ _)]
  simp [h, stored]

end Instruction

namespace Code

theorem decode_append {b : UInt8} {rest after : List UInt8} {i : Instruction}
    (h : Instruction.decode b rest = .ok (i, after)) (tail : List UInt8) :
    Instruction.decode b (rest ++ tail) = .ok (i, after ++ tail) := by
  simp only [Instruction.decode] at h ⊢
  split at h
  · cases h
  · rename_i hv
    split at h
    · cases h
    · rename_i hl
      simp only [List.length_take] at hl
      have hle : (Opcode.ofByte b).operandLength ≤ rest.length := by omega
      cases h
      rw [if_neg hv, List.take_append_of_le_length hle, List.drop_append_of_le_length hle, if_neg]
      rw [List.length_take]
      omega

/-- A program followed by a program is a program: no jump goes further than before. -/
theorem validateFrom_append {code tail : List UInt8} {offset : Nat}
    (h : validateFrom offset code = .ok ()) (ht : ∀ offset, validateFrom offset tail = .ok ()) :
    validateFrom offset (code ++ tail) = .ok () := by
  fun_induction validateFrom offset code with
  | case1 offset => exact ht offset
  | case2 => cases h
  | case3 => cases h
  | case4 offset b rest i after hd hj ih =>
    rw [List.cons_append, validateFrom]
    split
    · rename_i d hd'
      rw [decode_append hd] at hd'
      cases hd'
    · rename_i i' after' hd'
      rw [decode_append hd] at hd'
      cases hd'
      rw [if_neg]
      · exact ih h
      · simp only [Bool.and_eq_true, decide_eq_true_eq, List.length_append] at hj ⊢
        rintro ⟨hop, hlt⟩
        exact hj ⟨hop, by omega⟩

theorem validateFrom_encode {i : Instruction} (hv : i.op.isValid) (hj : i.op.isJump = false)
    (offset : Nat) : validateFrom offset i.encode = .ok () := by
  have hd := Instruction.decode_encode hv []
  rw [List.append_nil] at hd
  rw [Instruction.encode, validateFrom]
  split
  · rename_i d hd'
    rw [hd] at hd'
    cases hd'
  · rename_i i' after hd'
    rw [hd] at hd'
    cases hd'
    rw [if_neg (by simp [Instruction.stored, hj]), validateFrom]

theorem validate_concat {code : List UInt8} {i : Instruction} (h : validate code = .ok ())
    (hv : i.op.isValid) (hj : i.op.isJump = false) : validate (code ++ i.encode) = .ok () :=
  validateFrom_append h (validateFrom_encode hv hj)

end Code

namespace Machine

/-- The machine carries out the instruction in front and goes on behind it. -/
theorem drive_encode (m : Machine) {i : Instruction} (h : i.op.isValid) (rest : List UInt8)
    (stack : List Slot) (reads : List MemoryRead) :
    m.drive ⟨i.encode ++ rest, stack, reads⟩ =
      match m.check i.stored stack.length with
      | .error f => .fault f reads
      | .ok () => (m.perform i.stored ⟨rest, stack, reads⟩).andThen m.drive := by
  rw [Instruction.encode, List.cons_append, drive_cons, step, Instruction.decode_encode h]
  simp only
  cases m.check i.stored stack.length with
  | error f => rfl
  | ok u => rfl

theorem check_eq_ok {m : Machine} {i : Instruction} {depth : Nat} (hp : i.op.pops ≤ depth)
    (hg : i.op.hasGroup → i.op.accepts i.group)
    (hc : depth - i.op.pops + i.op.pushes ≤ m.capacity) : m.check i depth = .ok () := by
  rw [check, if_neg (by omega), if_neg (by simpa using hg), if_neg (by omega)]

end Machine
end WatchExpr
