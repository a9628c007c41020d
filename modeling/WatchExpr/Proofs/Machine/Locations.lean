import WatchExpr.Proofs.Machine.Fragment

namespace WatchExpr

theorem Arch.pointerSize_bounds (a : Arch) : 1 ≤ a.pointerSize ∧ a.pointerSize ≤ 8 := by
  cases a <;> decide

namespace Target

/-- Some bytes of the register block as a little-endian number. -/
def window (t : Target) (offset size : Nat) : Slot :=
  ofLittleEndian ((t.registerBlock.drop offset).take size)

theorem window_lt (t : Target) (offset : Nat) {size : Nat} (h : size ≤ 8) :
    (t.window offset size).toNat < 2 ^ (8 * size) := by
  have hl : ((t.registerBlock.drop offset).take size).length ≤ size := List.length_take_le _ _
  refine Nat.lt_of_lt_of_le (toNat_ofLittleEndian_lt (Nat.le_trans hl h)) ?_
  exact Nat.pow_le_pow_right (by decide) (Nat.mul_le_mul_left 8 hl)

theorem blockWord?_eq_window {t : Target} {offset size : Nat} (hs : 1 ≤ size ∧ size ≤ 8)
    (ho : offset < 2 ^ 64) (hb : offset + size ≤ t.registerBlock.length) :
    blockWord? t.registerBlock offset.toUInt64 size = some (t.window offset size) := by
  have hn : offset.toUInt64.toNat = offset := UInt64.toNat_ofNat_of_lt ho
  rw [blockWord?, hn, if_pos ⟨hs.1, hs.2, hb⟩, window]

/-- Of some bytes in the block, the lower ones are left by a truncation. -/
theorem truncate_window (t : Target) (offset : Nat) {size n : Nat} (hs : size ≤ n) (hn : n ≤ 8) :
    Slot.truncate (8 * size) (t.window offset n) = t.window offset size := by
  have hlen : ((t.registerBlock.drop offset).take n).length ≤ 8 :=
    Nat.le_trans (List.length_take_le _ _) hn
  have htake : (t.registerBlock.drop offset).take size =
      ((t.registerBlock.drop offset).take n).take size := by
    rw [List.take_take, Nat.min_eq_left hs]
  have hw := toNat_ofLittleEndian_take size hlen
  rw [← htake] at hw
  apply UInt64.toNat_inj.1
  rcases Nat.lt_or_ge size 8 with h8 | h8
  · rw [Slot.toNat_truncate (by omega), window, window, hw]
  · obtain rfl : size = n := by omega
    rw [Slot.truncate, if_pos (by omega)]

end Target

theorem Machine.readRegister_lt {m : Machine} {operand : UInt64} {v : Slot}
    (h : m.readRegister operand = .ok v) :
    v.toNat < 2 ^ (8 * (operand >>> 8).toUInt8.toNat) := by
  simp only [readRegister] at h
  split at h
  · cases h
  · split at h
    · cases h
    · simp only [readBlock] at h
      split at h
      · cases h
      · split at h <;> cases h
        rename_i hw
        simp only [Target.blockWord?] at hw
        split at hw <;> cases hw
        rename_i hs
        have hl : ∀ bytes : List UInt8, bytes.length ≤ (operand >>> 8).toUInt8.toNat →
            (ofLittleEndian bytes).toNat < 2 ^ (8 * (operand >>> 8).toUInt8.toNat) := by
          intro bytes hb
          exact Nat.lt_of_lt_of_le (toNat_ofLittleEndian_lt (by omega))
            (Nat.pow_le_pow_right (by decide) (by omega))
        apply hl
        rw [List.length_take]
        exact Nat.min_le_left _ _

def registerOperand (register size : UInt8) : UInt64 :=
  register.toUInt64 ||| size.toUInt64 <<< 8 ||| (0 : UInt16).toUInt64 <<< 16

theorem toNat_registerOperand (register size : UInt8) :
    (registerOperand register size).toNat = register.toNat + 256 * size.toNat := by
  rw [← Machine.toNat_convertOperand]
  simp [registerOperand]

theorem size_registerOperand (register size : UInt8) :
    (registerOperand register size >>> 8).toUInt8 = size := by
  apply UInt8.toNat_inj.1
  have hr := register.toNat_lt
  have hs := size.toNat_lt
  rw [UInt64.toNat_toUInt8, UInt64.toNat_shiftRight, toNat_registerOperand]
  simp [Nat.shiftRight_eq_div_pow]
  omega

theorem toUInt8_registerOperand (register size : UInt8) :
    (registerOperand register size).toUInt8 = register := by
  apply UInt8.toNat_inj.1
  have hr := register.toNat_lt
  rw [UInt64.toNat_toUInt8, toNat_registerOperand]
  omega

theorem offset_registerOperand (register size : UInt8) :
    (registerOperand register size >>> 16).toUInt16 = 0 := by
  apply UInt16.toNat_inj.1
  have hr := register.toNat_lt
  have hs := size.toNat_lt
  rw [UInt64.toNat_toUInt16, UInt64.toNat_shiftRight, toNat_registerOperand]
  simp [Nat.shiftRight_eq_div_pow]
  omega

theorem toNat_baseOffset {offset : Int64} (h : 0 ≤ offset ∧ offset ≤ 0xffffffff) :
    (offset.toUInt64.toNat : Int) = offset.toInt ∧ offset.toUInt64.toNat < 2 ^ 32 := by
  have h0 : 0 ≤ offset.toInt := Int64.le_iff_toInt_le.1 h.1
  have h1 : offset.toInt ≤ 0xffffffff := Int64.le_iff_toInt_le.1 h.2
  have hlt := offset.toUInt64.toNat_lt
  have hcond : offset.toInt = if 2 * offset.toUInt64.toNat < 2 ^ 64 then
      (offset.toUInt64.toNat : Int) else offset.toUInt64.toNat - (2 ^ 64 : Nat) :=
    BitVec.toInt_eq_toNat_cond offset.toBitVec
  split at hcond <;> omega

namespace Machine

variable (m : Machine) (rest : List UInt8) (stack : List Slot) (reads : List MemoryRead)

theorem drive_base (base : Base) {offset : UInt64} (ho : offset.toNat < 2 ^ 32)
    (hc : stack.length + 1 ≤ m.capacity) :
    m.drive ⟨Code.emitWith [] (.base base) offset ++ rest, stack, reads⟩ =
      m.resume (.ofResult (m.baseAddress base offset)) rest stack reads := by
  refine m.drive_push rest stack reads ⟨.base base, offset⟩ (by cases base <;> rfl) ho
    (Nat.zero_le _) (by rintro ⟨⟩) hc ?_
  cases hv : m.baseAddress base offset with
  | ok v => simp only [perform, State.push, Computation.ofResult, hv, List.append_nil]
  | error f => simp only [perform, State.push, Computation.ofResult, hv, List.append_nil]

theorem drive_regRead (register size : UInt8) (hc : stack.length + 1 ≤ m.capacity) :
    m.drive ⟨Code.emitRegRead [] register size 0 ++ rest, stack, reads⟩ =
      m.resume (.ofResult (m.readRegister (registerOperand register size))) rest stack reads := by
  have hr := register.toNat_lt
  have hs := size.toNat_lt
  refine m.drive_push rest stack reads ⟨.regRead, registerOperand register size⟩ rfl ?_
    (Nat.zero_le _) (by rintro ⟨⟩) hc ?_
  · simp only [toNat_registerOperand, Opcode.operandLength]
    omega
  · cases hv : m.readRegister (registerOperand register size) with
    | ok v => simp only [perform, State.push, Computation.ofResult, hv, List.append_nil]
    | error f => simp only [perform, State.push, Computation.ofResult, hv, List.append_nil]

end Machine

namespace Fragment

variable {t : Option Target} {layout : Arch} {code : List UInt8} {pending : List Slot}

theorem result_value {c : Computation Slot}
    (h : (Machine.mk t layout (pending.length + code.length)).drive ⟨code, pending, []⟩ =
      (Machine.mk t layout (pending.length + code.length)).resume c [] pending []) :
    (value t layout code pending).result = c.result := by
  rw [value, h]
  cases hc : c.result with
  | ok v =>
    rw [Machine.resume_ok _ _ _ _ hc, Machine.drive_nil]
  | error f => rw [Machine.resume_error _ _ _ _ hc]

theorem result_value_append {F : Fault → Prop} (h : Computes F code) {next : List UInt8}
    (hn : 1 ≤ next.length) {k : Slot → Computation Slot}
    (hk : ∀ (m : Machine) (v : Slot) (log : List MemoryRead), m.target = t →
      pending.length + 1 ≤ m.capacity →
        m.drive ⟨next ++ [], v :: pending, log⟩ = m.resume (k v) [] pending log) :
    (value t layout (code ++ next) pending).result =
      (value t layout code pending >>= k).result := by
  have hlen : code.length + 1 ≤ (code ++ next).length := by
    rw [List.length_append]
    omega
  apply result_value
  generalize (code ++ next).length = n at hlen ⊢
  have hroom := room_le_length code
  rw [drive_eq_resume h (show pending.length + room code ≤ pending.length + n by omega)]
  apply Machine.resume_bind
  intro v log
  have hd := hk ⟨t, layout, pending.length + n⟩ v log rfl
    (show pending.length + 1 ≤ pending.length + n by omega)
  rw [List.append_nil] at hd
  exact hd

theorem result_value_truncSigned {F : Fault → Prop} (h : Computes F code) (bits : UInt8) :
    (value t layout (code ++ Instruction.encode ⟨.truncSigned, bits.toUInt64⟩) pending).result =
      (value t layout code pending >>= fun v => pure (Slot.signExtend bits.toNat v)).result := by
  apply result_value_append h (by rw [Instruction.encode]; exact Nat.le_add_left 1 _)
  intro m v log _ hc
  exact m.drive_trunc [] pending log bits true v hc

theorem result_value_memRead {F : Fault → Prop} (h : Computes F code) {size : UInt8}
    (hs : ¬ (size < 1 ∨ 8 < size)) :
    (value t layout (code ++ Instruction.encode ⟨.memRead, size.toUInt64⟩) pending).result =
      (value t layout code pending >>= fun v => Target.loadWord t v size.toNat).result := by
  apply result_value_append h (by rw [Instruction.encode]; exact Nat.le_add_left 1 _)
  intro m v log ht hc
  rw [m.drive_memRead [] pending log hs v hc, ht]

theorem result_value_base (base : Base) {offset : UInt64} (ho : offset.toNat < 2 ^ 32) :
    (value t layout (Code.emitWith [] (.base base) offset) pending).result =
      (Machine.mk t layout 0).baseAddress base offset := by
  have hd := (Machine.mk t layout (pending.length +
    (Code.emitWith [] (.base base) offset).length)).drive_base [] pending [] base ho
      (Nat.add_le_add_left (Nat.le_add_left 1 _) _)
  rw [List.append_nil] at hd
  exact result_value hd

end Fragment

theorem Fragment.result_value_readRegister (t : Option Target) (layout : Arch)
    (register size : UInt8) (pending : List Slot) :
    ∃ m : Machine, (value t layout (Code.emitRegRead [] register size 0) pending).result =
      m.readRegister (registerOperand register size) := by
  let m : Machine := ⟨t, layout, pending.length + (Code.emitRegRead [] register size 0).length⟩
  have hd := m.drive_regRead [] pending [] register size
    (Nat.add_le_add_left (Nat.le_add_left 1 _) _)
  rw [List.append_nil] at hd
  exact ⟨m, result_value hd⟩

namespace Fragment

variable (v : UInt64)

theorem validate_const : Code.validate (Code.emitConst [] v) = .ok () :=
  Code.validateFrom_encode (i := ⟨.const (Code.constWidth v), v⟩) rfl rfl 0

theorem drive_const (m : Machine) (stack : List Slot) (reads : List MemoryRead)
    (hc : stack.length + 1 ≤ m.capacity) :
    m.drive ⟨Code.emitConst [] v, stack, reads⟩ = .halt ⟨[], v :: stack, reads⟩ := by
  have hd := m.drive_encodeConst [] stack reads v false hc
  rw [List.append_nil, Machine.drive_nil] at hd
  exact hd

theorem value_const (t : Option Target) (layout : Arch) (pending : List Slot) :
    value t layout (Code.emitConst [] v) pending = pure v := by
  rw [value, drive_const v _ _ _ (Nat.add_le_add_left (Nat.le_add_left 1 _) _)]
  rfl

theorem room_const : room (Code.emitConst [] v) ≤ 1 := by
  apply Nat.sInf_le
  intro m stack reads log hc
  rw [drive_const v m stack reads hc]
  rintro ⟨⟩

end Fragment

end WatchExpr
