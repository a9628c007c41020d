import WatchExpr.Proofs.Machine.Emission
import WatchExpr.Proofs.Machine.Integer
import WatchExpr.Tree.Encode

namespace WatchExpr

/-- A computation on a target: how it ends, and the memory it tries to read. -/
@[ext]
structure Computation (α : Type) where
  result : Except Fault α
  reads : List MemoryRead

namespace Computation

variable {α β : Type}

instance : Monad Computation where
  pure a := ⟨.ok a, []⟩
  bind x f :=
    match x.result with
    | .ok a => ⟨(f a).result, x.reads ++ (f a).reads⟩
    | .error e => ⟨.error e, x.reads⟩

def ofResult (r : Except Fault α) : Computation α := ⟨r, []⟩

def fail (f : Fault) : Computation α := ofResult (.error f)

def outcome (c : Computation Slot) : Outcome := ⟨c.result, c.reads⟩

theorem pure_eq (a : α) : (pure a : Computation α) = ⟨.ok a, []⟩ := rfl

theorem bind_ok {x : Computation α} {a : α} (h : x.result = .ok a) (f : α → Computation β) :
    (x >>= f) = ⟨(f a).result, x.reads ++ (f a).reads⟩ := by
  simp only [bind, h]

theorem bind_error {x : Computation α} {e : Fault} (h : x.result = .error e)
    (f : α → Computation β) : (x >>= f) = ⟨.error e, x.reads⟩ := by
  simp only [bind, h]

theorem result_bind_ok {x : Computation α} {f : α → Computation β} {b : β}
    (h : (x >>= f).result = .ok b) : ∃ a, x.result = .ok a ∧ (f a).result = .ok b := by
  cases hx : x.result with
  | ok a =>
    rw [bind_ok hx] at h
    exact ⟨a, rfl, h⟩
  | error e =>
    rw [bind_error hx] at h
    cases h

/-- A computation fails where its first part does or where the rest does. -/
theorem result_bind_error {x : Computation α} {f : α → Computation β} {e : Fault}
    (h : (x >>= f).result = .error e) :
    x.result = .error e ∨ ∃ a, x.result = .ok a ∧ (f a).result = .error e := by
  cases hx : x.result with
  | ok a =>
    rw [bind_ok hx] at h
    exact .inr ⟨a, rfl, h⟩
  | error e =>
    rw [bind_error hx] at h
    cases h
    exact .inl rfl

theorem bind_pure_eq (x : Computation α) : (x >>= pure) = x := by
  cases hx : x.result with
  | ok a =>
    rw [bind_ok hx, pure_eq, List.append_nil, ← hx]
  | error e =>
    rw [bind_error hx, ← hx]

theorem bind_bind_eq {γ : Type} (x : Computation α) (f : α → Computation β)
    (g : β → Computation γ) : (x >>= f >>= g) = x >>= fun a => f a >>= g := by
  cases hx : x.result with
  | ok a =>
    rw [bind_ok hx, bind_ok hx]
    cases hf : (f a).result with
    | ok b =>
      rw [bind_ok hf]
      exact Computation.ext rfl (List.append_assoc _ _ _)
    | error e =>
      rw [bind_error hf]
      rfl
  | error e =>
    rw [bind_error hx, bind_error hx]
    rfl

instance : LawfulMonad Computation :=
  LawfulMonad.mk' Computation bind_pure_eq (fun _ _ => rfl) bind_bind_eq

theorem ofResult_bind_pure (r : Except Fault α) (g : α → β) :
    (ofResult r >>= fun a => pure (g a)) = ofResult (r.map g) := by
  cases r <;> rfl

/-- Two continuations need only agree on what the first part can give. -/
theorem bind_congr_ok {x : Computation α} {f g : α → Computation β}
    (h : ∀ a, x.result = .ok a → f a = g a) : (x >>= f) = (x >>= g) := by
  cases hx : x.result with
  | ok a => rw [bind_ok hx, bind_ok hx, h a hx]
  | error e => rw [bind_error hx, bind_error hx]

end Computation

namespace Target

/-- Reads memory as a little-endian number and logs the attempt. -/
def loadWord (t : Option Target) (address : Slot) (size : Nat) : Computation Slot :=
  match t with
  | none => .fail .badMemRead
  | some t =>
    ⟨match t.word? address size with
      | some v => .ok v
      | none => .error .badMemRead, [{ address, size }]⟩

theorem loadWord_lt {t : Option Target} {address v : Slot} {size : Nat} (hs : size ≤ 8)
    (h : (loadWord t address size).result = .ok v) : v.toNat < 2 ^ (8 * size) := by
  simp only [loadWord] at h
  split at h
  · cases h
  · simp only at h
    split at h <;> cases h
    rename_i hw
    obtain ⟨bytes, -, rfl⟩ := Option.map_eq_some_iff.1 hw
    have hl : bytes.toList.length = size := bytes.length_toList
    have hlt : (ofLittleEndian bytes.toList).toNat < 2 ^ (8 * bytes.toList.length) :=
      toNat_ofLittleEndian_lt (by omega)
    rwa [hl] at hlt

/-- Reads the register block as a little-endian number. -/
def loadBlock (t : Option Target) (offset : Slot) (size : Nat) : Computation Slot :=
  match t.bind fun t => blockWord? t.registerBlock offset size with
  | some v => pure v
  | none => .fail .badRegRead

end Target

namespace Machine

/-- Goes on with some code once a value has been computed. -/
def resume (m : Machine) (c : Computation Slot) (rest : List UInt8) (stack : List Slot)
    (reads : List MemoryRead) : Progress :=
  match c.result with
  | .ok v => m.drive ⟨rest, v :: stack, reads ++ c.reads⟩
  | .error f => .fault f (reads ++ c.reads)

variable (m : Machine) (rest : List UInt8) (stack : List Slot) (reads : List MemoryRead)

theorem resume_ok {c : Computation Slot} {v : Slot} (h : c.result = .ok v) :
    m.resume c rest stack reads = m.drive ⟨rest, v :: stack, reads ++ c.reads⟩ := by
  simp only [resume, h]

theorem resume_error {c : Computation Slot} {f : Fault} (h : c.result = .error f) :
    m.resume c rest stack reads = .fault f (reads ++ c.reads) := by
  simp only [resume, h]

/-- If the rest of a computation is what the machine does with the first value, the machine does
the whole computation. -/
theorem resume_bind (c : Computation Slot) (k : Slot → Computation Slot) (code : List UInt8)
    (below : List Slot)
    (h : ∀ v log, m.drive ⟨code, v :: stack, log⟩ = m.resume (k v) rest below log) :
    m.resume c code stack reads = m.resume (c >>= k) rest below reads := by
  cases hc : c.result with
  | ok v =>
    rw [resume_ok _ _ _ _ hc, h, Computation.bind_ok hc]
    simp only [resume, List.append_assoc]
  | error f =>
    rw [resume_error _ _ _ _ hc, Computation.bind_error hc]
    rfl

theorem execute_eq_outcome {code : List UInt8} {c : Computation Slot}
    (h : m.drive { code } = m.resume c [] [] []) : m.execute code = c.outcome := by
  rw [execute, run_eq_drive, h, resume, Computation.outcome]
  cases c.result with
  | ok v =>
    simp only [drive_nil]
    rfl
  | error f => rfl

theorem drive_push (i : Instruction) (hi : i.op.isValid)
    (ho : i.operand.toNat < 2 ^ (8 * i.op.operandLength)) (hp : i.op.pops ≤ stack.length)
    (hg : i.op.hasGroup → i.op.accepts i.group)
    (hc : stack.length - i.op.pops + i.op.pushes ≤ m.capacity) {below : List Slot}
    {c : Computation Slot}
    (h : m.perform i ⟨rest, stack, reads⟩ =
      match c.result with
      | .ok v => .next ⟨rest, v :: below, reads ++ c.reads⟩
      | .error f => .fault f (reads ++ c.reads)) :
    m.drive ⟨i.encode ++ rest, stack, reads⟩ = m.resume c rest below reads := by
  rw [drive_encode m hi, i.stored_eq_self ho, check_eq_ok hp hg hc]
  simp only [h, resume]
  cases c.result <;> rfl

end Machine

theorem Group.ofByte_toByte {g : Group} (h : g.isScalar) : Group.ofByte g.toByte = g := by
  cases g <;> simp_all [Group.isScalar, Group.isInteger, Group.isFloat, Group.ofByte, Group.toByte]

theorem Opcode.isScalar_of_accepts {op : Opcode} {g : Group} (ho : op.hasGroup) (h : op.accepts g) :
    g.isScalar := by
  cases op with
  | unary o => cases o <;> cases g <;> simp_all [accepts, Group.isScalar, Group.isInteger]
  | binary o => cases o <;> cases g <;> simp_all [accepts, Group.isScalar, Group.isInteger]
  | compare o => simpa [accepts] using h
  | _ => simp [hasGroup] at ho

theorem Width.bytes_le (w : Width) : w.bytes ≤ 8 := by
  cases w <;> decide

theorem Code.toNat_lt_constWidth (v : UInt64) : v.toNat < 2 ^ (8 * (constWidth v).bytes) := by
  have := v.toNat_lt
  simp only [constWidth, UInt64.lt_iff_toNat_lt]
  split
  · assumption
  · split
    · assumption
    · split <;> assumption

/-- The narrowest width that holds a number gives it back by sign extension. -/
theorem Node.signExtend_signedWidth (v : UInt64) :
    Slot.signExtend (signedWidth v.toInt64).bits
      (ofLittleEndian (littleEndian (signedWidth v.toInt64).bytes v)) = v := by
  have hw : (signedWidth v.toInt64).bits ≤ 64 := by
    cases signedWidth v.toInt64 <;> decide
  have h0 : 0 < (signedWidth v.toInt64).bits := by
    cases signedWidth v.toInt64 <;> decide
  have hl : Slot.signExtend (signedWidth v.toInt64).bits
      (ofLittleEndian (littleEndian (signedWidth v.toInt64).bytes v)) =
        Slot.signExtend (signedWidth v.toInt64).bits v := by
    apply Slot.signExtend_congr
    rw [toNat_ofLittleEndian_littleEndian (Width.bytes_le _)]
    exact Nat.mod_mod _ _
  rw [hl, Slot.signExtend_eq_self_iff h0 hw]
  have he : v.toInt64.toInt = Slot.toInt v := rfl
  have h1 : -2 ^ 63 ≤ v.toBitVec.toInt := BitVec.le_toInt v.toBitVec
  have h2 : v.toBitVec.toInt < 2 ^ 63 := BitVec.toInt_lt
  simp only [signedWidth, Int64.le_iff_toInt_le, he]
  split
  case isTrue h => exact ⟨Int.le_trans (by decide) h.1, Int.lt_of_le_of_lt h.2 (by decide)⟩
  case isFalse =>
    split
    case isTrue h => exact ⟨Int.le_trans (by decide) h.1, Int.lt_of_le_of_lt h.2 (by decide)⟩
    case isFalse =>
      split
      case isTrue h => exact ⟨Int.le_trans (by decide) h.1, Int.lt_of_le_of_lt h.2 (by decide)⟩
      case isFalse => exact ⟨h1, h2⟩

namespace Machine

variable (m : Machine) (rest : List UInt8) (stack : List Slot) (reads : List MemoryRead)

theorem toNat_convertOperand (a b : UInt8) :
    (a.toUInt64 ||| b.toUInt64 <<< 8).toNat = a.toNat + 256 * b.toNat := by
  have h : a.toUInt64 ||| b.toUInt64 <<< 8 = ofLittleEndian [a, b] := by
    simp [ofLittleEndian]
  have hb : (ofLittleEndian [b]).toNat = b.toNat := by
    rw [toNat_ofLittleEndian_cons (by decide)]
    simp [ofLittleEndian]
  have := b.toNat_lt
  rw [h, toNat_ofLittleEndian_cons (by omega), hb]

theorem drive_group {op : Opcode} {g : Group} (hv : op.isValid) (ho : op.hasGroup)
    (hg : op.accepts g) (hp : op.pops ≤ stack.length)
    (hc : stack.length - op.pops + op.pushes ≤ m.capacity) {below : List Slot}
    {c : Computation Slot}
    (h : ∀ i : Instruction, i.op = op → i.group = g →
      m.perform i ⟨rest, stack, reads⟩ =
        match c.result with
        | .ok v => .next ⟨rest, v :: below, reads ++ c.reads⟩
        | .error f => .fault f (reads ++ c.reads)) :
    m.drive ⟨Code.emitGroup [] op g ++ rest, stack, reads⟩ = m.resume c rest below reads := by
  have hi : (Instruction.mk op g.toByte.toUInt64).group = g := by
    simpa [Instruction.group] using Group.ofByte_toByte (Opcode.isScalar_of_accepts ho hg)
  have hl : op.operandLength = 1 := by
    cases op <;> simp_all [Opcode.hasGroup, Opcode.operandLength]
  apply drive_push m rest stack reads ⟨op, g.toByte.toUInt64⟩ hv ?_ hp ?_ hc (h _ rfl hi)
  · simp only [hl]
    exact g.toByte.toNat_lt
  · intro _
    rw [hi]
    exact hg

theorem drive_unary {o : UnaryOp} {g : Group} (hg : (Opcode.unary o).accepts g) (a : Slot)
    (hc : stack.length + 1 ≤ m.capacity) :
    m.drive ⟨Code.emitGroup [] (.unary o) g ++ rest, a :: stack, reads⟩ =
      m.resume (pure (o.apply g a)) rest stack reads := by
  apply drive_group m rest (a :: stack) reads rfl rfl hg (Nat.le_add_left _ _) hc
  intro i ho hi
  simp [perform, ho, hi, State.push, Computation.pure_eq]

theorem drive_binary {o : BinaryOp} {g : Group} (hg : (Opcode.binary o).accepts g) (a b : Slot)
    (hc : stack.length + 1 ≤ m.capacity) :
    m.drive ⟨Code.emitGroup [] (.binary o) g ++ rest, b :: a :: stack, reads⟩ =
      m.resume (.ofResult (o.apply g a b)) rest stack reads := by
  apply drive_group m rest (b :: a :: stack) reads rfl rfl hg (Nat.le_add_left _ _) hc
  intro i ho hi
  cases hr : o.apply g a b with
  | ok v => simp only [perform, ho, hi, State.push, Computation.ofResult, hr, List.append_nil]
  | error f => simp only [perform, ho, hi, State.push, Computation.ofResult, hr, List.append_nil]

theorem drive_compare {o : Comparison} {g : Group} (hg : (Opcode.compare o).accepts g) (a b : Slot)
    (hc : stack.length + 1 ≤ m.capacity) :
    m.drive ⟨Code.emitGroup [] (.compare o) g ++ rest, b :: a :: stack, reads⟩ =
      m.resume (pure (Slot.ofBool (o.apply g a b))) rest stack reads := by
  apply drive_group m rest (b :: a :: stack) reads rfl rfl hg (Nat.le_add_left _ _) hc
  intro i ho hi
  simp [perform, ho, hi, State.push, Computation.pure_eq]

theorem drive_memRead {size : UInt8} (hs : ¬ (size < 1 ∨ 8 < size)) (a : Slot)
    (hc : stack.length + 1 ≤ m.capacity) :
    m.drive ⟨Instruction.encode ⟨.memRead, size.toUInt64⟩ ++ rest, a :: stack, reads⟩ =
      m.resume (Target.loadWord m.target a size.toNat) rest stack reads := by
  have hn : ¬ (size.toNat < 1 ∨ 8 < size.toNat) := by
    simpa [UInt8.lt_iff_toNat_lt] using hs
  refine drive_push m rest (a :: stack) reads ⟨.memRead, size.toUInt64⟩ rfl ?_
    (Nat.le_add_left _ _) (by rintro ⟨⟩) hc ?_
  · exact size.toNat_lt
  · simp only [perform, readMemory, UInt8.toNat_toUInt64, if_neg hn, Target.loadWord]
    cases m.target with
    | none => simp [Computation.fail, Computation.ofResult]
    | some t => cases h : t.word? a size.toNat <;> simp [h]

theorem drive_regReadDyn (a : Slot) (hc : stack.length + 1 ≤ m.capacity) :
    m.drive ⟨Instruction.encode ⟨.regReadDyn, 0⟩ ++ rest, a :: stack, reads⟩ =
      m.resume (Target.loadBlock m.target a m.layout.pointerSize) rest stack reads := by
  refine drive_push m rest (a :: stack) reads ⟨.regReadDyn, 0⟩ rfl (by decide)
    (Nat.le_add_left _ _) (by rintro ⟨⟩) hc ?_
  simp only [perform, readBlock, Target.loadBlock]
  cases m.target with
  | none => simp [State.push, Computation.fail, Computation.ofResult]
  | some t =>
    cases h : Target.blockWord? t.registerBlock a m.layout.pointerSize <;>
      simp [h, State.push, Computation.fail, Computation.ofResult, Computation.pure_eq]

theorem drive_trunc (bits : UInt8) (signed : Bool) (a : Slot) (hc : stack.length + 1 ≤ m.capacity) :
    m.drive ⟨Instruction.encode ⟨if signed then .truncSigned else .trunc, bits.toUInt64⟩ ++ rest,
        a :: stack, reads⟩ =
      m.resume (pure (if signed then Slot.signExtend bits.toNat a else Slot.truncate bits.toNat a))
        rest stack reads := by
  cases signed with
  | true =>
    refine drive_push m rest (a :: stack) reads ⟨.truncSigned, bits.toUInt64⟩ rfl ?_
      (Nat.le_add_left _ _) (by rintro ⟨⟩) hc ?_
    · exact bits.toNat_lt
    · simp [perform, State.push, Computation.pure_eq]
  | false =>
    refine drive_push m rest (a :: stack) reads ⟨.trunc, bits.toUInt64⟩ rfl ?_
      (Nat.le_add_left _ _) (by rintro ⟨⟩) hc ?_
    · exact bits.toNat_lt
    · simp [perform, State.push, Computation.pure_eq]

theorem drive_truncSigned (w : Width) (a : Slot) (hc : stack.length + 1 ≤ m.capacity) :
    m.drive ⟨Instruction.encode ⟨.truncSigned, w.bits.toUInt64⟩ ++ rest, a :: stack, reads⟩ =
      m.drive ⟨rest, Slot.signExtend w.bits a :: stack, reads⟩ := by
  have h := drive_trunc m rest stack reads w.bits.toUInt8 true a hc
  rw [m.resume_ok rest stack reads rfl, Computation.pure_eq, List.append_nil] at h
  cases w <;> exact h

theorem drive_convert (source result : Group) (a : Slot) (hc : stack.length + 1 ≤ m.capacity) :
    m.drive ⟨Code.emitConvert [] source result ++ rest, a :: stack, reads⟩ =
      m.resume (
        if (Group.ofByte source.toByte).isScalar && (Group.ofByte result.toByte).isScalar then
          pure (Slot.convert (.ofByte source.toByte) (.ofByte result.toByte) a)
        else .fail .badOpTypes) rest stack reads := by
  have ho := toNat_convertOperand source.toByte result.toByte
  have hs := source.toByte.toNat_lt
  have hr := result.toByte.toNat_lt
  have h1 : (source.toByte.toUInt64 ||| result.toByte.toUInt64 <<< 8).toUInt8 = source.toByte := by
    apply UInt8.toNat_inj.1
    rw [UInt64.toNat_toUInt8, ho]
    omega
  have h2 : ((source.toByte.toUInt64 ||| result.toByte.toUInt64 <<< 8) >>> 8).toUInt8 =
      result.toByte := by
    apply UInt8.toNat_inj.1
    rw [UInt64.toNat_toUInt8, UInt64.toNat_shiftRight, ho]
    simp [Nat.shiftRight_eq_div_pow]
    omega
  refine drive_push m rest (a :: stack) reads ⟨.convert, _⟩ rfl ?_ (Nat.le_add_left _ _)
    (by rintro ⟨⟩) hc ?_
  · simp only [ho, Opcode.operandLength]
    omega
  · simp only [perform, h1, h2]
    split <;> simp [State.push, Computation.pure_eq, Computation.fail, Computation.ofResult]

theorem drive_constWord (w : Width) (v : UInt64) (hc : stack.length + 1 ≤ m.capacity) :
    m.drive ⟨Instruction.encode ⟨.const w, v⟩ ++ rest, stack, reads⟩ =
      m.drive ⟨rest, ofLittleEndian (littleEndian w.bytes v) :: stack, reads⟩ := by
  have hk : m.check (Instruction.stored ⟨.const w, v⟩) stack.length = .ok () :=
    check_eq_ok (Nat.zero_le _) (by rintro ⟨⟩) hc
  rw [drive_encode m rfl, hk]
  rfl

/-- A constant is pushed as it is, whether it was stored zero-extended or sign-extended. -/
theorem drive_encodeConst (v : UInt64) (signed : Bool) (hc : stack.length + 1 ≤ m.capacity) :
    m.drive ⟨Node.encodeConst v signed ++ rest, stack, reads⟩ =
      m.drive ⟨rest, v :: stack, reads⟩ := by
  rw [Node.encodeConst]
  split
  · rw [Code.emitConst, Code.emitWith, List.nil_append, drive_constWord m rest stack reads _ _ hc,
      ofLittleEndian_littleEndian (Width.bytes_le _) (Code.toNat_lt_constWidth v)]
  · split
    · rw [drive_constWord m rest stack reads _ _ hc,
        ofLittleEndian_littleEndian (by decide) v.toNat_lt]
    · rw [List.append_assoc, drive_constWord m _ stack reads _ _ hc, drive_truncSigned m rest stack
        reads _ _ hc, Node.signExtend_signedWidth]

theorem drive_skip {d : Nat} (hd : d ≤ 0xffff) (hl : d ≤ rest.length)
    (hc : stack.length ≤ m.capacity) :
    m.drive ⟨Instruction.encode ⟨.skip, d.toUInt64⟩ ++ rest, stack, reads⟩ =
      m.drive ⟨rest.drop d, stack, reads⟩ := by
  have ho : (d.toUInt64).toNat = d := by
    simp
    omega
  have hk : m.check ⟨.skip, d.toUInt64⟩ stack.length = .ok () :=
    check_eq_ok (Nat.zero_le _) (by rintro ⟨⟩) hc
  rw [drive_encode m rfl, Instruction.stored_eq_self, hk]
  · simp only [perform, jump, ho, if_neg (Nat.not_lt.2 hl)]
    rfl
  · simp only [ho, Opcode.operandLength]
    omega

theorem drive_cond {d : Nat} (hd : d ≤ 0xffff) (hl : d ≤ rest.length) (v : Slot)
    (hc : stack.length ≤ m.capacity) :
    m.drive ⟨Instruction.encode ⟨.cond, d.toUInt64⟩ ++ rest, v :: stack, reads⟩ =
      m.drive ⟨if Slot.isTrue v then rest.drop d else rest, stack, reads⟩ := by
  have ho : (d.toUInt64).toNat = d := by
    simp
    omega
  have hk : m.check ⟨.cond, d.toUInt64⟩ (v :: stack).length = .ok () :=
    check_eq_ok (Nat.le_add_left _ _) (by rintro ⟨⟩) hc
  rw [drive_encode m rfl, Instruction.stored_eq_self, hk]
  · simp only [perform, jump, ho, if_neg (Nat.not_lt.2 hl)]
    split <;> rfl
  · simp only [ho, Opcode.operandLength]
    omega

end Machine

end WatchExpr
