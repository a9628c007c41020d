import WatchExpr.Machine.Chunk
import WatchExpr.Proofs.Machine.Boundaries

namespace WatchExpr

theorem ofLittleEndian_cons {b : UInt8} {rest : List UInt8} (h : rest.length < 8) :
    (ofLittleEndian (b :: rest)).toUInt8 = b ∧
      ofLittleEndian (b :: rest) >>> 8 = ofLittleEndian rest := by
  have hb := b.toNat_lt
  have hrest : (ofLittleEndian rest).toNat < 2 ^ 56 := by
    refine Nat.lt_of_lt_of_le (toNat_ofLittleEndian_lt (by omega)) ?_
    exact Nat.pow_le_pow_right (by decide) (by omega)
  have hcons := toNat_ofLittleEndian_cons (b := b) hrest
  constructor
  · apply UInt8.toNat_inj.1
    rw [UInt64.toNat_toUInt8, hcons]
    omega
  · apply UInt64.toNat_inj.1
    rw [UInt64.toNat_shiftRight, hcons, Nat.shiftRight_eq_div_pow]
    simp only [UInt64.toNat_ofNat, Nat.reducePow, Nat.reduceMod]
    omega

/-- The bytes of the number with given bytes are these bytes. -/
theorem littleEndian_ofLittleEndian {bytes : List UInt8} (h : bytes.length ≤ 8) :
    littleEndian bytes.length (ofLittleEndian bytes) = bytes := by
  induction bytes with
  | nil => rfl
  | cons b rest ih =>
    rw [List.length_cons] at h
    obtain ⟨hlow, hhigh⟩ := ofLittleEndian_cons (b := b) (show rest.length < 8 by omega)
    rw [List.length_cons, littleEndian, hlow, hhigh, ih (by omega)]

namespace Opcode

theorem toByte_ofByte {b : UInt8} (h : (ofByte b).isValid) : (ofByte b).toByte = b := by
  have hall : ∀ n < 256, (ofByte n.toUInt8).isValid → (ofByte n.toUInt8).toByte = n.toUInt8 := by
    decide +kernel
  have hb : b.toNat.toUInt8 = b := UInt8.ofNat_toNat
  have := hall b.toNat b.toNat_lt
  rw [hb] at this
  exact this h

end Opcode

namespace Instruction

@[simp] theorem length_encode (i : Instruction) : i.encode.length = i.op.length := by
  rw [encode, List.length_cons, length_littleEndian, Opcode.length, Nat.add_comm]

@[simp] theorem op_stored (i : Instruction) : i.stored.op = i.op := rfl

theorem toNat_operand_stored (i : Instruction) :
    i.stored.operand.toNat = i.operand.toNat % 2 ^ (8 * i.op.operandLength) :=
  toNat_ofLittleEndian_littleEndian i.op.operandLength_le i.operand

theorem encode_stored (i : Instruction) : i.stored.encode = i.encode := by
  have hl := length_littleEndian i.op.operandLength i.operand
  have h := littleEndian_ofLittleEndian (hl.symm ▸ i.op.operandLength_le)
  rw [hl] at h
  rw [encode, encode, op_stored, stored, h]

theorem encode_of_decode {b : UInt8} {rest after : List UInt8} {i : Instruction}
    (h : decode b rest = .ok (i, after)) : i.op.isValid ∧ b :: rest = i.encode ++ after := by
  simp only [decode] at h
  split at h
  · cases h
  · rename_i hv
    rw [Bool.not_eq_true', Bool.not_eq_false] at hv
    split at h
    · cases h
    · rename_i hl
      cases h
      refine ⟨hv, ?_⟩
      have hlength : (rest.take (Opcode.ofByte b).operandLength).length =
          (Opcode.ofByte b).operandLength :=
        Nat.le_antisymm (List.length_take_le _ _) (Nat.le_of_not_lt hl)
      have hbytes := littleEndian_ofLittleEndian
        (hlength.symm ▸ (Opcode.ofByte b).operandLength_le)
      rw [hlength] at hbytes
      rw [encode, Opcode.toByte_ofByte hv, hbytes, List.cons_append, List.take_append_drop]

end Instruction

namespace Code

variable {code : List UInt8} {is : List Instruction} {i : Instruction} {n : Nat}

/-- The instructions of code from an offset on, each with the offset where it starts. -/
def walkFrom (code : List UInt8) (offset : Nat) : Except CodeError (List (Nat × Instruction)) :=
  if offset < code.length then
    match decodeAt code offset with
    | .error e => .error e
    | .ok i => (walkFrom code (offset + i.op.length)).map ((offset, i) :: ·)
  else .ok []
termination_by code.length - offset
decreasing_by
  simp only [Opcode.length]
  omega

/-- The instructions of code, each with the offset where it starts. -/
def walk (code : List UInt8) : Except CodeError (List (Nat × Instruction)) := walkFrom code 0

def emitAll (code : List UInt8) (is : List Instruction) : List UInt8 :=
  is.foldl (fun code i => emitWith code i.op i.operand) code

/-- Instructions that stand one behind the other, from an offset to another one. -/
inductive Tiles : Nat → List (Nat × Instruction) → Nat → Prop
  | nil {n : Nat} : Tiles n [] n
  | cons {n m : Nat} {i : Instruction} {ws : List (Nat × Instruction)}
      (h : Tiles (n + i.op.length) ws m) : Tiles n ((n, i) :: ws) m

/-- No jump among some instructions goes further than to their end. -/
def JumpsInside (is : List Instruction) : Prop :=
  ∀ before i after, is = before ++ i :: after → i.op ∈ [.cond, .skip] →
    (emitAll [] (before ++ [i])).length + i.operand.toNat % 2 ^ 16 ≤ (emitAll [] is).length

theorem emitAll_eq (code : List UInt8) (is : List Instruction) :
    emitAll code is = code ++ is.flatMap Instruction.encode := by
  induction is generalizing code with
  | nil => exact (List.append_nil code).symm
  | cons i is ih =>
    rw [emitAll, List.foldl_cons, ← emitAll, ih, emitWith, List.flatMap_cons, List.append_assoc]

theorem emitAll_stored (code : List UInt8) (is : List Instruction) :
    emitAll code (is.map Instruction.stored) = emitAll code is := by
  rw [emitAll_eq, emitAll_eq, List.flatMap_map]
  simp only [Instruction.encode_stored]

/-- What is stored of some instructions, with the offsets where they start. -/
def placed (n : Nat) : List Instruction → List (Nat × Instruction)
  | [] => []
  | i :: is => (n, i.stored) :: placed (n + i.op.length) is

theorem map_placed (n : Nat) (is : List Instruction) :
    (placed n is).map Prod.snd = is.map Instruction.stored := by
  induction is generalizing n with
  | nil => rfl
  | cons i is ih => rw [placed, List.map_cons, List.map_cons, ih]

theorem tiles_placed (n : Nat) (is : List Instruction) :
    Tiles n (placed n is) (n + (is.flatMap Instruction.encode).length) := by
  induction is generalizing n with
  | nil => exact .nil
  | cons i is ih =>
    rw [List.flatMap_cons, List.length_append, Instruction.length_encode, ← Nat.add_assoc]
    exact .cons (ih (n + i.op.length))

/-- A walk finds the instruction that stands at its offset and goes on behind it. -/
theorem walkFrom_encode (hv : i.op.isValid) (before tail : List UInt8) :
    walkFrom (before ++ (i.encode ++ tail)) before.length =
      (walkFrom (before ++ (i.encode ++ tail)) (before.length + i.op.length)).map
        ((before.length, i.stored) :: ·) := by
  have hat : decodeAt (before ++ (i.encode ++ tail)) before.length = .ok i.stored := by
    refine decodeAt_eq_ok.2 ⟨_, _, tail, ?_, Instruction.decode_encode hv tail⟩
    rw [List.drop_left]
    rfl
  have hlt : before.length < (before ++ (i.encode ++ tail)).length := by
    rw [List.length_append, List.length_append, Instruction.length_encode, Opcode.length]
    omega
  rw [walkFrom, if_pos hlt, hat]
  rfl

theorem walkFrom_emitted (h : ∀ i ∈ is, i.op.isValid) (before : List UInt8) :
    walkFrom (before ++ is.flatMap Instruction.encode) before.length =
      .ok (placed before.length is) := by
  induction is generalizing before with
  | nil =>
    rw [List.flatMap_nil, List.append_nil, walkFrom, if_neg (Nat.lt_irrefl _)]
    rfl
  | cons i is ih =>
    obtain ⟨hi, his⟩ := List.forall_mem_cons.1 h
    have ih := ih his (before ++ i.encode)
    rw [List.length_append, Instruction.length_encode, List.append_assoc] at ih
    rw [List.flatMap_cons, walkFrom_encode hi, ih]
    rfl

theorem exists_emitted (h : validateFrom n code = .ok ()) :
    ∃ is : List Instruction, (∀ i ∈ is, i.op.isValid) ∧ is.flatMap Instruction.encode = code := by
  fun_induction validateFrom n code with
  | case1 => exact ⟨[], List.forall_mem_nil _, rfl⟩
  | case2 => cases h
  | case3 => cases h
  | case4 n b rest i after hd _ ih =>
    obtain ⟨hv, hbytes⟩ := Instruction.encode_of_decode hd
    obtain ⟨is, his, rfl⟩ := ih h
    exact ⟨i :: is, List.forall_mem_cons.2 ⟨hv, his⟩, hbytes.symm⟩

theorem jumpsInside_nil : JumpsInside [] := by
  intro before i after hnil
  cases before <;> cases hnil

/-- The first jump goes no further than what follows it, and the others stay inside as well. -/
theorem jumpsInside_cons :
    JumpsInside (i :: is) ↔
      (i.op ∈ [.cond, .skip] →
        i.operand.toNat % 2 ^ 16 ≤ (is.flatMap Instruction.encode).length) ∧ JumpsInside is := by
  simp only [JumpsInside, emitAll_eq, List.nil_append]
  constructor
  · intro h
    refine ⟨fun hi => ?_, fun before j after his hj => ?_⟩
    · have hfirst := h [] i is rfl hi
      simp only [List.nil_append, List.flatMap_cons, List.flatMap_nil, List.append_nil,
        List.length_append] at hfirst
      omega
    · have hlater := h (i :: before) j after (by rw [his]; rfl) hj
      simp only [List.cons_append, List.flatMap_cons, List.length_append] at hlater
      omega
  · rintro ⟨hi, his⟩ before j after heq hj
    cases before with
    | nil =>
      obtain ⟨rfl, rfl⟩ := List.cons.inj heq
      have hfirst := hi hj
      simp only [List.nil_append, List.flatMap_cons, List.flatMap_nil, List.append_nil,
        List.length_append]
      omega
    | cons _ before =>
      obtain ⟨rfl, hrest⟩ := List.cons.inj heq
      have hlater := his before j after hrest hj
      simp only [List.cons_append, List.flatMap_cons, List.length_append]
      omega

/-- Instructions are valid code if and only if their jumps stay inside. -/
theorem validateFrom_emitted (h : ∀ i ∈ is, i.op.isValid) (n : Nat) :
    validateFrom n (is.flatMap Instruction.encode) = .ok () ↔ JumpsInside is := by
  induction is generalizing n with
  | nil =>
    exact iff_of_true (by rw [List.flatMap_nil, validateFrom]) jumpsInside_nil
  | cons i is ih =>
    obtain ⟨hi, his⟩ := List.forall_mem_cons.1 h
    have hd := Instruction.decode_encode hi (is.flatMap Instruction.encode)
    have hjump : i.op.isJump = true ↔ i.op ∈ [.cond, .skip] := by
      cases i.op <;> simp [Opcode.isJump]
    have hoperand (hj : i.op ∈ [.cond, .skip]) :
        i.stored.operand.toNat = i.operand.toNat % 2 ^ 16 := by
      have hlength : i.op.operandLength = 2 := by
        cases hop : i.op <;> simp [hop] at hj <;> rfl
      rw [i.toNat_operand_stored, hlength]
    rw [List.flatMap_cons, Instruction.encode, List.cons_append, validateFrom_cons hd, ih his,
      jumpsInside_cons, Instruction.op_stored, hjump]
    refine and_congr_left fun _ => ?_
    exact forall_congr' fun hj => by rw [hoperand hj]

/-- Emission and decoding are inverse. Emitted instructions are found again in order, their
immediates cut to their widths, and cover the code without gaps; valid code is what is emitted for
the instructions found in it; and code is valid if and only if it is emitted for instructions whose
jumps stay inside it. -/
theorem walk_emission :
    (∀ is : List Instruction, (∀ i ∈ is, i.op.isValid) →
      ∃ ws, walk (emitAll [] is) = .ok ws ∧
        ws.map (fun w => (w.2.op, w.2.operand.toNat)) =
          is.map (fun i => (i.op, i.operand.toNat % 2 ^ (8 * i.op.operandLength))) ∧
        Tiles 0 ws (emitAll [] is).length) ∧
    (∀ code, validate code = .ok () →
      ∃ ws, walk code = .ok ws ∧ emitAll [] (ws.map Prod.snd) = code) ∧
    (∀ code, validate code = .ok () ↔
      ∃ is : List Instruction,
        (∀ i ∈ is, i.op.isValid) ∧ emitAll [] is = code ∧ JumpsInside is) := by
  have hwalk {is : List Instruction} (h : ∀ i ∈ is, i.op.isValid) :
      walk (emitAll [] is) = .ok (placed 0 is) := by
    rw [walk, emitAll_eq]
    exact walkFrom_emitted h []
  refine ⟨fun is h => ⟨placed 0 is, hwalk h, ?_, ?_⟩, fun code h => ?_, fun code => ?_⟩
  · have hmap := congrArg (List.map fun i => (i.op, i.operand.toNat)) (map_placed 0 is)
    rw [List.map_map, List.map_map] at hmap
    refine hmap.trans (List.map_congr_left fun i _ => ?_)
    rw [Function.comp_apply, Instruction.op_stored, i.toNat_operand_stored]
  · have htiles := tiles_placed 0 is
    rwa [Nat.zero_add, ← List.nil_append (is.flatMap _), ← emitAll_eq] at htiles
  · obtain ⟨is, his, rfl⟩ := exists_emitted h
    refine ⟨placed 0 is, ?_, ?_⟩
    · rw [← hwalk his, emitAll_eq, List.nil_append]
    · rw [map_placed, emitAll_stored, emitAll_eq, List.nil_append]
  · constructor
    · intro h
      obtain ⟨is, his, rfl⟩ := exists_emitted h
      exact ⟨is, his, emitAll_eq [] is, (validateFrom_emitted his 0).1 h⟩
    · rintro ⟨is, his, rfl, hjumps⟩
      rw [emitAll_eq]
      exact (validateFrom_emitted his 0).2 hjumps

def jumpOverConstant : List Instruction := [⟨.skip, 2⟩, ⟨.const .w8, 0x1ff⟩]

theorem walk_jumpOverConstant :
    (∀ i ∈ jumpOverConstant, i.op.isValid) ∧
      (∃ ws, walk (emitAll [] jumpOverConstant) = .ok ws ∧
        ws.map (fun w => (w.2.op, w.2.operand.toNat)) = [(.skip, 2), (.const .w8, 0xff)] ∧
        Tiles 0 ws 5) ∧
      validate (emitAll [] jumpOverConstant) = .ok () := by
  obtain ⟨hemitted, -, hvalid⟩ := walk_emission
  have hv : ∀ i ∈ jumpOverConstant, i.op.isValid := by decide
  refine ⟨hv, hemitted jumpOverConstant hv, (hvalid _).2 ⟨jumpOverConstant, hv, rfl, ?_⟩⟩
  exact jumpsInside_cons.2 ⟨by decide, jumpsInside_cons.2 ⟨by decide, jumpsInside_nil⟩⟩

end Code

end WatchExpr
