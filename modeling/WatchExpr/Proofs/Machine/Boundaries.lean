import WatchExpr.Proofs.Machine.Emission

namespace WatchExpr

namespace Code

/-- The offsets that decoding from the first byte on comes to: the starts of instructions, and the
end where the whole code decodes. -/
inductive Boundary : List UInt8 → Nat → Prop
  | start {code : List UInt8} : Boundary code 0
  | next {b : UInt8} {rest after : List UInt8} {i : Instruction} {n : Nat}
      (hd : Instruction.decode b rest = .ok (i, after)) (h : Boundary after n) :
      Boundary (b :: rest) (i.op.length + n)

def JumpsLand (code : List UInt8) : Prop :=
  ∀ (n : Nat) (i : Instruction), Boundary code n → decodeAt code n = .ok i → i.op.isJump →
    Boundary code (n + i.op.length + i.operand.toNat)

variable {code tail rest after : List UInt8} {b : UInt8} {i : Instruction} {n offset : Nat}

theorem decodeAt_eq_ok :
    decodeAt code n = .ok i ↔
      ∃ b rest after, code.drop n = b :: rest ∧ Instruction.decode b rest = .ok (i, after) := by
  simp only [decodeAt, Int.toNat_natCast]
  rw [if_neg (Int.not_lt.2 (Int.natCast_nonneg n))]
  constructor
  · intro h
    split at h
    · cases h
    · rename_i b rest hdrop
      split at h
      · cases h
      · rename_i j after hd
        cases h
        exact ⟨b, rest, after, hdrop, hd⟩
  · rintro ⟨b, rest, after, hdrop, hd⟩
    simp only [hdrop, hd]

theorem drop_of_decode (hd : Instruction.decode b rest = .ok (i, after)) :
    after = rest.drop i.op.operandLength ∧ i.op.operandLength ≤ rest.length := by
  simp only [Instruction.decode] at hd
  split at hd
  · cases hd
  · split at hd
    · cases hd
    · rename_i hl
      cases hd
      simp only [List.length_take] at hl
      exact ⟨rfl, Nat.le_of_not_lt fun h => hl (Nat.lt_of_le_of_lt (Nat.min_le_right _ _) h)⟩

theorem drop_cons_of_decode (hd : Instruction.decode b rest = .ok (i, after)) (n : Nat) :
    (b :: rest).drop (i.op.length + n) = after.drop n := by
  rw [(drop_of_decode hd).1, List.drop_drop, Opcode.length,
    show 1 + i.op.operandLength + n = i.op.operandLength + n + 1 by omega, List.drop_succ_cons]

theorem length_cons_of_decode (hd : Instruction.decode b rest = .ok (i, after)) :
    (b :: rest).length = i.op.length + after.length := by
  obtain ⟨rfl, hl⟩ := drop_of_decode hd
  simp only [List.length_cons, List.length_drop, Opcode.length]
  omega

/-- The starts behind an instruction are those of the code behind it. -/
theorem boundary_cons (hd : Instruction.decode b rest = .ok (i, after)) :
    Boundary (b :: rest) (i.op.length + n) ↔ Boundary after n := by
  constructor
  · intro h
    generalize hn : i.op.length + n = m at h
    cases h with
    | start =>
      simp only [Opcode.length] at hn
      omega
    | next hd' h =>
      rw [hd] at hd'
      cases hd'
      rwa [Nat.add_left_cancel hn]
  · exact .next hd

theorem jumpsLand_cons (hd : Instruction.decode b rest = .ok (i, after)) :
    JumpsLand (b :: rest) ↔
      (i.op.isJump → Boundary after i.operand.toNat) ∧ JumpsLand after := by
  constructor
  · intro h
    refine ⟨fun hj => ?_, fun n j hn hat hj => ?_⟩
    · have hat : decodeAt (b :: rest) (0 : Nat) = .ok i :=
        decodeAt_eq_ok.2 ⟨b, rest, after, rfl, hd⟩
      have hb := h 0 i .start hat hj
      rwa [Nat.zero_add, boundary_cons hd] at hb
    · have hat' : decodeAt (b :: rest) (i.op.length + n : Nat) = .ok j := by
        rw [decodeAt_eq_ok, drop_cons_of_decode hd]
        exact decodeAt_eq_ok.1 hat
      have hb := h _ j (.next hd hn) hat' hj
      rwa [Nat.add_assoc, Nat.add_assoc, boundary_cons hd, ← Nat.add_assoc] at hb
  · rintro ⟨hi, h⟩ n j hn hat hj
    cases hn with
    | start =>
      obtain ⟨b', rest', after', hdrop, hd'⟩ := decodeAt_eq_ok.1 hat
      cases hdrop
      rw [hd] at hd'
      cases hd'
      rw [Nat.zero_add, boundary_cons hd]
      exact hi hj
    | @next _ _ _ k m hd' hm =>
      rw [hd] at hd'
      cases hd'
      rw [decodeAt_eq_ok, drop_cons_of_decode hd] at hat
      rw [Nat.add_assoc, Nat.add_assoc, boundary_cons hd, ← Nat.add_assoc]
      exact h m j hm (decodeAt_eq_ok.2 hat) hj

theorem jumpsLand_nil : JumpsLand [] := by
  intro n i _ hat
  obtain ⟨b, rest, after, hdrop, -⟩ := decodeAt_eq_ok.1 hat
  simp at hdrop

theorem validateFrom_cons (hd : Instruction.decode b rest = .ok (i, after)) :
    validateFrom offset (b :: rest) = .ok () ↔
      (i.op.isJump → i.operand.toNat ≤ after.length) ∧
        validateFrom (offset + i.op.length) after = .ok () := by
  rw [validateFrom]
  split
  · rename_i hd'
    rw [hd] at hd'
    cases hd'
  · rename_i hd'
    rw [hd] at hd'
    cases hd'
    split
    · rename_i hj
      simp only [Bool.and_eq_true, decide_eq_true_eq] at hj
      constructor
      · intro h
        cases h
      · intro h
        exact absurd (h.1 hj.1) (Nat.not_le.2 hj.2)
    · rename_i hj
      simp only [Bool.and_eq_true, decide_eq_true_eq, not_and, Nat.not_lt] at hj
      exact ⟨fun h => ⟨hj, h⟩, And.right⟩

theorem validateFrom_offset (h : validateFrom offset code = .ok ()) (offset' : Nat) :
    validateFrom offset' code = .ok () := by
  fun_induction validateFrom offset code generalizing offset' with
  | case1 offset => rw [validateFrom]
  | case2 => cases h
  | case3 => cases h
  | case4 offset b rest i after hd hj ih =>
    simp only [Bool.and_eq_true, decide_eq_true_eq, not_and, Nat.not_lt] at hj
    exact (validateFrom_cons hd).2 ⟨hj, ih h _⟩

theorem boundary_length (h : validateFrom offset code = .ok ()) : Boundary code code.length := by
  fun_induction validateFrom offset code with
  | case1 offset => exact .start
  | case2 => cases h
  | case3 => cases h
  | case4 offset b rest i after hd hj ih =>
    rw [length_cons_of_decode hd]
    exact .next hd (ih h)

theorem Boundary.append (h : Boundary code n) (tail : List UInt8) : Boundary (code ++ tail) n := by
  induction h with
  | start => exact .start
  | next hd _ ih => exact .next (decode_append hd tail) ih

/-- The starts of code keep their distance from its own start wherever it is put. -/
theorem boundary_append (hc : validateFrom offset code = .ok ()) (h : Boundary tail n) :
    Boundary (code ++ tail) (code.length + n) := by
  fun_induction validateFrom offset code with
  | case1 offset => simpa using h
  | case2 => cases hc
  | case3 => cases hc
  | case4 offset b rest i after hd hj ih =>
    rw [length_cons_of_decode hd, Nat.add_assoc]
    exact .next (decode_append hd tail) (ih hc)

theorem jumpsLand_append (hc : validateFrom offset code = .ok ()) (h : JumpsLand code)
    (ht : JumpsLand tail) : JumpsLand (code ++ tail) := by
  fun_induction validateFrom offset code with
  | case1 offset => exact ht
  | case2 => cases hc
  | case3 => cases hc
  | case4 offset b rest i after hd hj ih =>
    rw [jumpsLand_cons hd] at h
    rw [List.cons_append, jumpsLand_cons (decode_append hd tail)]
    exact ⟨fun hj => (h.1 hj).append tail, ih hc h.2⟩

section
variable (hv : i.op.isValid) (ho : i.operand.toNat < 2 ^ (8 * i.op.operandLength))
include hv ho

theorem decode_encode_append (rest : List UInt8) :
    Instruction.decode i.op.toByte (littleEndian i.op.operandLength i.operand ++ rest) =
      .ok (i, rest) := by
  rw [Instruction.decode_encode hv, i.stored_eq_self ho]

theorem validateFrom_jump (hl : i.operand.toNat ≤ rest.length)
    (hr : validateFrom offset rest = .ok ()) (offset' : Nat) :
    validateFrom offset' (i.encode ++ rest) = .ok () :=
  (validateFrom_cons (decode_encode_append hv ho rest)).2 ⟨fun _ => hl, validateFrom_offset hr _⟩

theorem jumpsLand_jump (hb : Boundary rest i.operand.toNat) (hr : JumpsLand rest) :
    JumpsLand (i.encode ++ rest) :=
  (jumpsLand_cons (decode_encode_append hv ho rest)).2 ⟨fun _ => hb, hr⟩

end

theorem jumpsLand_encode (hv : i.op.isValid) (hj : i.op.isJump = false) : JumpsLand i.encode := by
  have hd := Instruction.decode_encode hv []
  rw [List.append_nil] at hd
  have ho : i.stored.op = i.op := rfl
  refine (jumpsLand_cons hd).2 ⟨?_, jumpsLand_nil⟩
  rw [ho, hj]
  rintro ⟨⟩

end Code

end WatchExpr
