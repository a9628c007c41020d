import WatchExpr.Proofs.Tree.Meaning
import WatchExpr.Proofs.Types.Range
import WatchExpr.Proofs.Types.Unwrapping

namespace WatchExpr

namespace BasicKind

variable {b : BasicKind}

theorem IsNarrow.toNat_bits (h : b.IsNarrow) : (b.size * 8).toUInt8.toNat = b.bits := by
  cases b <;> revert h <;> decide

theorem IsWord.toNat_size (h : b.IsWord) : b.size.toUInt8.toNat = b.size.toNat := by
  cases b <;> revert h <;> decide

theorem IsWord.size_bounds (h : b.IsWord) : ¬ (b.size = 0 ∨ 8 < b.size) := by
  cases b <;> revert h <;> decide

theorem extend_of_wide (h : b.IsWord) (hn : ¬ b.IsNarrow) (v : Slot) : b.extend v = v := by
  have h64 : b.bits = 64 := by
    cases b <;> revert h hn <;> decide
  rw [extend, h64]
  split <;> rfl

/-- Only narrow signed kinds change a slot that has no more bytes than the kind. -/
theorem extend_of_not_signed (h : b.IsWord) (hs : ¬ (b.isSigned ∧ b.size < 8)) {v : Slot}
    (hv : v.toNat < 2 ^ b.bits) : b.extend v = v := by
  by_cases hn : b.IsNarrow
  · have hu : b.isSigned = false := by
      rw [Bool.eq_false_iff]
      intro hsign
      exact hs ⟨hsign, hn.2⟩
    exact extend_of_toNat_lt h hu hv
  · exact extend_of_wide h hn v

theorem IsWord.conversion_eq {a : BasicKind} (ha : a.IsWord) (hb : b.IsWord) :
    a.group.conversion b.group = .same := by
  rw [ha.group_eq, hb.group_eq]
  cases a.isSigned <;> cases b.isSigned <;> rfl

theorem isWord_of_register (h : b ∈ [u8, u16, u32, u64]) : b.IsWord ∧ b.isSigned = false := by
  revert b
  decide

theorem toNat_size_le (h : b.IsWord) : b.size.toNat ≤ 8 := UInt64.le_iff_toNat_le.1 h.2

end BasicKind

namespace TypeTable

variable {t : TypeTable} {k : TypeKey} {b : BasicKind} {target : Option Target} {layout : Arch}
  {pending : List Slot}

theorem scalarGroup_of_basic (h : (t.unwrapEnum k).kind = .basic b) :
    t.scalarGroup k = b.group := by
  rw [scalarGroup, h]
  rfl

theorem scalarGroup_ne_other (h : (t.unwrapEnum k).kind = .basic b) (hb : b.IsWord) :
    t.scalarGroup k ≠ .other := by
  intro ho
  have hi := hb.1
  rw [← scalarGroup_of_basic h, ho] at hi
  cases hi

theorem eval_truncateTo (hk : (t.unwrapEnum k).kind = .basic b) (hb : b.IsWord) (n : Node) :
    (t.truncateTo n k).eval target layout pending =
      n.eval target layout pending >>= fun v => pure (b.extend v) := by
  by_cases hn : b.IsNarrow
  · have hi : (!b.group.isInteger || decide (b.size = 0) || decide (8 ≤ b.size)) = false := by
      cases b <;> revert hn <;> decide
    simp only [truncateTo, hk, byteSize_basic hk, Kind.isInteger, hi, Bool.false_eq_true, if_false,
      Node.eval, hn.toNat_bits]
    rfl
  · have hi : (!b.group.isInteger || decide (b.size = 0) || decide (8 ≤ b.size)) = true := by
      cases b <;> revert hb hn <;> decide
    simp only [truncateTo, hk, byteSize_basic hk, Kind.isInteger, hi, if_true,
      BasicKind.extend_of_wide hb hn, bind_pure]

def readAs (b : BasicKind) (address : Node) : Node :=
  if b.isSigned ∧ b.size < 8 then
    .trunc (b.size * 8).toUInt8 true (.read b.size.toUInt8 address)
  else .read b.size.toUInt8 address

/-- A read extends from the width of the type: signed numbers are sign-extended, and unsigned ones
have only the bytes that were read. -/
theorem eval_readAs (hb : b.IsWord) (n : Node) :
    (readAs b n).eval target layout pending = (do
      let address ← n.eval target layout pending
      let v ← Target.loadWord target address b.size.toNat
      pure (b.extend v)) := by
  rw [readAs]
  split
  · rename_i hs
    have hn : b.IsNarrow := ⟨hb.1, hs.2⟩
    have he : ∀ v, b.extend v = Slot.signExtend b.bits v := fun v => if_pos hs.1
    simp only [Node.eval, bind_assoc, hb.toNat_size, hn.toNat_bits, if_true, he]
  · rename_i hs
    simp only [Node.eval, hb.toNat_size]
    apply Computation.bind_congr_ok
    intro address _
    rw [← bind_pure (Target.loadWord target address b.size.toNat), bind_assoc]
    apply Computation.bind_congr_ok
    intro v hv
    have hlt := Target.loadWord_lt (BasicKind.toNat_size_le hb) hv
    rw [pure_bind, BasicKind.extend_of_not_signed hb hs hlt]

/-- The kind behind a name of a builtin type is builtin or an enumeration. -/
theorem unwrap_of_basic (hk : (t.unwrapEnum k).kind = .basic b) :
    (t.unwrap k).kind = .basic b ∨ (t.unwrap k).kind = .enum := by
  obtain hu | ⟨hu, -⟩ := unwrap_cases t k
  · rw [hu] at hk
    exact .inl hk
  · exact .inr hu

theorem load_of_address {r : Lowered} (hm : r.mode = .address)
    (hk : (t.unwrapEnum r.type).kind = .basic b) (hb : b.IsWord) :
    t.load r = (some ⟨readAs b r.node, r.type, .value⟩, t) := by
  have ha : (t.unwrap r.type).kind ≠ .array := by
    obtain hu | hu := unwrap_of_basic hk
    · rw [hu]
      rintro ⟨⟩
    · rw [hu]
      rintro ⟨⟩
  simp only [load, hm, if_neg ha, byteSize_unwrap hk, if_neg hb.size_bounds,
    unwrapEnum_unwrap (scalarGroup_ne_other hk hb), hk, Kind.isSigned]
  rfl

end TypeTable

end WatchExpr
