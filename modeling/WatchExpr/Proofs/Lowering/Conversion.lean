import WatchExpr.Proofs.Lowering.Built
import WatchExpr.Proofs.Lowering.Loading
import WatchExpr.Proofs.Machine.FloatingZero

namespace WatchExpr

namespace BasicKind

/-- A slot of one builtin kind as a slot of another. A boolean asks whether the slot is zero; what
becomes an integer is cut to its width, unless it is known to fit. -/
def convert (a b : BasicKind) (v : Slot) : Slot :=
  if b = .bool ∧ a ≠ .bool then Slot.ofBool (!Slot.isZero a.group v)
  else if b.group.isInteger ∧ ¬ (a.group.isInteger ∧ a.isSigned = b.isSigned ∧ a.size ≤ b.size) then
    b.extend (Slot.convert a.group b.group v)
  else Slot.convert a.group b.group v

/-- Groups that share a representation share it slot by slot. -/
theorem convert_of_same {a b : Group} (h : a.conversion b ≠ .convert) (ha : a ≠ .other)
    (hb : b ≠ .other) (v : Slot) : Slot.convert a b v = v := by
  cases a <;> cases b <;>
    simp_all [Group.conversion, Group.isInteger, Slot.convert]

theorem extend_of_le {b : BasicKind} (h : 8 ≤ b.size) (v : Slot) : b.extend v = v := by
  have hb : 64 ≤ b.bits := by
    cases b <;> revert h <;> decide
  rw [extend]
  split
  · rw [Slot.signExtend, if_pos hb]
  · rw [Slot.truncate, if_pos hb]

end BasicKind

namespace TypeTable

variable {t : TypeTable} {k : TypeKey} {a b : BasicKind} {r : Lowered} {target : Option Target}
  {layout : Arch} {pending : List Slot}

/-- A slot of one type as a slot of another; addresses stay as they are. -/
def convertSlot (t : TypeTable) (source result : TypeKey) (v : Slot) : Slot :=
  match (t.unwrapEnum source).kind, (t.unwrapEnum result).kind with
  | .basic a, .basic b => a.convert b v
  | _, _ => v

theorem basic_of_isArithmetic (h : t.isArithmetic k) :
    ∃ b, (t.unwrapEnum k).kind = .basic b ∧ b.group ≠ .other := by
  simp only [isArithmetic, scalarGroup, Bool.and_eq_true, bne_iff_ne] at h
  cases hk : (t.unwrapEnum k).kind with
  | basic b =>
    rw [hk] at h
    exact ⟨b, rfl, h.2⟩
  | _ =>
    rw [hk] at h
    cases h.1

theorem convertSlot_pointer (h : t.isPointer k) (source : TypeKey) (v : Slot) :
    t.convertSlot source k v = v := by
  rw [convertSlot]
  split
  · rename_i a b ha hb
    rw [isPointer] at h
    obtain hu | hu := unwrap_of_basic hb
    · rw [hu] at h
      cases h
    · rw [hu] at h
      cases h
  · rfl

/-- Narrowing to an integer kind extends from its width, however wide it is. -/
theorem eval_truncateTo_integer (hk : (t.unwrapEnum k).kind = .basic b) (hb : b.group.isInteger)
    (n : Node) :
    (t.truncateTo n k).eval target layout pending =
      n.eval target layout pending >>= fun v => pure (b.extend v) := by
  by_cases hs : b.size ≤ 8
  · exact eval_truncateTo hk ⟨hb, hs⟩ n
  · have hl : 8 ≤ b.size := UInt64.le_of_lt (UInt64.not_le.1 hs)
    have hn : t.truncateTo n k = n := by
      simp only [truncateTo, hk, byteSize_basic hk, hl, decide_true, Bool.or_true, if_true]
    simp only [hn, BasicKind.extend_of_le hl, bind_pure]

theorem eval_differsFromZero (g : Group) (n : Node) :
    (differsFromZero g n).eval target layout pending =
      n.eval target layout pending >>= fun v => pure (Slot.ofBool (!Slot.isZero g v)) := by
  simp only [differsFromZero, Node.eval, Node.unsigned, pure_bind, Comparison.apply_ne_zero]

section
variable (ha : (t.unwrapEnum r.type).kind = .basic a) (hga : a.group ≠ .other)
  (hb : (t.unwrapEnum k).kind = .basic b) (hgb : b.group ≠ .other)
include hga hgb

theorem allowed_conversion : (a.group.conversion b.group).allowed := by
  simp only [Group.conversion, hga, hgb, false_and, if_false]
  split <;> rfl

/-- The instruction between two groups, or its absence where they share a representation. -/
theorem eval_conversion (n : Node) :
    (if a.group.conversion b.group = .convert then
        Node.convert a.group b.group n else n).eval target layout pending =
      n.eval target layout pending >>= fun v => pure (Slot.convert a.group b.group v) := by
  have hsa : a.group.isScalar := Kind.isScalar_of_group (k := .basic a) hga
  have hsb : b.group.isScalar := Kind.isScalar_of_group (k := .basic b) hgb
  split
  · simp only [Node.eval, Group.ofByte_toByte hsa, Group.ofByte_toByte hsb, hsa, hsb,
      Bool.and_self, if_true]
  · rename_i hsame
    simp only [BasicKind.convert_of_same hsame hga hgb, bind_pure]

include ha hb

theorem eval_converted :
    (t.converted r k).eval target layout pending =
      r.node.eval target layout pending >>= fun v => pure (a.convert b v) := by
  have hs (c : BasicKind) : (Kind.basic c).isSigned = c.isSigned := rfl
  simp only [converted, convert, scalarGroup_of_basic ha, scalarGroup_of_basic hb,
    allowed_conversion hga hgb, ha, hb, Kind.isInteger, byteSize_basic ha, byteSize_basic hb, hs,
    Kind.basic.injEq, ne_eq, Bool.not_true, Bool.false_eq_true, if_false, Bool.not_eq_true',
    BasicKind.convert]
  by_cases hbool : b = .bool ∧ ¬ a = .bool
  · simp only [if_pos hbool, eval_differsFromZero]
  · simp only [if_neg hbool]
    by_cases hi : b.group.isInteger = false
    · simp only [hi, if_true, Bool.false_eq_true, false_and, if_false, eval_conversion hga hgb]
    · rw [Bool.not_eq_false] at hi
      by_cases hfits : a.group.isInteger ∧ a.isSigned = b.isSigned ∧ a.size ≤ b.size
      · simp only [hi, Bool.true_eq_false, if_false, hfits, and_self, if_true, not_true_eq_false,
          and_false, eval_conversion hga hgb]
      · simp only [hi, Bool.true_eq_false, if_false, hfits, not_false_eq_true, and_self,
          if_true, eval_truncateTo_integer (t.kind_unwrapEnum hb) hi,
          eval_conversion hga hgb, bind_assoc, pure_bind]

end

theorem emit_of_differsFromZero {g : Group} {n : Node} {code : List UInt8}
    (h : (differsFromZero g n).emit = .ok code) : ∃ code, n.emit = .ok code := by
  obtain ⟨cn, hn, -⟩ := Node.bind_eq_ok h
  exact ⟨cn, hn⟩

theorem emit_of_truncateTo {n : Node} {code : List UInt8} (h : (t.truncateTo n k).emit = .ok code) :
    ∃ code, n.emit = .ok code := by
  simp only [truncateTo] at h
  split at h
  · exact ⟨code, h⟩
  · obtain ⟨cn, hn, -⟩ := Node.bind_eq_ok h
    exact ⟨cn, hn⟩

theorem emit_of_converted {code : List UInt8} (h : (t.converted r k).emit = .ok code) :
    ∃ code, r.node.emit = .ok code := by
  have hnode {g g' : Group} {p : Prop} [Decidable p] {code : List UInt8}
      (h : (if p then Node.convert g g' r.node else r.node).emit = .ok code) :
      ∃ code, r.node.emit = .ok code := by
    split at h
    · obtain ⟨cn, hn, -⟩ := Node.bind_eq_ok h
      exact ⟨cn, hn⟩
    · exact ⟨code, h⟩
  rw [converted] at h
  split at h
  · rename_i n hn
    simp only [convert] at hn
    split at hn
    · cases hn
    · split at hn
      · cases hn
        exact emit_of_differsFromZero h
      · split at hn
        · cases hn
          exact hnode h
        · split at hn
          · cases hn
            exact hnode h
          · cases hn
            obtain ⟨c, hc⟩ := emit_of_truncateTo h
            exact hnode hc
  · cases h

theorem need_le_truncateTo (t : TypeTable) (n : Node) (k : TypeKey) :
    n.need ≤ (t.truncateTo n k).need := by
  simp only [truncateTo]
  split <;> exact Nat.le_refl _

theorem need_le_differsFromZero (g : Group) (n : Node) : n.need ≤ (differsFromZero g n).need :=
  Nat.le_max_left _ _

theorem need_le_converted {code : List UInt8} (h : (t.converted r k).emit = .ok code) :
    r.node.need ≤ (t.converted r k).need := by
  have hnode {g g' : Group} {p : Prop} [Decidable p] :
      r.node.need ≤ (if p then Node.convert g g' r.node else r.node).need := by
    split <;> exact Nat.le_refl _
  rw [converted] at h ⊢
  split at h
  · rename_i n hn
    simp only [convert] at hn
    split at hn
    · cases hn
    · split at hn
      · cases hn
        exact need_le_differsFromZero _ _
      · split at hn
        · cases hn
          exact hnode
        · split at hn
          · cases hn
            exact hnode
          · cases hn
            exact Nat.le_trans hnode (need_le_truncateTo _ _ _)
  · cases h

theorem basic_promote (h : k.kind = .basic a) (hg : a.group ≠ .other) :
    ∃ c, k.promote.kind = .basic c ∧ c.group ≠ .other := by
  rw [TypeKey.promote]
  split
  all_goals first
    | exact ⟨.s32, rfl, nofun⟩
    | exact ⟨a, h, hg⟩

theorem isArithmetic_coerce {l r : TypeKey} (hl : t.isArithmetic l) (hr : t.isArithmetic r) :
    ∃ c, (t.unwrapEnum (t.coerce l r)).kind = .basic c ∧ c.group ≠ .other := by
  obtain ⟨a, ha, hga⟩ := basic_of_isArithmetic hl
  obtain ⟨b, hb, hgb⟩ := basic_of_isArithmetic hr
  obtain ⟨a', ha', hga'⟩ := basic_promote ha hga
  obtain ⟨b', hb', hgb'⟩ := basic_promote hb hgb
  have hc : ∃ c, (t.coerce l r).kind = .basic c ∧ c.group ≠ .other := by
    simp only [coerce]
    split
    · exact ⟨.f64, rfl, nofun⟩
    · split
      · exact ⟨.f32, rfl, nofun⟩
      · split
        · exact ⟨a', ha', hga'⟩
        · split
          · exact ⟨b', hb', hgb'⟩
          · split
            · exact ⟨b', hb', hgb'⟩
            · exact ⟨a', ha', hga'⟩
  obtain ⟨c, hc, hgc⟩ := hc
  exact ⟨c, by rw [unwrapEnum_of_basic hc, hc], hgc⟩

end TypeTable

end WatchExpr
