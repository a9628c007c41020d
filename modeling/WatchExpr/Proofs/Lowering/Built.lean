import WatchExpr.Proofs.Expression.Leaves
import WatchExpr.Proofs.Lowering.Rules
import WatchExpr.Proofs.Tree.Simulation

namespace WatchExpr

namespace Node

/-- A tree of operations of the right arity and scalar conversions over fragments with a
property. -/
def Built (p : List UInt8 → Prop) : Node → Prop
  | missing | const .. => True
  | unary op _ x => (∃ o, op = .unary o) ∧ x.Built p
  | binary op _ x y =>
    ((∃ o, op = .binary o) ∨ ∃ o, op = .compare o) ∧ x.Built p ∧ y.Built p
  | cond c yes no => c.Built p ∧ yes.Built p ∧ no.Built p
  | read _ x | register x | trunc _ _ x => x.Built p
  | convert source result x => source.isScalar ∧ result.isScalar ∧ x.Built p
  | splice code => p code

variable {p : List UInt8 → Prop} {n : Node}

theorem Built.wellFormed (hp : ∀ code, p code → Fragment.SelfContained code) (h : n.Built p) :
    n.WellFormed := by
  induction n with
  | missing => trivial
  | const => trivial
  | unary op g x ih => exact ⟨h.1, ih h.2⟩
  | binary op g x y ihx ihy => exact ⟨h.1, ihx h.2.1, ihy h.2.2⟩
  | cond c yes no ihc ihyes ihno => exact ⟨ihc h.1, ihyes h.2.1, ihno h.2.2⟩
  | read size x ih => exact ih h
  | register x ih => exact ih h
  | trunc bits signed x ih => exact ih h
  | convert source result x ih => exact ih h.2.2
  | splice code => exact hp code h

/-- A built tree that has code fails only for the reasons of its fragments and of the target. -/
theorem Built.fault {F : Fault → Prop} (hF : ∀ f : Fault, ¬ f.IsDefect → F f)
    (h : n.Built (Fragment.Computes F)) {code : List UInt8} (he : n.emit = .ok code)
    {t : Option Target} {layout : Arch} {pending : List Slot} {f : Fault}
    (hf : (n.eval t layout pending).result = .error f) : F f := by
  induction n generalizing code pending with
  | missing => cases he
  | const => cases hf
  | unary op g x ih =>
    obtain ⟨⟨o, rfl⟩, hx⟩ := h
    obtain ⟨cx, hcx, -⟩ := bind_eq_ok he
    obtain hf | ⟨a, -, hf⟩ := Computation.result_bind_error hf
    · exact ih hx hcx hf
    · cases hf
  | binary op g x y ihx ihy =>
    obtain ⟨hop, hx, hy⟩ := h
    obtain ⟨cx, hcx, he⟩ := bind_eq_ok he
    obtain ⟨cy, hcy, he⟩ := bind_eq_ok he
    obtain ⟨cg, hcg, -⟩ := bind_eq_ok he
    obtain ⟨ha, -⟩ := encodeGroup_eq_ok hcg
    obtain hf | ⟨a, -, hf⟩ := Computation.result_bind_error hf
    · exact ihx hx hcx hf
    · obtain hf | ⟨b, -, hf⟩ := Computation.result_bind_error hf
      · exact ihy hy hcy hf
      · obtain ⟨o, rfl⟩ | ⟨o, rfl⟩ := hop
        · obtain rfl | ⟨-, hn⟩ := Machine.BinaryOp.apply_fault hf
          · exact hF _ (by decide)
          · rw [ha] at hn
            cases hn
        · cases hf
  | cond c yes no ihc ihyes ihno =>
    obtain ⟨hc, hyes, hno⟩ := h
    obtain ⟨cc, hcc, he⟩ := bind_eq_ok he
    obtain ⟨cno, hcno, he⟩ := bind_eq_ok he
    obtain ⟨toYes, -, he⟩ := bind_eq_ok he
    obtain ⟨cyes, hcyes, -⟩ := bind_eq_ok he
    obtain hf | ⟨v, -, hf⟩ := Computation.result_bind_error hf
    · exact ihc hc hcc hf
    · split at hf
      · exact ihyes hyes hcyes hf
      · exact ihno hno hcno hf
  | read size x ih =>
    simp only [emit] at he
    split at he
    · cases he
    · obtain ⟨cx, hcx, -⟩ := bind_eq_ok he
      obtain hf | ⟨a, -, hf⟩ := Computation.result_bind_error hf
      · exact ih h hcx hf
      · simp only [Target.loadWord] at hf
        split at hf
        · cases hf
          exact hF _ (by decide)
        · simp only at hf
          split at hf <;> cases hf
          exact hF _ (by decide)
  | register x ih =>
    obtain ⟨cx, hcx, -⟩ := bind_eq_ok he
    obtain hf | ⟨a, -, hf⟩ := Computation.result_bind_error hf
    · exact ih h hcx hf
    · simp only [Target.loadBlock] at hf
      split at hf <;> cases hf
      exact hF _ (by decide)
  | convert source result x ih =>
    obtain ⟨hs, hr, hx⟩ := h
    obtain ⟨cx, hcx, -⟩ := bind_eq_ok he
    obtain hf | ⟨a, -, hf⟩ := Computation.result_bind_error hf
    · exact ih hx hcx hf
    · simp only [Group.ofByte_toByte hs, Group.ofByte_toByte hr, hs, hr, Bool.and_self, if_true]
        at hf
      cases hf
  | trunc bits signed x ih =>
    obtain ⟨cx, hcx, -⟩ := bind_eq_ok he
    obtain hf | ⟨a, -, hf⟩ := Computation.result_bind_error hf
    · exact ih h hcx hf
    · cases hf
  | splice fragment => exact Fragment.fault_of_value h hf

end Node

theorem Kind.isScalar_of_group {k : Kind} (h : k.group ≠ .other) : k.group.isScalar := by
  cases k with
  | basic b => cases b <;> first | rfl | exact absurd rfl h
  | _ => first | rfl | exact absurd rfl h

namespace TypeTable

variable {p : List UInt8 → Prop} {t : TypeTable}

theorem built_truncateTo {n : Node} (h : n.Built p) (k : TypeKey) : (t.truncateTo n k).Built p := by
  simp only [truncateTo]
  split <;> exact h

theorem built_load {r v : Lowered} {t' : TypeTable} (h : r.node.Built p)
    (hl : t.load r = (some v, t')) : v.node.Built p := by
  simp only [load] at hl
  split at hl
  · cases hl
    exact h
  · split at hl
    · cases hl
      exact h
    · split at hl
      · cases hl
      · cases hl
        split <;> exact h
  · split at hl
    · cases hl
    · cases hl
      have hr : (Node.register r.node).Built p := h
      exact built_truncateTo hr _

theorem scalar_of_convert {r : Lowered} {k : TypeKey} {n : Node} (h : t.convert r k = .ok n) :
    t.scalarGroup r.type ≠ .other ∧ t.scalarGroup k ≠ .other := by
  simp only [convert] at h
  split at h
  · cases h
  · rename_i ha
    constructor
    · intro hs
      rw [hs] at ha
      cases hk : t.scalarGroup k <;> simp [hk, Group.conversion, ConversionRule.allowed] at ha
    · intro hs
      rw [hs] at ha
      cases hk : t.scalarGroup r.type <;>
        simp [hk, Group.conversion, ConversionRule.allowed] at ha

theorem built_convert {r : Lowered} {k : TypeKey} {n : Node} (h : r.node.Built p)
    (hc : t.convert r k = .ok n) : n.Built p := by
  obtain ⟨hg, hgk⟩ := scalar_of_convert hc
  have hn : (if (t.scalarGroup r.type).conversion (t.scalarGroup k) = .convert then
      Node.convert (t.scalarGroup r.type) (t.scalarGroup k) r.node else r.node).Built p := by
    split
    · exact ⟨Kind.isScalar_of_group hg, Kind.isScalar_of_group hgk, h⟩
    · exact h
  simp only [convert] at hc
  split at hc
  · cases hc
  · split at hc
    · cases hc
      exact ⟨.inr ⟨_, rfl⟩, h, trivial⟩
    · split at hc
      · cases hc
        exact hn
      · split at hc
        · cases hc
          exact hn
        · cases hc
          exact built_truncateTo hn _

theorem built_converted {r : Lowered} (h : r.node.Built p) (k : TypeKey) :
    (t.converted r k).Built p := by
  rw [converted]
  split
  · rename_i n hn
    exact built_convert h hn
  · trivial

end TypeTable

namespace Lowering

variable {p : List UInt8 → Prop} {t : TypeTable}

theorem built_scaled {n : Node} (h : n.Built p) (size : UInt64) : (scaled n size).Built p := by
  rw [scaled]
  split
  · exact h
  · exact ⟨.inl ⟨_, rfl⟩, h, trivial⟩

theorem built_differsFromZero {n : Node} (h : n.Built p) (g : Group) :
    (TypeTable.differsFromZero g n).Built p :=
  ⟨.inr ⟨_, rfl⟩, h, trivial⟩

theorem built_testOf {x : Lowered} (h : x.node.Built p) : (testOf t x).Built p := by
  rw [testOf]
  split
  · exact built_differsFromZero h _
  · exact h

theorem opcode_arity (op : InfixOp) :
    (∃ o, op.opcode = .binary o) ∨ ∃ o, op.opcode = .compare o := by
  cases op <;> simp [InfixOp.opcode]

theorem comparison_opcode {op : InfixOp} (h : op.isComparison) : ∃ o, op.opcode = .compare o := by
  cases op <;> revert h <;>
    simp [InfixOp.isComparison, InfixOp.opcode, Opcode.isComparison]

theorem built_operation {op : InfixOp} {x y : Lowered} (hx : x.node.Built p) (hy : y.node.Built p) :
    (operation t op x y).Built p := by
  refine ⟨opcode_arity op, TypeTable.built_converted hx _, ?_⟩
  rw [rightOperand]
  split
  · exact hy
  · exact TypeTable.built_converted hy _

theorem UnaryRule.built {op : PrefixOp} {x r : Lowered} (h : UnaryRule t op x r)
    (hx : x.node.Built p) : r.node.Built p := by
  cases h with
  | pointerNot => exact ⟨.inr ⟨_, rfl⟩, hx, trivial⟩
  | logNot => exact ⟨⟨_, rfl⟩, TypeTable.built_converted hx _⟩
  | arithmetic =>
    apply TypeTable.built_truncateTo
    exact ⟨⟨_, rfl⟩, TypeTable.built_converted hx _⟩

theorem BinaryRule.built {op : InfixOp} {x y r : Lowered} (h : BinaryRule t op x y r)
    (hx : x.node.Built p) (hy : y.node.Built p) : r.node.Built p := by
  cases h with
  | conjunction => exact ⟨built_testOf hx, built_differsFromZero hy _, trivial⟩
  | disjunction => exact ⟨built_testOf hx, trivial, built_differsFromZero hy _⟩
  | pointerCompare => exact ⟨opcode_arity op, hx, hy⟩
  | pointerAdd => exact ⟨.inl ⟨_, rfl⟩, hx, built_scaled hy _⟩
  | addPointer => exact ⟨.inl ⟨_, rfl⟩, hy, built_scaled hx _⟩
  | pointerSub => exact ⟨.inl ⟨_, rfl⟩, hx, built_scaled hy _⟩
  | difference _ _ _ hn =>
    obtain rfl | rfl := hn
    · exact ⟨.inl ⟨_, rfl⟩, hx, hy⟩
    · exact ⟨.inl ⟨_, rfl⟩, ⟨.inl ⟨_, rfl⟩, hx, hy⟩, trivial⟩
  | compare => exact built_operation hx hy
  | wrapping => exact TypeTable.built_truncateTo (built_operation hx hy) _
  | closed => exact built_operation hx hy

theorem TernaryRule.built {c yes no r : Lowered} (h : TernaryRule t c yes no r)
    (hc : c.node.Built p) (hyes : yes.node.Built p) (hno : no.node.Built p) : r.node.Built p := by
  cases h with
  | arithmetic => exact ⟨hc, TypeTable.built_converted hyes _, TypeTable.built_converted hno _⟩
  | pointer => exact ⟨hc, hyes, hno⟩

theorem MemberRule.built {record : TypeKey} {field : Text} {base : Node} {mode : Mode} {r : Lowered}
    (h : MemberRule t record field base mode r) (hb : base.Built p) : r.node.Built p := by
  cases h with
  | first => exact hb
  | later => exact ⟨.inl ⟨_, rfl⟩, hb, trivial⟩

def FragmentHas (p : List UInt8 → Prop) : Expr → Prop
  | .leaf _ _ code _ _ => p code
  | _ => True

theorem Lowers.built {t' : TypeTable} {e : Expr} {r : Lowered} (h : Lowers t e r t')
    (ha : e.Atoms (FragmentHas p)) : r.node.Built p := by
  induction h with
  | @int t s v isChar =>
    simp only [lowerInt]
    split
    · trivial
    · split
      · trivial
      · split <;> trivial
  | @float t s bits isSingle =>
    simp only [lowerFloat]
    split <;> trivial
  | leaf => exact ha
  | unary _ hvx h ih => exact h.built (TypeTable.built_load (ih ha) hvx)
  | binary _ hvx _ hvy h ihx ihy =>
    exact h.built (TypeTable.built_load (ihx ha.1) hvx) (TypeTable.built_load (ihy ha.2) hvy)
  | ternary _ hvc _ hvy _ hvn h ihc ihyes ihno =>
    exact h.built (TypeTable.built_load (ihc ha.1) hvc) (TypeTable.built_load (ihyes ha.2.1) hvy)
      (TypeTable.built_load (ihno ha.2.2) hvn)
  | cast _ _ _ hvx _ h ih => exact TypeTable.built_convert (TypeTable.built_load (ih ha) hvx) h
  | sizeofType => trivial
  | sizeof => trivial
  | deref _ hvx _ ih =>
    have hv := TypeTable.built_load (ih ha) hvx
    exact hv
  | addressOf _ _ _ ih => exact ih ha
  | indexArray _ _ hvi _ _ _ ihx ihi =>
    exact ⟨.inl ⟨_, rfl⟩, built_scaled (TypeTable.built_load (ihi ha.2) hvi) _, ihx ha.1⟩
  | indexPointer _ _ hvi _ _ hvx ihx ihi =>
    exact ⟨.inl ⟨_, rfl⟩, built_scaled (TypeTable.built_load (ihi ha.2) hvi) _,
      TypeTable.built_load (ihx ha.1) hvx⟩
  | arrow _ _ hvx h ih => exact h.built (TypeTable.built_load (ih ha) hvx)
  | member _ _ h ih => exact h.built (ih ha)

end Lowering

end WatchExpr
