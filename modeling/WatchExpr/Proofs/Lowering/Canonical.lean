import WatchExpr.Proofs.Lowering.Loading
import WatchExpr.Proofs.Lowering.Repetition
import WatchExpr.Proofs.Lowering.Safety
import WatchExpr.Proofs.Tree.Yields

namespace WatchExpr

/-- Where the type is a narrow integer, all values are canonical. -/
def Lowered.CanonicalIn (table : TypeTable) (r : Lowered) : Prop :=
  ∀ b : BasicKind, (table.unwrapEnum r.type).kind = .basic b → b.IsNarrow →
    r.node.Yields fun v => b.extend v = v

namespace TypeTable

variable {t t' table : TypeTable} {k : TypeKey} {b : BasicKind}

theorem Extends.not_basic_of_isPointer (h : t.Extends table) (hp : t.isPointer k) :
    (table.unwrapEnum k).kind ≠ .basic b := by
  have hk : ∀ {kind : Kind}, kind.isPointerLike →
      kind.group = .u ∧ kind ≠ .enum ∧ kind ≠ .basic b := by
    intro kind hl
    cases kind <;> simp_all [Kind.isPointerLike, Kind.group]
  obtain ⟨hg, he, hb⟩ := hk hp
  have hu : t.unwrapEnum k = t.unwrap k := by
    obtain hu | ⟨hu, -⟩ := unwrap_cases t k
    · exact hu
    · exact absurd hu he
  have hs : table.unwrapEnum k = t.unwrapEnum k := by
    apply h.unwrapEnum_of_scalarGroup
    rw [scalarGroup, hu, hg]
    rintro ⟨⟩
  rw [hs, hu]
  exact hb

theorem yields_truncateTo (hk : (t.unwrapEnum k).kind = .basic b) (hb : b.IsNarrow) (n : Node) :
    (t.truncateTo n k).Yields fun v => b.extend v = v := by
  intro target layout pending v hv
  rw [eval_truncateTo hk hb.isWord] at hv
  obtain ⟨w, -, hv⟩ := Computation.result_bind_ok hv
  cases hv
  exact BasicKind.extend_extend hb.isWord w

theorem yields_readAs (hb : b.IsNarrow) (n : Node) :
    (readAs b n).Yields fun v => b.extend v = v := by
  intro target layout pending v hv
  rw [eval_readAs hb.isWord] at hv
  obtain ⟨a, -, hv⟩ := Computation.result_bind_ok hv
  obtain ⟨w, -, hv⟩ := Computation.result_bind_ok hv
  cases hv
  exact BasicKind.extend_extend hb.isWord w

theorem canonical_load {r v : Lowered} (hl : t.load r = (some v, t')) (hT : t'.Extends table)
    (hr : r.mode = .value → r.CanonicalIn table) : v.CanonicalIn table := by
  intro b hk hb
  have hsized (ht : t.Extends table) (hs : t.byteSize (t.unwrap r.type) ≠ 0)
      (hk : (table.unwrapEnum r.type).kind = .basic b) :
      (t.unwrapEnum r.type).kind = .basic b ∧
        t.unwrapEnum (t.unwrap r.type) = t.unwrapEnum r.type := by
    rw [ht.unwrapEnum_of_byteSize hs] at hk
    exact ⟨hk, unwrapEnum_unwrap (scalarGroup_ne_other hk hb.isWord)⟩
  simp only [load] at hl
  split at hl
  · rename_i hm
    cases hl
    exact hr hm b hk hb
  · split at hl
    · cases hl
      have hp := t.kind_pointer (t.direct (t.unwrap r.type))
      rw [unwrapEnum_eq_self (by rw [hp]; rfl) (by rw [hp]; rintro ⟨⟩), hp] at hk
      cases hk
    · split at hl
      · cases hl
      · rename_i hs
        rw [not_or] at hs
        cases hl
        obtain ⟨hk', hu⟩ := hsized hT hs.1 hk
        rw [hu, hk', byteSize_unwrap hk']
        exact yields_readAs hb r.node
  · split at hl
    · cases hl
    · rename_i hs
      rw [not_or] at hs
      cases hl
      obtain ⟨hk', hu⟩ := hsized hT hs.1 hk
      apply yields_truncateTo _ hb
      rw [hu]
      exact hk'

theorem type_of_load_of_ne_array {r v : Lowered} (hl : t.load r = (some v, t'))
    (hk : (t'.unwrap r.type).kind ≠ .array) : v.type = r.type := by
  have hT := extends_of_load hl
  simp only [load] at hl
  split at hl
  · cases hl
    rfl
  · split at hl
    · rename_i ha
      obtain hu | hu := hT.unwrapWithin maxChain r.type
      · rw [← unwrap, ← unwrap] at hu
        rw [← hu] at ha
        exact absurd ha hk
      · have htr := hu.1
        rw [← unwrap, ha] at htr
        cases htr
    · split at hl <;> cases hl
      rfl
  · split at hl <;> cases hl
    rfl

theorem type_of_load {r v : Lowered} (hl : t.load r = (some v, t'))
    (hk : (t'.unwrapEnum r.type).kind = .basic b) : v.type = r.type := by
  apply type_of_load_of_ne_array hl
  obtain hu | hu := unwrap_of_basic hk
  · rw [hu]
    rintro ⟨⟩
  · rw [hu]
    rintro ⟨⟩

theorem extend_ofBool (b : Bool) : BasicKind.bool.extend (Slot.ofBool b) = Slot.ofBool b := by
  cases b <;> decide

theorem Kind.isInteger_iff {kind : Kind} :
    kind.isInteger ↔ ∃ b : BasicKind, kind = .basic b ∧ b.group.isInteger := by
  cases kind <;> simp [Kind.isInteger]

/-- A conversion gives a canonical value: it narrows unless the value is canonical already. -/
theorem canonical_convert {r : Lowered} {n : Node} (h : t.convert r k = .ok n)
    (hT : t.Extends table) (hr : r.CanonicalIn table) :
    Lowered.CanonicalIn table ⟨n, k, .value⟩ := by
  obtain ⟨hg, hgk⟩ := scalar_of_convert h
  intro b hk hb
  rw [Lowered.CanonicalIn, hT.unwrapEnum_of_scalarGroup hg] at hr
  simp only [hT.unwrapEnum_of_scalarGroup hgk] at hk
  have hi : (Kind.basic b).isInteger := hb.1
  simp only [convert] at h
  split at h
  · cases h
  · simp only [hk, hi, Bool.not_true, Bool.false_eq_true, if_false] at h
    split at h
    · rename_i hbool
      cases h
      cases hbool.1
      exact Node.yields_compare extend_ofBool
    · split at h
      · rename_i hsame
        obtain ⟨hgi, hsign, hsize⟩ := hsame
        obtain ⟨a, ha, hai⟩ := Kind.isInteger_iff.1 hgi
        have hle : a.size ≤ b.size := by
          rw [byteSize_basic ha, byteSize_basic hk] at hsize
          exact hsize
        have han : a.IsNarrow := ⟨hai, UInt64.lt_of_le_of_lt hle hb.2⟩
        have hrule : (t.scalarGroup r.type).conversion (t.scalarGroup k) = .same := by
          rw [scalarGroup_of_basic ha, scalarGroup_of_basic hk]
          exact han.isWord.conversion_eq hb.isWord
        cases h
        rw [hrule, if_neg (by decide)]
        refine (hr a ha han).mono ?_
        intro v hv
        rw [ha] at hsign
        exact BasicKind.extend_of_size_le han.isWord hb.isWord hsign hle hv
      · cases h
        exact yields_truncateTo (t.kind_unwrapEnum hk) hb _

theorem canonical_converted {r : Lowered} (hT : t.Extends table) (hr : r.CanonicalIn table)
    (k : TypeKey) : Lowered.CanonicalIn table ⟨t.converted r k, k, .value⟩ := by
  rw [converted]
  split
  · rename_i n hn
    exact canonical_convert hn hT hr
  · intro b hk hb
    exact Node.yields_missing

end TypeTable

namespace Lowering

variable {t table : TypeTable} {k : TypeKey} {b : BasicKind}

theorem basic_of_isArithmetic (h : t.isArithmetic k) : ∃ b, (t.unwrapEnum k).kind = .basic b := by
  rw [TypeTable.isArithmetic, Bool.and_eq_true] at h
  cases hk : (t.unwrapEnum k).kind with
  | basic b => exact ⟨b, rfl⟩
  | _ =>
    rw [hk] at h
    cases h.1

theorem promote_basic (h : k.kind = .basic b) : ∃ c, k.promote.kind = .basic c := by
  rw [TypeKey.promote]
  split <;> first | exact ⟨_, rfl⟩ | exact ⟨b, h⟩

theorem coerce_basic {l r : TypeKey} (hl : t.isArithmetic l) (hr : t.isArithmetic r) :
    ∃ c, (t.coerce l r).kind = .basic c := by
  obtain ⟨a, ha⟩ := basic_of_isArithmetic hl
  obtain ⟨b, hb⟩ := basic_of_isArithmetic hr
  obtain ⟨a, ha⟩ := promote_basic ha
  obtain ⟨b, hb⟩ := promote_basic hb
  simp only [TypeTable.coerce]
  split
  · exact ⟨_, rfl⟩
  · split
    · exact ⟨_, rfl⟩
    · split
      · exact ⟨a, ha⟩
      · split
        · exact ⟨b, hb⟩
        · split
          · exact ⟨b, hb⟩
          · exact ⟨a, ha⟩

theorem operandType_basic {op : InfixOp} {x y : Lowered} (hx : t.isArithmetic x.type)
    (hy : t.isArithmetic y.type) : ∃ c, (operandType t op x y).kind = .basic c := by
  rw [operandType]
  split
  · obtain ⟨a, ha⟩ := basic_of_isArithmetic hx
    exact promote_basic ha
  · exact coerce_basic hx hy

theorem canonical_of_kind {n : Node} {mode : Mode} (hk : k.kind = .basic b)
    (h : b.IsNarrow → n.Yields fun v => b.extend v = v) :
    Lowered.CanonicalIn table ⟨n, k, mode⟩ := by
  intro c hc hn
  rw [table.kind_unwrapEnum hk] at hc
  cases hc
  exact h hn

theorem canonical_truthOf {n : Node} (h : n.Yields fun v => BasicKind.bool.extend v = v) :
    (truthOf n).CanonicalIn table :=
  canonical_of_kind rfl fun _ => h

theorem canonical_truncateTo {n : Node} (hk : k.kind = .basic b) :
    Lowered.CanonicalIn table ⟨t.truncateTo n k, k, .value⟩ := by
  apply canonical_of_kind hk
  intro hb
  exact TypeTable.yields_truncateTo (t.kind_unwrapEnum hk) hb n

theorem canonical_pointer {n : Node} {mode : Mode} (hT : t.Extends table) (hp : t.isPointer k) :
    Lowered.CanonicalIn table ⟨n, k, mode⟩ := by
  intro b hb
  exact absurd hb (hT.not_basic_of_isPointer hp)

theorem UnaryRule.canonical {op : PrefixOp} {x r : Lowered} (h : UnaryRule t op x r) :
    r.CanonicalIn table := by
  cases h with
  | pointerNot => exact canonical_truthOf (Node.yields_compare TypeTable.extend_ofBool)
  | logNot => exact canonical_truthOf (Node.yields_unary fun a => TypeTable.extend_ofBool _)
  | arithmetic hop hx =>
    obtain ⟨a, ha⟩ := basic_of_isArithmetic hx
    obtain ⟨c, hc⟩ := promote_basic ha
    exact canonical_truncateTo hc

theorem closed_opcode {op : InfixOp} (h : op ∈ [.mod, .shr, .bitAnd, .bitXor, .bitOr]) :
    ∃ o : BinaryOp, op.opcode = .binary o ∧ o ∈ [.mod, .shr, .bitAnd, .bitXor, .bitOr] ∧
      o.isShift = op.isShift := by
  cases op <;> revert h <;> simp [InfixOp.opcode, BinaryOp.isShift, InfixOp.isShift]

theorem BinaryRule.canonical {op : InfixOp} {x y r : Lowered} (h : BinaryRule t op x y r)
    (hT : t.Extends table) (hx : x.CanonicalIn table) (hy : y.CanonicalIn table) :
    r.CanonicalIn table := by
  cases h with
  | conjunction =>
    exact canonical_truthOf (Node.yields_cond (Node.yields_compare TypeTable.extend_ofBool)
      (Node.yields_const (TypeTable.extend_ofBool false)))
  | disjunction =>
    exact canonical_truthOf (Node.yields_cond (Node.yields_const (TypeTable.extend_ofBool true))
      (Node.yields_compare TypeTable.extend_ofBool))
  | pointerCompare hop =>
    obtain ⟨o, ho⟩ := comparison_opcode hop
    rw [ho]
    exact canonical_truthOf (Node.yields_compare TypeTable.extend_ofBool)
  | pointerAdd hp => exact canonical_pointer hT hp
  | addPointer hp => exact canonical_pointer hT hp
  | pointerSub hp => exact canonical_pointer hT hp
  | difference => exact canonical_of_kind rfl fun hb => absurd hb (by decide)
  | compare hop =>
    obtain ⟨o, ho⟩ := comparison_opcode hop
    rw [operation, ho]
    exact canonical_truthOf (Node.yields_compare TypeTable.extend_ofBool)
  | wrapping hop hax hay =>
    obtain ⟨c, hc⟩ := operandType_basic hax hay
    exact canonical_truncateTo hc
  | closed hop hax hay =>
    obtain ⟨c, hc⟩ := operandType_basic hax hay
    obtain ⟨o, ho, hmem, hshift⟩ := closed_opcode hop
    have hg : (operandType t op x y).group = c.group := by
      rw [TypeKey.group, hc]
      rfl
    have hu : (table.unwrapEnum (operandType t op x y)).kind = .basic c :=
      table.kind_unwrapEnum hc
    apply canonical_of_kind hc
    intro hb
    rw [operation, ho, hg]
    apply Node.yields_closed hmem hb (TypeTable.canonical_converted hT hx _ c hu hb)
    intro hs
    rw [rightOperand, if_neg (by rw [← hshift, hs]; decide)]
    exact TypeTable.canonical_converted hT hy _ c hu hb

theorem TernaryRule.canonical {c yes no r : Lowered} (h : TernaryRule t c yes no r)
    (hT : t.Extends table) (hyes : yes.CanonicalIn table) (hno : no.CanonicalIn table) :
    r.CanonicalIn table := by
  cases h with
  | arithmetic =>
    intro b hk hb
    exact Node.yields_cond (TypeTable.canonical_converted hT hyes _ b hk hb)
      (TypeTable.canonical_converted hT hno _ b hk hb)
  | pointer _ hp => exact canonical_pointer hT hp

theorem MemberRule.mode_eq {record : TypeKey} {field : Text} {base : Node} {mode : Mode}
    {r : Lowered} (h : MemberRule t record field base mode r) : r.mode = mode := by
  cases h <;> rfl

theorem Lowers.extends {t' : TypeTable} {e : Expr} {r : Lowered} (h : Lowers t e r t') :
    t.Extends t' := h.grows.entries

/-- The atoms whose narrow integers are canonical: characters are sign-extended bytes, and the code
of a value gives canonical slots. -/
def CanonicalAtom (table : TypeTable) : Expr → Prop
  | .leaf _ _ code type .value => Lowered.CanonicalIn table ⟨.splice code, type, .value⟩
  | .int _ v true => ∃ b : UInt8, v = Slot.signExtend 8 b.toUInt64
  | _ => True

theorem canonical_lowerInt {v : UInt64} {isChar : Bool}
    (hv : isChar = true → ∃ b : UInt8, v = Slot.signExtend 8 b.toUInt64) :
    (lowerInt v isChar).CanonicalIn table := by
  rw [lowerInt]
  split
  · rename_i hc
    obtain ⟨b, rfl⟩ := hv hc
    exact canonical_of_kind rfl fun hb =>
      Node.yields_const (BasicKind.extend_extend (b := .char8) hb.isWord _)
  · split
    · rename_i hle
      refine canonical_of_kind rfl fun hb => Node.yields_const ?_
      have hlt : v.toNat ≤ 0x7fffffff := UInt64.le_iff_toNat_le.1 hle
      refine (BasicKind.extend_eq_self_iff hb.isWord).2 ⟨v.toNat, ?_, (Slot.ofInt_toNat v).symm⟩
      rw [BasicKind.inRange_of_signed rfl, Fits.natCast_iff]
      exact Nat.lt_of_le_of_lt hlt (by decide)
    · split
      · exact canonical_of_kind rfl fun hb => absurd hb (by decide)
      · exact canonical_of_kind rfl fun hb => absurd hb (by decide)

theorem Lowers.canonical {t' : TypeTable} {e : Expr} {r : Lowered} (h : Lowers t e r t')
    (hT : t'.Extends table) (ha : e.Atoms (CanonicalAtom table)) (hm : r.mode = .value) :
    r.CanonicalIn table := by
  -- Each part is lowered under a table of its own, and all of them grow into the last one.
  induction h with
  | @int t s v isChar =>
    cases isChar with
    | true => exact canonical_lowerInt fun _ => ha
    | false => exact canonical_lowerInt (by rintro ⟨⟩)
  | @float t s bits isSingle =>
    rw [lowerFloat]
    split
    · exact canonical_of_kind rfl fun hb => absurd hb (by decide)
    · exact canonical_of_kind rfl fun hb => absurd hb (by decide)
  | leaf =>
    cases hm
    exact ha
  | unary _ _ h _ => exact h.canonical
  | binary hx hvx hy hvy h ihx ihy =>
    have hT₃ := (TypeTable.extends_of_load hvy).trans hT
    have hT₂ := hy.extends.trans hT₃
    have hT₁ := (TypeTable.extends_of_load hvx).trans hT₂
    exact h.canonical hT (TypeTable.canonical_load hvx hT₂ (ihx hT₁ ha.1))
      (TypeTable.canonical_load hvy hT (ihy hT₃ ha.2))
  | ternary hc hvc hyes hvy hno hvn h ihc ihyes ihno =>
    have hT₅ := (TypeTable.extends_of_load hvn).trans hT
    have hT₄ := hno.extends.trans hT₅
    have hT₃ := (TypeTable.extends_of_load hvy).trans hT₄
    exact h.canonical hT (TypeTable.canonical_load hvy hT₄ (ihyes hT₃ ha.2.1))
      (TypeTable.canonical_load hvn hT (ihno hT₅ ha.2.2))
  | cast hk _ hx hvx _ h ih =>
    have hT₂ := (TypeTable.extends_of_load hvx).trans hT
    exact TypeTable.canonical_convert h hT (TypeTable.canonical_load hvx hT (ih hT₂ ha))
  | sizeofType => exact canonical_of_kind rfl fun hb => absurd hb (by decide)
  | sizeof => exact canonical_of_kind rfl fun hb => absurd hb (by decide)
  | deref => cases hm
  | @addressOf t t₁ t₂ _ _ rx p _ _ hp _ =>
    have hk := t₁.kind_pointer (t₁.unwrap rx.type)
    rw [hp] at hk
    apply canonical_pointer hT
    rw [TypeTable.isPointer, TypeTable.unwrap,
      TypeTable.unwrapWithin_of_not_transparent (by rw [hk]; rfl), hk]
    rfl
  | indexArray => cases hm
  | indexPointer => cases hm
  | arrow _ _ _ h _ =>
    rw [h.mode_eq] at hm
    cases hm
  | member _ hv h _ =>
    rw [h.mode_eq] at hm
    exact absurd hm hv

end Lowering

end WatchExpr
