import WatchExpr.Proofs.Lowering.Denotation
import WatchExpr.Proofs.Lowering.Safety

namespace WatchExpr

namespace Lowering

variable {t : TypeTable} {k l r : TypeKey} {a b : BasicKind}

theorem kind_promote (h : k.kind = .basic b) (hb : b.IsWord) :
    k.promote.kind = .basic b.promoted := by
  rw [TypeKey.promote, h]
  cases b <;> first | rfl | exact h | exact absurd hb (by decide)

theorem kind_coerce (hl : (t.unwrapEnum l).kind = .basic a) (hr : (t.unwrapEnum r).kind = .basic b)
    (ha : a.IsWord) (hb : b.IsWord) : (t.coerce l r).kind = .basic (a.common b) := by
  have hl := kind_promote hl ha
  have hr := kind_promote hr hb
  have hf {c : BasicKind} (hc : c.IsWord) :
      (Kind.basic c == .basic .f64) = false ∧ (Kind.basic c == .basic .f32) = false := by
    cases c <;> revert hc <;> decide
  have hg {c : BasicKind} (hc : c.IsWord) : (c.group == .u) = !c.isSigned := by
    rw [hc.group_eq]
    cases c.isSigned <;> rfl
  simp only [TypeTable.coerce, BasicKind.common, hl, hr, (hf ha.promoted).1, (hf ha.promoted).2,
    (hf hb.promoted).1, (hf hb.promoted).2, TypeTable.byteSize_basic hl,
    TypeTable.byteSize_basic hr, TypeKey.group, Kind.group, hg ha.promoted, hg hb.promoted, bne,
    Bool.not_not, Bool.or_self, Bool.false_eq_true, if_false]
  by_cases hlt : a.promoted.size < b.promoted.size
  · rw [if_neg (UInt64.lt_asymm hlt), if_pos hlt, if_pos hlt]
    exact hr
  · rw [if_neg hlt, if_neg hlt]
    by_cases hgt : b.promoted.size < a.promoted.size
    · rw [if_pos hgt, if_pos hgt]
      exact hl
    · rw [if_neg hgt, if_neg hgt]
      by_cases hs : a.promoted.isSigned ∧ !b.promoted.isSigned
      · rw [if_pos hs, if_pos (by simp [hs.1, hs.2])]
        exact hr
      · rw [if_neg hs, if_neg (by simpa [and_comm] using hs)]
        exact hl

theorem kind_operandType {x y : Lowered} (hx : (t.unwrapEnum x.type).kind = .basic a)
    (hy : (t.unwrapEnum y.type).kind = .basic b) (ha : a.IsWord) (hb : b.IsWord) (op : InfixOp) :
    (operandType t op x y).kind = .basic (op.operandKind a b) := by
  rw [operandType, InfixOp.operandKind]
  split
  · exact kind_promote hx ha
  · exact kind_coerce hx hy ha hb

theorem not_isPointer (hk : (t.unwrapEnum k).kind = .basic b) : ¬ t.isPointer k := by
  rw [TypeTable.isPointer]
  obtain hu | hu := TypeTable.unwrap_of_basic hk
  · rw [hu]
    rintro ⟨⟩
  · rw [hu]
    rintro ⟨⟩

/-- A lowered value means what an integer expression does. -/
structure Means (t : TypeTable) (target : Option Target) (layout : Arch) (e : Expr) (v : Lowered) :
    Prop where
  integral : e.IsIntegral t
  kind : (t.unwrapEnum v.type).kind = .basic (e.integerKind t)
  node : v.node.Denotes target layout (e.integerValue t target layout)

variable {target : Option Target} {layout : Arch} {e x y c yes no : Expr} {s : Span}
  {v vx vy vc vyes vno w : Lowered}

namespace Means

theorem isWord (h : Means t target layout e v) : (e.integerKind t).IsWord :=
  Expr.isWord_integerKind h.integral

theorem isValue (h : Means t target layout e v) (pending : List Slot) (i : Int)
    (hi : (e.integerValue t target layout pending).result = .ok i) : (e.integerKind t).IsValue i :=
  Expr.isValue_integerValue h.integral hi

theorem holds (h : Means t target layout e v) (pending : List Slot) (i : Int)
    (hi : (e.integerValue t target layout pending).result = .ok i) :
    Slot.Holds (e.integerKind t).isSigned i :=
  (h.isValue pending i hi).1.holds h.isWord

theorem converted (h : Means t target layout e v) (hk : k.kind = .basic b) (hb : b.IsWord) :
    (t.converted v k).Denotes target layout fun pending =>
      e.integerValue t target layout pending >>= fun i => pure (b.convertInt i) :=
  TypeTable.denotes_converted h.kind (t.kind_unwrapEnum hk) h.isWord hb h.node h.isValue

theorem promoted (h : Means t target layout e v) :
    (t.converted v (t.unwrapEnum v.type).promote).Denotes target layout
      (e.integerValue t target layout) := by
  apply (h.converted (kind_promote h.kind h.isWord) h.isWord.promoted).congr
  intro pending
  have hi : ∀ i, (e.integerValue t target layout pending).result = .ok i →
      (e.integerKind t).promoted.convertInt i = i := by
    intro i hi
    apply BasicKind.convertInt_of_isValue h.isWord.promoted
    rw [BasicKind.isValue_of_ne_bool (BasicKind.promoted_ne_bool _)]
    exact (h.isValue pending i hi).1.promoted h.isWord
  conv => rhs; rw [← bind_pure (e.integerValue t target layout pending)]
  apply Computation.bind_congr_ok
  intro i hr
  rw [hi i hr]

theorem wrapped_unary {o : UnaryOp} {f : Int → Int} (h : Means t target layout e v)
    (ho : ∀ i, o.apply (e.integerKind t).promoted.group (Slot.ofInt i) = Slot.ofInt (f i)) :
    (t.truncateTo (.unary (.unary o) (t.unwrapEnum v.type).promote.group
      (t.converted v (t.unwrapEnum v.type).promote)) (t.unwrapEnum v.type).promote).Denotes
        target layout fun pending => e.integerValue t target layout pending >>= fun i =>
          pure ((e.integerKind t).promoted.wrap (f i)) := by
  have hk := kind_promote h.kind h.isWord
  have hg : (t.unwrapEnum v.type).promote.group = (e.integerKind t).promoted.group := by
    rw [TypeKey.group, hk]
    rfl
  have hn := Node.denotes_unary h.promoted fun pending i _ => ho i
  rw [← hg] at hn
  apply (TypeTable.denotes_truncateTo (t.kind_unwrapEnum hk) h.isWord.promoted hn).congr
  intro pending
  simp only [bind_assoc, pure_bind]

end Means

theorem UnaryRule.means {op : PrefixOp} (h : UnaryRule t op vx w)
    (hx : Means t target layout x vx) :
    w.mode = .value ∧ Means t target layout (.unary s op x) w := by
  have hk := t.kind_unwrapEnum (kind_promote hx.kind hx.isWord)
  cases h with
  | pointerNot hp => exact absurd hp (not_isPointer hx.kind)
  | logNot =>
    refine ⟨rfl, hx.integral, t.kind_unwrapEnum rfl, ?_⟩
    apply Node.denotes_unary hx.promoted
    intro pending i hi
    exact UnaryOp.logNot_ofInt hx.isWord (hx.isValue pending i hi).1 _
  | arithmetic hop =>
    cases op with
    | logNot => exact absurd rfl hop
    | neg =>
      exact ⟨rfl, hx.integral, hk, hx.wrapped_unary (UnaryOp.neg_ofInt hx.isWord.promoted)⟩
    | bitNot => exact ⟨rfl, hx.integral, hk, hx.wrapped_unary (UnaryOp.bitNot_ofInt _)⟩

namespace Means

section
variable (hx : Means t target layout x vx) (hy : Means t target layout y vy) (op : InfixOp)
include hx hy

theorem isWord_operandKind : (op.operandKind (x.integerKind t) (y.integerKind t)).IsWord :=
  op.isWord_operandKind hx.isWord hy.isWord

theorem kind_operandType : (operandType t op vx vy).kind =
    .basic (op.operandKind (x.integerKind t) (y.integerKind t)) :=
  Lowering.kind_operandType hx.kind hy.kind hx.isWord hy.isWord op

theorem group_operandType : (operandType t op vx vy).group =
    (op.operandKind (x.integerKind t) (y.integerKind t)).group := by
  rw [TypeKey.group, hx.kind_operandType hy op]
  rfl

/-- The right operand is converted like the left one, unless it is a shift count. -/
theorem right : (rightOperand t op vx vy).Denotes target layout fun pending =>
    y.integerValue t target layout pending >>= fun r =>
      pure (if op.isShift then r
        else (op.operandKind (x.integerKind t) (y.integerKind t)).convertInt r) := by
  cases hs : op.isShift with
  | true =>
    simp only [rightOperand, hs, if_true, bind_pure]
    exact hy.node
  | false =>
    simp only [rightOperand, hs, Bool.false_eq_true, if_false]
    exact hy.converted (hx.kind_operandType hy op) (hx.isWord_operandKind hy op)

end

theorem inRange_operands {op : InfixOp} {fx fy : Computation Int} (hb : b.IsWord) {i j : Int}
    (hi : (fx >>= fun l => pure (b.convertInt l)).result = .ok i)
    (hj : (fy >>= fun r => pure (if op.isShift then r else b.convertInt r)).result = .ok j) :
    b.InRange i ∧ (op.isShift = false → b.InRange j) := by
  obtain ⟨l, -, hi⟩ := Computation.result_bind_ok hi
  obtain ⟨r, -, hj⟩ := Computation.result_bind_ok hj
  cases hi
  cases hj
  refine ⟨(BasicKind.isValue_convertInt hb l).1, ?_⟩
  intro hs
  rw [hs]
  exact (BasicKind.isValue_convertInt hb r).1

theorem operation (hx : Means t target layout x vx) (hy : Means t target layout y vy)
    {op : InfixOp} {o : BinaryOp} (ho : op.opcode = .binary o) (hs : o.isShift = op.isShift) :
    (Lowering.operation t op vx vy).Denotes target layout
      (op.onOperands (op.operandKind (x.integerKind t) (y.integerKind t)) o.onInts
        (x.integerValue t target layout) (y.integerValue t target layout)) := by
  have hw := hx.isWord_operandKind hy op
  have hleft := hx.converted (hx.kind_operandType hy op) hw
  rw [Lowering.operation, ho, hx.group_operandType hy op]
  have hd := Node.denotes_binary hleft (hx.right hy op) fun pending i j hi hj => by
    obtain ⟨hi, hj⟩ := inRange_operands hw hi hj
    exact o.apply_ofInt hw hi fun h => hj (hs ▸ h)
  apply hd.congr
  intro pending
  simp only [bind_assoc, pure_bind]
  rfl

theorem comparison (hx : Means t target layout x vx) (hy : Means t target layout y vy)
    {op : InfixOp} {o : Comparison} (ho : op.opcode = .compare o) :
    (Lowering.operation t op vx vy).Denotes target layout
      (op.onOperands (op.operandKind (x.integerKind t) (y.integerKind t))
        (op.onInts (op.operandKind (x.integerKind t) (y.integerKind t)))
        (x.integerValue t target layout) (y.integerValue t target layout)) := by
  have hw := hx.isWord_operandKind hy op
  have hleft := hx.converted (hx.kind_operandType hy op) hw
  have hs : op.isShift = false := by
    cases op <;> cases ho <;> rfl
  rw [Lowering.operation, ho, hx.group_operandType hy op]
  have hd := Node.denotes_compare hleft (hx.right hy op) fun pending i j hi hj => by
    obtain ⟨hi, hj⟩ := inRange_operands hw hi hj
    exact o.apply_group hw hi (hj hs)
  apply hd.congr
  intro pending
  simp only [InfixOp.onOperands, bind_assoc, pure_bind, InfixOp.onInts_compare ho]
  rfl

end Means

theorem BinaryRule.means {op : InfixOp} (h : BinaryRule t op vx vy w)
    (hx : Means t target layout x vx) (hy : Means t target layout y vy) :
    w.mode = .value ∧ Means t target layout (.binary s op x y) w := by
  have hd : (Expr.binary s op x y).IsIntegral t := ⟨hx.integral, hy.integral⟩
  have hk := t.kind_unwrapEnum (hx.kind_operandType hy op)
  have htest : testOf t vx = vx.node := by
    rw [testOf, TypeTable.scalarGroup_of_basic hx.kind, hx.isWord.group_eq]
    split <;> rfl
  have hright := TypeTable.denotes_differsFromZero hy.isWord hy.node fun pending i hi =>
    (hy.isValue pending i hi).1
  cases h with
  | conjunction =>
    refine ⟨rfl, hd, t.kind_unwrapEnum rfl, ?_⟩
    rw [htest, TypeTable.scalarGroup_of_basic hy.kind]
    have hno : (Node.unsigned 0).Denotes target layout fun _ => pure 0 := Node.denotes_const rfl
    apply (Node.denotes_cond hx.node hx.holds hright hno).congr
    intro pending
    rw [Expr.integerValue, if_pos rfl]
  | disjunction =>
    refine ⟨rfl, hd, t.kind_unwrapEnum rfl, ?_⟩
    rw [htest, TypeTable.scalarGroup_of_basic hy.kind]
    have hyes : (Node.unsigned 1).Denotes target layout fun _ => pure 1 := Node.denotes_const rfl
    apply (Node.denotes_cond hx.node hx.holds hyes hright).congr
    intro pending
    rw [Expr.integerValue, if_neg (by decide), if_pos rfl]
  | pointerCompare _ hp =>
    obtain hp | hp := hp
    · exact absurd hp (not_isPointer hx.kind)
    · exact absurd hp (not_isPointer hy.kind)
  | pointerAdd hp => exact absurd hp (not_isPointer hx.kind)
  | addPointer hp => exact absurd hp (not_isPointer hy.kind)
  | pointerSub hp => exact absurd hp (not_isPointer hx.kind)
  | difference hp => exact absurd hp (not_isPointer hx.kind)
  | compare hop =>
    obtain ⟨o, ho⟩ := comparison_opcode hop
    obtain ⟨hand, hor, hbool⟩ := InfixOp.resultKind_of_compare ho
    refine ⟨rfl, hd, ?_, ?_⟩
    · rw [Expr.integerKind, hbool]
      exact t.kind_unwrapEnum rfl
    · apply (hx.comparison hy ho).congr
      intro pending
      rw [Expr.integerValue, if_neg hand, if_neg hor]
  | wrapping hop =>
    obtain ⟨o, ho, hs, hi⟩ := InfixOp.onInts_wrapping hop
    obtain ⟨hand, hor, hres⟩ := InfixOp.resultKind_of_arithmetic (.inl hop)
    refine ⟨rfl, hd, ?_, ?_⟩
    · rw [Expr.integerKind, hres]
      exact hk
    · have hop := hx.operation hy ho hs
      apply (TypeTable.denotes_truncateTo hk (hx.isWord_operandKind hy op) hop).congr
      intro pending
      rw [Expr.integerValue, if_neg hand, if_neg hor]
      simp only [InfixOp.onOperands, bind_assoc, Computation.ofResult_bind_pure, hi]
  | closed hop =>
    obtain ⟨o, ho, hs, hi⟩ := InfixOp.onInts_closed hop
    obtain ⟨hand, hor, hres⟩ := InfixOp.resultKind_of_arithmetic (.inr hop)
    refine ⟨rfl, hd, ?_, ?_⟩
    · rw [Expr.integerKind, hres]
      exact hk
    · apply (hx.operation hy ho hs).congr
      intro pending
      rw [Expr.integerValue, if_neg hand, if_neg hor]
      simp only [InfixOp.onOperands, hi]

theorem TernaryRule.means (h : TernaryRule t vc vyes vno w) (hc : Means t target layout c vc)
    (hyes : Means t target layout yes vyes) (hno : Means t target layout no vno) :
    w.mode = .value ∧ Means t target layout (.ternary s c yes no) w := by
  cases h with
  | arithmetic =>
    have hw := hyes.isWord.common hno.isWord
    have hk := kind_coerce hyes.kind hno.kind hyes.isWord hno.isWord
    refine ⟨rfl, ⟨hc.integral, hyes.integral, hno.integral⟩, t.kind_unwrapEnum hk, ?_⟩
    exact Node.denotes_cond hc.node hc.holds (hyes.converted hk hw) (hno.converted hk hw)
  | pointer _ hp => exact absurd hp (not_isPointer hyes.kind)

theorem lowerInt_eq (v : UInt64) (isChar : Bool) :
    ∃ signed, lowerInt v isChar = ⟨.const v signed, .basic (.ofLiteral v isChar), .value⟩ := by
  have h31 : v ≤ 0x7fffffff ↔ v.toNat < 2 ^ 31 := by
    rw [UInt64.le_iff_toNat_le, Nat.lt_iff_le_pred (by decide)]
    rfl
  have h63 : v ≤ 0x7fffffffffffffff ↔ v.toNat < 2 ^ 63 := by
    rw [UInt64.le_iff_toNat_le, Nat.lt_iff_le_pred (by decide)]
    rfl
  simp only [lowerInt, BasicKind.ofLiteral, h31, h63]
  split
  · exact ⟨true, rfl⟩
  · split
    · exact ⟨true, rfl⟩
    · split
      · exact ⟨true, rfl⟩
      · exact ⟨false, rfl⟩

theorem means_int {v : UInt64} {isChar : Bool} (hd : (Expr.int s v isChar).IsIntegral t) :
    (lowerInt v isChar).mode = .value ∧
      Means t target layout (.int s v isChar) (lowerInt v isChar) := by
  obtain ⟨signed, hl⟩ := lowerInt_eq v isChar
  rw [hl]
  refine ⟨rfl, hd, t.kind_unwrapEnum rfl, ?_⟩
  apply Node.denotes_const
  cases isChar with
  | true => exact (Slot.ofInt_toInt v).symm
  | false => exact (Slot.ofInt_toNat v).symm

theorem means_readAs {name : Text} {code : List UInt8} {mode : Mode}
    (hd : (Expr.leaf s name code k mode).IsIntegral t) (hk : (t.unwrapEnum k).kind = .basic b)
    (hb : b.IsWord) : Means t target layout (.leaf s name code k mode)
      ⟨TypeTable.readAs b (.splice code), k, .value⟩ := by
  refine ⟨hd, ?_, ?_⟩
  · rw [Expr.integerKind, TypeTable.builtin_eq hk]
    exact hk
  · intro pending
    rw [TypeTable.eval_readAs hb, Expr.integerValue, TypeTable.builtin_eq hk]
    simp only [bind_assoc, pure_bind, Node.eval, ← BasicKind.extend_ofInt hb, Slot.ofInt_toNat]

theorem load_of_value {r : Lowered} (h : r.mode = .value) : t.load r = (some r, t) := by
  simp only [TypeTable.load, h]

/-- The value of an integer expression means what the expression does, and no types are added. -/
theorem Lowers.means (target : Option Target) (layout : Arch) {t' : TypeTable} {r : Lowered}
    (h : Lowers t e r t') (hd : e.IsIntegral t) :
    t' = t ∧ ∃ v, t.load r = (some v, t) ∧ Means t target layout e v := by
  have hvalue {t : TypeTable} {e : Expr} {r : Lowered}
      (h : r.mode = .value ∧ Means t target layout e r) :
      t = t ∧ ∃ v, t.load r = (some v, t) ∧ Means t target layout e v :=
    ⟨rfl, r, load_of_value h.1, h.2⟩
  induction h with
  | int => exact hvalue (means_int hd)
  | leaf =>
    obtain ⟨hm, -, b, hk, hb, -⟩ := id hd
    exact ⟨rfl, _, TypeTable.load_of_address hm hk hb, means_readAs hd hk hb⟩
  | unary _ hvx h ih =>
    obtain ⟨rfl, v, hv, hx⟩ := ih hd
    cases hv.symm.trans hvx
    exact hvalue (h.means hx)
  | binary _ hvx _ hvy h ihx ihy =>
    obtain ⟨rfl, v, hv, hx⟩ := ihx hd.1
    cases hv.symm.trans hvx
    obtain ⟨rfl, v, hv, hy⟩ := ihy hd.2
    cases hv.symm.trans hvy
    exact hvalue (h.means hx hy)
  | ternary _ hvc _ hvy _ hvn h ihc ihyes ihno =>
    obtain ⟨rfl, v, hv, hc⟩ := ihc hd.1
    cases hv.symm.trans hvc
    obtain ⟨rfl, v, hv, hyes⟩ := ihyes hd.2.1
    cases hv.symm.trans hvy
    obtain ⟨rfl, v, hv, hno⟩ := ihno hd.2.2
    cases hv.symm.trans hvn
    exact hvalue (h.means hc hyes hno)
  | @cast t t₁ t₂ t₃ span type k x rx vx node hk hz _ hvx _ h ih =>
    cases type with
    | named span name key =>
      cases hk
      obtain ⟨⟨b, hkb, hb⟩, hdx⟩ := id hd
      obtain ⟨rfl, v, hv, hx⟩ := ih hdx
      cases hv.symm.trans hvx
      obtain ⟨n, hn, hdn⟩ := TypeTable.denotes_convert hx.kind hkb hx.isWord hb hx.node hx.isValue
      cases hn.symm.trans h
      refine hvalue ⟨rfl, hd, ?_, ?_⟩
      · rw [Expr.integerKind, TypeTable.builtin_eq hkb]
        exact hkb
      · apply hdn.congr
        intro pending
        rw [Expr.integerValue, TypeTable.builtin_eq hkb]
    | _ => cases hd
  | _ => cases hd

end Lowering

end WatchExpr
