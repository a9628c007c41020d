import WatchExpr.Proofs.Expression.Integral
import WatchExpr.Proofs.Lowering.Loading
import WatchExpr.Lowering.Lower

namespace WatchExpr

theorem Slot.ofBool_eq (b : Bool) : Slot.ofBool b = Slot.ofInt b.toInt := by
  cases b <;> rfl

theorem Comparison.apply_group {b : BasicKind} (hb : b.IsWord) (o : Comparison) {i j : Int}
    (hi : b.InRange i) (hj : b.InRange j) :
    o.apply b.group (Slot.ofInt i) (Slot.ofInt j) = o.holds (compare i j) := by
  have hi := hi.holds hb
  have hj := hj.holds hb
  rw [hb.group_eq]
  cases hs : b.isSigned with
  | true =>
    rw [hs] at hi hj
    exact o.apply_signed hi hj
  | false =>
    rw [hs] at hi hj
    exact o.apply_unsigned hi hj

theorem BinaryOp.apply_ofInt {b : BasicKind} (hb : b.IsWord) (o : BinaryOp) {i j : Int}
    (hi : b.InRange i) (hj : o.isShift = false → b.InRange j) :
    o.apply b.group (Slot.ofInt i) (Slot.ofInt j) = (o.onInts i j).map Slot.ofInt := by
  rw [apply_group hb]
  exact o.onIntegers_ofInt (hi.holds hb) fun hs => (hj hs).holds hb

theorem InfixOp.onInts_compare {op : InfixOp} {o : Comparison} (h : op.opcode = .compare o)
    (c : BasicKind) (i j : Int) : op.onInts c i j = .ok (o.holds (compare i j)).toInt := by
  rcases Int.lt_trichotomy i j with hlt | rfl | hgt
  · have hc : compare i j = .lt := compare_lt_iff_lt.2 hlt
    rw [hc]
    cases op <;> cases h <;>
      simp [onInts, Comparison.holds, hlt, hlt.le, hlt.not_gt, hlt.not_ge, hlt.ne]
  · have hc : compare i i = .eq := compare_eq_iff_eq.2 rfl
    rw [hc]
    cases op <;> cases h <;> simp [onInts, Comparison.holds]
  · have hc : compare i j = .gt := compare_gt_iff_gt.2 hgt
    rw [hc]
    cases op <;> cases h <;>
      simp [onInts, Comparison.holds, hgt, hgt.le, hgt.not_gt, hgt.not_ge, hgt.ne']

namespace Node

variable {target : Option Target} {layout : Arch} {n x y c yes no : Node}
  {f g fx fy fc fyes fno : List Slot → Computation Int}

/-- A tree gives the slot of the integer that a computation gives. -/
def Denotes (target : Option Target) (layout : Arch) (n : Node)
    (f : List Slot → Computation Int) : Prop :=
  ∀ pending, n.eval target layout pending = f pending >>= fun i => pure (Slot.ofInt i)

theorem Denotes.congr (h : n.Denotes target layout f) (hfg : ∀ pending, f pending = g pending) :
    n.Denotes target layout g := by
  intro pending
  rw [← hfg]
  exact h pending

theorem denotes_const {v : UInt64} {signed : Bool} {i : Int} (h : v = Slot.ofInt i) :
    (const v signed).Denotes target layout fun _ => pure i := by
  intro pending
  rw [h]
  rfl

theorem denotes_unary {o : UnaryOp} {group : Group} {op : Int → Int}
    (hx : x.Denotes target layout f)
    (h : ∀ pending i, (f pending).result = .ok i →
      o.apply group (Slot.ofInt i) = Slot.ofInt (op i)) :
    (unary (.unary o) group x).Denotes target layout fun pending =>
      f pending >>= fun i => pure (op i) := by
  intro pending
  simp only [eval, hx pending, bind_assoc, pure_bind]
  apply Computation.bind_congr_ok
  intro i hi
  rw [h pending i hi]

theorem denotes_binary {o : BinaryOp} {group : Group} {op : Int → Int → Except Fault Int}
    (hx : x.Denotes target layout fx) (hy : y.Denotes target layout fy)
    (h : ∀ pending i j, (fx pending).result = .ok i →
      (fy (Slot.ofInt i :: pending)).result = .ok j →
        o.apply group (Slot.ofInt i) (Slot.ofInt j) = (op i j).map Slot.ofInt) :
    (binary (.binary o) group x y).Denotes target layout (fun pending => do
      let i ← fx pending
      let j ← fy (Slot.ofInt i :: pending)
      .ofResult (op i j)) := by
  intro pending
  simp only [eval, hx pending, hy _, bind_assoc, pure_bind]
  apply Computation.bind_congr_ok
  intro i hi
  apply Computation.bind_congr_ok
  intro j hj
  rw [h pending i j hi hj]
  cases op i j <;> rfl

theorem denotes_compare {o : Comparison} {group : Group} {r : Int → Int → Bool}
    (hx : x.Denotes target layout fx) (hy : y.Denotes target layout fy)
    (h : ∀ pending i j, (fx pending).result = .ok i →
      (fy (Slot.ofInt i :: pending)).result = .ok j →
        o.apply group (Slot.ofInt i) (Slot.ofInt j) = r i j) :
    (binary (.compare o) group x y).Denotes target layout (fun pending => do
      let i ← fx pending
      let j ← fy (Slot.ofInt i :: pending)
      pure (r i j).toInt) := by
  intro pending
  simp only [eval, hx pending, hy _, bind_assoc, pure_bind]
  apply Computation.bind_congr_ok
  intro i hi
  apply Computation.bind_congr_ok
  intro j hj
  rw [h pending i j hi hj, Slot.ofBool_eq]

theorem denotes_cond {signed : Bool} (hc : c.Denotes target layout fc)
    (hv : ∀ pending i, (fc pending).result = .ok i → Slot.Holds signed i)
    (hyes : yes.Denotes target layout fyes) (hno : no.Denotes target layout fno) :
    (cond c yes no).Denotes target layout (fun pending => do
      let i ← fc pending
      if i = 0 then fno pending else fyes pending) := by
  intro pending
  simp only [eval, hc pending, bind_assoc, pure_bind]
  apply Computation.bind_congr_ok
  intro i hi
  rw [Slot.isTrue_ofInt (hv pending i hi)]
  by_cases h0 : i = 0
  · rw [if_pos h0, if_neg (by simp [h0]), hno pending]
  · rw [if_neg h0, if_pos (by simp [h0]), hyes pending]

end Node

namespace TypeTable

variable {t : TypeTable} {k : TypeKey} {a c : BasicKind} {r : Lowered} {target : Option Target}
  {layout : Arch} {n : Node} {f : List Slot → Computation Int}

theorem denotes_truncateTo (hk : (t.unwrapEnum k).kind = .basic c) (hc : c.IsWord)
    (hn : n.Denotes target layout f) :
    (t.truncateTo n k).Denotes target layout fun pending =>
      f pending >>= fun i => pure (c.wrap i) := by
  intro pending
  rw [eval_truncateTo hk hc, hn pending]
  simp only [bind_assoc, pure_bind, BasicKind.extend_ofInt hc]

theorem convert_integers (ha : (t.unwrapEnum r.type).kind = .basic a)
    (hk : (t.unwrapEnum k).kind = .basic c) (haw : a.IsWord) (hcw : c.IsWord) :
    t.convert r k = .ok (
      if c = .bool ∧ a ≠ .bool then differsFromZero a.group r.node
      else if a.isSigned = c.isSigned ∧ a.size ≤ c.size then r.node
      else t.truncateTo r.node (t.unwrapEnum k)) := by
  have hs (b : BasicKind) : (Kind.basic b).isSigned = b.isSigned := rfl
  simp only [convert, scalarGroup_of_basic ha, scalarGroup_of_basic hk, haw.conversion_eq hcw,
    ConversionRule.allowed, ha, hk, Kind.isInteger, haw.1, hcw.1, byteSize_basic ha,
    byteSize_basic hk, hs, Kind.basic.injEq, ne_eq, Bool.not_true, Bool.false_eq_true, if_false,
    true_and, reduceCtorEq]
  split
  · rfl
  · split <;> rfl

theorem denotes_differsFromZero (ha : a.IsWord) (hn : n.Denotes target layout f)
    (hv : ∀ pending i, (f pending).result = .ok i → a.InRange i) :
    (differsFromZero a.group n).Denotes target layout fun pending =>
      f pending >>= fun i => pure (decide (i ≠ 0)).toInt := by
  have hz : (Node.unsigned 0).Denotes target layout fun _ => pure 0 := Node.denotes_const rfl
  have hne : ∀ pending i j, (f pending).result = .ok i →
      (pure 0 : Computation Int).result = .ok j →
        Comparison.ne.apply a.group (Slot.ofInt i) (Slot.ofInt j) =
          Comparison.ne.holds (compare i j) := by
    intro pending i j hi hj
    cases hj
    exact Comparison.apply_group ha .ne (hv pending i hi) a.inRange_zero
  have hd := Node.denotes_compare hn hz hne
  apply hd.congr
  intro pending
  apply bind_congr
  intro i
  have hi : InfixOp.ne.onInts a i 0 = _ := InfixOp.onInts_compare rfl a i 0
  rw [InfixOp.onInts, Except.ok.injEq] at hi
  rw [pure_bind, hi]

/-- A converted value denotes the converted integer: a value that needs no code is in the range of
the wider kind already. -/
theorem denotes_convert (ha : (t.unwrapEnum r.type).kind = .basic a)
    (hk : (t.unwrapEnum k).kind = .basic c) (haw : a.IsWord) (hcw : c.IsWord)
    (hr : r.node.Denotes target layout f)
    (hv : ∀ pending i, (f pending).result = .ok i → a.IsValue i) :
    ∃ n, t.convert r k = .ok n ∧ n.Denotes target layout fun pending =>
      f pending >>= fun i => pure (c.convertInt i) := by
  refine ⟨_, convert_integers ha hk haw hcw, ?_⟩
  split
  · rename_i hbool
    have hd := denotes_differsFromZero haw hr fun pending i hi => (hv pending i hi).1
    apply hd.congr
    intro pending
    simp only [BasicKind.convertInt, if_pos hbool.1]
  · rename_i hbool
    split
    · rename_i hsame
      apply hr.congr
      intro pending
      rw [← bind_pure (f pending), bind_assoc]
      apply Computation.bind_congr_ok
      intro i hi
      have hi := hv pending i hi
      have hcv : c.IsValue i := by
        refine ⟨hi.1.of_size_le hsame.1 hsame.2, ?_⟩
        intro hc
        exact hi.2 (Classical.not_not.1 fun hab => hbool ⟨hc, hab⟩)
      rw [pure_bind, BasicKind.convertInt_of_isValue hcw hcv]
    · rename_i hdiff
      have hc : c ≠ .bool := by
        intro hc
        have hab : a = .bool := Classical.not_not.1 fun hab => hbool ⟨hc, hab⟩
        rw [hab, hc] at hdiff
        exact hdiff ⟨rfl, UInt64.le_refl _⟩
      have hd := denotes_truncateTo (t.kind_unwrapEnum hk) hcw hr
      apply hd.congr
      intro pending
      simp only [BasicKind.convertInt, if_neg hc]

theorem denotes_converted (ha : (t.unwrapEnum r.type).kind = .basic a)
    (hk : (t.unwrapEnum k).kind = .basic c) (haw : a.IsWord) (hcw : c.IsWord)
    (hr : r.node.Denotes target layout f)
    (hv : ∀ pending i, (f pending).result = .ok i → a.IsValue i) :
    (t.converted r k).Denotes target layout fun pending =>
      f pending >>= fun i => pure (c.convertInt i) := by
  obtain ⟨n, hn, hd⟩ := denotes_convert ha hk haw hcw hr hv
  rw [converted, hn]
  exact hd

end TypeTable

theorem InfixOp.onInts_wrapping {op : InfixOp} (h : Lowering.mayOverflow op) :
    ∃ o : BinaryOp, op.opcode = .binary o ∧ o.isShift = op.isShift ∧
      ∀ c i j, op.onInts c i j = (o.onInts i j).map c.wrap := by
  cases op <;> first | exact ⟨_, rfl, rfl, fun _ _ _ => rfl⟩ | cases h

theorem InfixOp.onInts_closed {op : InfixOp} (h : op ∈ [.mod, .shr, .bitAnd, .bitXor, .bitOr]) :
    ∃ o : BinaryOp, op.opcode = .binary o ∧ o.isShift = op.isShift ∧
      ∀ c i j, op.onInts c i j = o.onInts i j := by
  cases op <;> first | exact ⟨_, rfl, rfl, fun _ _ _ => rfl⟩ | simp at h

theorem InfixOp.resultKind_of_arithmetic {op : InfixOp}
    (h : Lowering.mayOverflow op ∨ op ∈ [.mod, .shr, .bitAnd, .bitXor, .bitOr]) :
    op ≠ .logAnd ∧ op ≠ .logOr ∧ ∀ a b, op.resultKind a b = op.operandKind a b := by
  cases op <;> first | exact ⟨by decide, by decide, fun _ _ => rfl⟩ | simp [Lowering.mayOverflow] at h

theorem InfixOp.resultKind_of_compare {op : InfixOp} {o : Comparison} (h : op.opcode = .compare o) :
    op ≠ .logAnd ∧ op ≠ .logOr ∧ ∀ a b, op.resultKind a b = .bool := by
  cases op <;> cases h <;> exact ⟨by decide, by decide, fun _ _ => rfl⟩

namespace UnaryOp

variable {b : BasicKind} {i : Int}

theorem neg_ofInt (hb : b.IsWord) (i : Int) :
    UnaryOp.neg.apply b.group (Slot.ofInt i) = Slot.ofInt (-i) := by
  rw [Slot.ofInt_neg, hb.group_eq]
  split
  · exact UInt64.zero_sub _
  · exact UInt64.zero_sub _

theorem bitNot_ofInt (g : Group) (i : Int) :
    UnaryOp.bitNot.apply g (Slot.ofInt i) = Slot.ofInt (-i - 1) := by
  have hn : i.lnot = -i - 1 := by
    cases i with
    | ofNat n =>
      rw [Int.lnot, Int.negSucc_eq, Int.ofNat_eq_natCast]
      omega
    | negSucc n =>
      rw [Int.lnot, Int.negSucc_eq]
      omega
  rw [← hn, Slot.ofInt_lnot]
  rfl

theorem logNot_ofInt (hb : b.IsWord) (hi : b.InRange i) (g : Group) :
    UnaryOp.logNot.apply g (Slot.ofInt i) = Slot.ofInt (decide (i = 0)).toInt := by
  have ht := Slot.isTrue_ofInt (hi.holds hb)
  rw [UnaryOp.apply, ht, Slot.ofBool_eq]
  by_cases h0 : i = 0
  · simp [h0]
  · simp [h0]

end UnaryOp

end WatchExpr
