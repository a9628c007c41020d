import WatchExpr.Expression.Basic
import WatchExpr.Proofs.Machine.Fragment
import WatchExpr.Proofs.Types.Range
import WatchExpr.Types.Relations

namespace WatchExpr

namespace BasicKind

/-- Kinds of less than 32 bits are worked on as 32-bit signed integers. -/
def promoted (b : BasicKind) : BasicKind := if b.size < 4 then .s32 else b

/-- The kind two operands are brought to: after promotion the wider of the two, at equal width an
unsigned one. -/
def common (a b : BasicKind) : BasicKind :=
  let l := a.promoted
  let r := b.promoted
  if l.size < r.size then r
  else if r.size < l.size then l
  else if l.isSigned ∧ !r.isSigned then r
  else l

/-- Brings an integer to a kind; a boolean asks whether it differs from zero. -/
def convertInt (b : BasicKind) (i : Int) : Int :=
  if b = .bool then (decide (i ≠ 0)).toInt else b.wrap i

/-- The kind of a literal: 32 bits if they suffice, then 64 bits, unsigned only if need be. -/
def ofLiteral (v : UInt64) (isChar : Bool) : BasicKind :=
  if isChar then .char8
  else if v.toNat < 2 ^ 31 then .s32
  else if v.toNat < 2 ^ 63 then .s64
  else .u64

/-- The integers a kind has as values: those in range, for a boolean zero and one. -/
def IsValue (b : BasicKind) (i : Int) : Prop := b.InRange i ∧ (b = .bool → i = 0 ∨ i = 1)

end BasicKind

def TypeTable.builtin (t : TypeTable) (k : TypeKey) : BasicKind :=
  match (t.unwrapEnum k).kind with
  | .basic b => b
  | _ => .void

/-- A prefix operator on an integer of a promoted kind. -/
def PrefixOp.onInt (op : PrefixOp) (c : BasicKind) (i : Int) : Int :=
  match op with
  | .neg => c.wrap (-i)
  | .bitNot => c.wrap (-i - 1)
  | .logNot => (decide (i = 0)).toInt

def PrefixOp.resultKind (op : PrefixOp) (b : BasicKind) : BasicKind :=
  if op = .logNot then .bool else b.promoted

namespace InfixOp

/-- The kind an operator works in; a shift works in that of its left operand. -/
def operandKind (op : InfixOp) (a b : BasicKind) : BasicKind :=
  if op.isShift then a.promoted else a.common b

def resultKind (op : InfixOp) (a b : BasicKind) : BasicKind :=
  match op with
  | .lt | .le | .gt | .ge | .eq | .ne | .logAnd | .logOr => .bool
  | _ => op.operandKind a b

/-- An infix operator on integers of a kind. Remainders, right shifts and bitwise operations stay in
range by themselves. -/
def onInts (op : InfixOp) (c : BasicKind) (i j : Int) : Except Fault Int :=
  match op with
  | .add => (BinaryOp.onInts .add i j).map c.wrap
  | .sub => (BinaryOp.onInts .sub i j).map c.wrap
  | .mul => (BinaryOp.onInts .mul i j).map c.wrap
  | .div => (BinaryOp.onInts .div i j).map c.wrap
  | .shl => (BinaryOp.onInts .shl i j).map c.wrap
  | .mod => BinaryOp.onInts .mod i j
  | .shr => BinaryOp.onInts .shr i j
  | .bitAnd => BinaryOp.onInts .bitAnd i j
  | .bitXor => BinaryOp.onInts .bitXor i j
  | .bitOr => BinaryOp.onInts .bitOr i j
  | .lt => .ok (decide (i < j)).toInt
  | .le => .ok (decide (i ≤ j)).toInt
  | .gt => .ok (decide (j < i)).toInt
  | .ge => .ok (decide (j ≤ i)).toInt
  | .eq => .ok (decide (i = j)).toInt
  | .ne => .ok (decide (i ≠ j)).toInt
  | .logAnd => .ok (decide (i ≠ 0 ∧ j ≠ 0)).toInt
  | .logOr => .ok (decide (i ≠ 0 ∨ j ≠ 0)).toInt

/-- Applies an operation to operands brought to a kind, a shift count apart. The left operand is
pending while the right one is computed. -/
def onOperands (op : InfixOp) (c : BasicKind) (f : Int → Int → Except Fault Int)
    (x y : List Slot → Computation Int) (pending : List Slot) : Computation Int := do
  let l ← x pending
  let r ← y (Slot.ofInt (c.convertInt l) :: pending)
  .ofResult (f (c.convertInt l) (if op.isShift then r else c.convertInt r))

end InfixOp

namespace Expr

def integerKind (t : TypeTable) : Expr → BasicKind
  | .int _ v isChar => .ofLiteral v isChar
  | .leaf _ _ _ k _ => t.builtin k
  | .unary _ op x => op.resultKind (x.integerKind t)
  | .binary _ op x y => op.resultKind (x.integerKind t) (y.integerKind t)
  | .ternary _ _ yes no => (yes.integerKind t).common (no.integerKind t)
  | .cast _ (.named _ _ k) _ => t.builtin k
  | _ => .void

/-- Expressions of literals, variables of integer types in memory, operators and casts to integer
types. A character is a sign-extended byte. -/
def IsIntegral (t : TypeTable) : Expr → Prop
  | .int _ v isChar => isChar → ∃ b : UInt8, v = Slot.signExtend 8 b.toUInt64
  | .leaf _ _ code k mode =>
    mode = .address ∧ Fragment.SelfContained code ∧
      ∃ b, (t.unwrapEnum k).kind = .basic b ∧ b.IsWord ∧ b ≠ .bool
  | .unary _ _ x => x.IsIntegral t
  | .binary _ _ x y => x.IsIntegral t ∧ y.IsIntegral t
  | .ternary _ c yes no => c.IsIntegral t ∧ yes.IsIntegral t ∧ no.IsIntegral t
  | .cast _ (.named _ _ k) x => (∃ b, (t.unwrapEnum k).kind = .basic b ∧ b.IsWord) ∧ x.IsIntegral t
  | _ => False

/-- The value of an integer expression on a target. Conjunction, disjunction and the conditional
look only at what they need. -/
def integerValue (t : TypeTable) (target : Option Target) (layout : Arch) :
    Expr → (pending : List Slot) → Computation Int
  | .int _ v isChar, _ => pure (if isChar then Slot.toInt v else v.toNat)
  | .leaf _ _ code k _, pending => do
    let address ← Fragment.value target layout code pending
    let v ← Target.loadWord target address (t.builtin k).size.toNat
    pure ((t.builtin k).wrap v.toNat)
  | .unary _ op x, pending => do
    let i ← x.integerValue t target layout pending
    pure (op.onInt (x.integerKind t).promoted i)
  | .binary _ op x y, pending =>
    if op = .logAnd then do
      let i ← x.integerValue t target layout pending
      if i = 0 then pure 0
      else do
        let j ← y.integerValue t target layout pending
        pure (decide (j ≠ 0)).toInt
    else if op = .logOr then do
      let i ← x.integerValue t target layout pending
      if i = 0 then do
        let j ← y.integerValue t target layout pending
        pure (decide (j ≠ 0)).toInt
      else pure 1
    else
      let c := op.operandKind (x.integerKind t) (y.integerKind t)
      op.onOperands c (op.onInts c) (x.integerValue t target layout)
        (y.integerValue t target layout) pending
  | .ternary _ condition yes no, pending => do
    let c := (yes.integerKind t).common (no.integerKind t)
    let i ← condition.integerValue t target layout pending
    if i = 0 then do
      let j ← no.integerValue t target layout pending
      pure (c.convertInt j)
    else do
      let j ← yes.integerValue t target layout pending
      pure (c.convertInt j)
  | .cast _ (.named _ _ k) x, pending => do
    let i ← x.integerValue t target layout pending
    pure ((t.builtin k).convertInt i)
  | _, _ => .fail .badOp

end Expr

namespace BasicKind

variable {a b : BasicKind} {i j : Int}

theorem IsWord.promoted (h : b.IsWord) : b.promoted.IsWord := by
  cases b <;> revert h <;> decide

theorem promoted_ne_bool (b : BasicKind) : b.promoted ≠ .bool := by
  cases b <;> decide

theorem common_cases (a b : BasicKind) : a.common b = a.promoted ∨ a.common b = b.promoted := by
  simp only [common]
  split
  · exact .inr rfl
  · split
    · exact .inl rfl
    · split
      · exact .inr rfl
      · exact .inl rfl

theorem IsWord.common (ha : a.IsWord) (hb : b.IsWord) : (a.common b).IsWord := by
  obtain h | h := common_cases a b
  · rw [h]
    exact ha.promoted
  · rw [h]
    exact hb.promoted

theorem common_ne_bool (a b : BasicKind) : a.common b ≠ .bool := by
  obtain h | h := common_cases a b
  · rw [h]
    exact promoted_ne_bool a
  · rw [h]
    exact promoted_ne_bool b

theorem isValue_of_ne_bool (hb : b ≠ .bool) : b.IsValue i ↔ b.InRange i := by
  constructor
  · rintro ⟨h, -⟩
    exact h
  · intro h
    exact ⟨h, fun hbool => absurd hbool hb⟩

theorem isValue_toInt (p : Bool) : BasicKind.bool.IsValue p.toInt := by
  cases p
  · exact ⟨by rw [inRange_of_signed rfl, Fits]; decide, fun _ => .inl rfl⟩
  · exact ⟨by rw [inRange_of_signed rfl, Fits]; decide, fun _ => .inr rfl⟩

theorem isValue_convertInt (hb : b.IsWord) (i : Int) : b.IsValue (b.convertInt i) := by
  rw [convertInt]
  split
  · rename_i hbool
    rw [hbool]
    exact isValue_toInt _
  · rename_i hbool
    exact (isValue_of_ne_bool hbool).2 (inRange_wrap hb i)

theorem convertInt_of_isValue (hb : b.IsWord) (h : b.IsValue i) : b.convertInt i = i := by
  rw [convertInt]
  split
  · rename_i hbool
    obtain rfl | rfl := h.2 hbool
    · rfl
    · rfl
  · exact wrap_of_inRange hb h.1

theorem InRange.promoted (hb : b.IsWord) (h : b.InRange i) : b.promoted.InRange i := by
  rw [BasicKind.promoted]
  split
  · rename_i hs
    have hbits : b.bits ≤ 16 := by
      cases b <;> revert hb hs <;> decide
    rw [inRange_of_signed rfl]
    have hp : (2 : Int) ^ b.bits ≤ 2 ^ 16 := pow_le_pow_right₀ (by decide) hbits
    have h31 : (2 : Int) ^ (BasicKind.s32.bits - 1) = 2 ^ 31 := rfl
    have hf : Fits b.bits i := by
      cases hsign : b.isSigned with
      | true =>
        rw [inRange_of_signed hsign, Fits] at h
        have hq : (2 : Int) ^ (b.bits - 1) ≤ 2 ^ b.bits :=
          pow_le_pow_right₀ (by decide) (Nat.sub_le _ _)
        exact ⟨by omega, by omega⟩
      | false => exact ((inRange_of_unsigned hsign).1 h).2
    rw [Fits, h31]
    rw [Fits] at hf
    exact ⟨by omega, by omega⟩
  · exact h

end BasicKind

theorem TypeTable.builtin_eq {t : TypeTable} {k : TypeKey} {b : BasicKind}
    (h : (t.unwrapEnum k).kind = .basic b) : t.builtin k = b := by
  rw [builtin, h]

theorem BasicKind.isWord_ofLiteral (v : UInt64) (isChar : Bool) : (ofLiteral v isChar).IsWord := by
  rw [ofLiteral]
  split
  · decide
  · split
    · decide
    · split <;> decide

theorem BasicKind.isValue_ofLiteral {v : UInt64} {isChar : Bool}
    (hc : isChar → ∃ b : UInt8, v = Slot.signExtend 8 b.toUInt64) :
    (ofLiteral v isChar).IsValue (if isChar then Slot.toInt v else v.toNat) := by
  have hnat : ∀ b : BasicKind, b.isSigned = true → b ≠ .bool → v.toNat < 2 ^ (b.bits - 1) →
      b.IsValue v.toNat := by
    intro b hs hb hlt
    rw [isValue_of_ne_bool hb, inRange_of_signed hs, Fits.natCast_iff]
    exact hlt
  rw [ofLiteral]
  split
  · rename_i h
    obtain ⟨byte, hv⟩ := hc h
    have he : BasicKind.char8.extend v = v := by
      rw [hv]
      exact extend_extend (b := .char8) (by decide) _
    obtain ⟨i, hi, hvi⟩ := (extend_eq_self_iff (b := .char8) (by decide)).1 he
    rw [isValue_of_ne_bool (by decide), hvi, Slot.toInt_ofInt_of_signed (hi.holds (by decide))]
    exact hi
  · split
    · rename_i hlt
      exact hnat .s32 rfl (by decide) hlt
    · split
      · rename_i hlt
        exact hnat .s64 rfl (by decide) hlt
      · rw [isValue_of_ne_bool (by decide), inRange_of_unsigned rfl, Fits.natCast_iff]
        exact ⟨Int.natCast_nonneg _, v.toNat_lt⟩

theorem PrefixOp.isValue_onInt {op : PrefixOp} {b : BasicKind} (hb : b.IsWord) (i : Int) :
    (op.resultKind b).IsValue (op.onInt b.promoted i) := by
  cases op with
  | logNot => exact BasicKind.isValue_toInt _
  | neg =>
    exact (BasicKind.isValue_of_ne_bool (BasicKind.promoted_ne_bool b)).2
      (BasicKind.inRange_wrap hb.promoted _)
  | bitNot =>
    exact (BasicKind.isValue_of_ne_bool (BasicKind.promoted_ne_bool b)).2
      (BasicKind.inRange_wrap hb.promoted _)

namespace InfixOp

variable {op : InfixOp} {a b c : BasicKind} {i j r : Int}

theorem isWord_operandKind (op : InfixOp) (ha : a.IsWord) (hb : b.IsWord) :
    (op.operandKind a b).IsWord := by
  rw [operandKind]
  split
  · exact ha.promoted
  · exact ha.common hb

theorem operandKind_ne_bool (op : InfixOp) (a b : BasicKind) : op.operandKind a b ≠ .bool := by
  rw [operandKind]
  split
  · exact BasicKind.promoted_ne_bool a
  · exact BasicKind.common_ne_bool a b

theorem inRange_map_wrap (hc : c.IsWord) {x : Except Fault Int} (h : x.map c.wrap = .ok r) :
    c.InRange r := by
  cases x with
  | error f => cases h
  | ok i =>
    cases h
    exact BasicKind.inRange_wrap hc i

theorem isValue_onInts (hw : c.IsWord) (hi : c.InRange i)
    (hj : op.isShift = false → c.InRange j) (hc : c = op.operandKind a b)
    (h : op.onInts c i j = .ok r) : (op.resultKind a b).IsValue r := by
  have hb : c ≠ .bool := by
    rw [hc]
    exact operandKind_ne_bool op a b
  have hclosed : ∀ o : BinaryOp, o ∈ [.mod, .shr, .bitAnd, .bitXor, .bitOr] →
      o.isShift = op.isShift → o.onInts i j = .ok r → c.IsValue r := by
    intro o ho hs hr
    exact (BasicKind.isValue_of_ne_bool hb).2 (hi.onInts (fun h => hj (hs ▸ h)) ho hr)
  have hwrap : ∀ o : BinaryOp, (o.onInts i j).map c.wrap = .ok r → c.IsValue r := by
    intro o hr
    exact (BasicKind.isValue_of_ne_bool hb).2 (inRange_map_wrap hw hr)
  subst hc
  cases op with
  | add => exact hwrap .add h
  | sub => exact hwrap .sub h
  | mul => exact hwrap .mul h
  | div => exact hwrap .div h
  | shl => exact hwrap .shl h
  | mod => exact hclosed .mod (by simp) rfl h
  | shr => exact hclosed .shr (by simp) rfl h
  | bitAnd => exact hclosed .bitAnd (by simp) rfl h
  | bitXor => exact hclosed .bitXor (by simp) rfl h
  | bitOr => exact hclosed .bitOr (by simp) rfl h
  | lt => cases h; exact BasicKind.isValue_toInt _
  | le => cases h; exact BasicKind.isValue_toInt _
  | gt => cases h; exact BasicKind.isValue_toInt _
  | ge => cases h; exact BasicKind.isValue_toInt _
  | eq => cases h; exact BasicKind.isValue_toInt _
  | ne => cases h; exact BasicKind.isValue_toInt _
  | logAnd => cases h; exact BasicKind.isValue_toInt _
  | logOr => cases h; exact BasicKind.isValue_toInt _

end InfixOp

namespace Expr

variable {t : TypeTable} {e : Expr}

theorem isWord_integerKind (h : e.IsIntegral t) : (e.integerKind t).IsWord := by
  induction e with
  | int span v isChar => exact BasicKind.isWord_ofLiteral v isChar
  | leaf span name code k mode =>
    obtain ⟨-, -, b, hk, hb, -⟩ := h
    rw [integerKind, TypeTable.builtin_eq hk]
    exact hb
  | unary span op x ih =>
    rw [integerKind, PrefixOp.resultKind]
    split
    · decide
    · exact (ih h).promoted
  | binary span op x y ihx ihy =>
    have hw := op.isWord_operandKind (ihx h.1) (ihy h.2)
    cases op <;> first | exact hw | exact (by decide : BasicKind.bool.IsWord)
  | ternary span c yes no ihc ihyes ihno => exact (ihyes h.2.1).common (ihno h.2.2)
  | cast span type x ih =>
    cases type with
    | named span name k =>
      obtain ⟨⟨b, hk, hb⟩, -⟩ := h
      rw [integerKind, TypeTable.builtin_eq hk]
      exact hb
    | _ => cases h
  | _ => cases h

theorem isValue_integerValue (h : e.IsIntegral t) {target : Option Target} {layout : Arch}
    {pending : List Slot} {i : Int}
    (hi : (e.integerValue t target layout pending).result = .ok i) :
    (e.integerKind t).IsValue i := by
  cases e with
  | int span v isChar =>
    cases hi
    exact BasicKind.isValue_ofLiteral h
  | leaf span name code k mode =>
    obtain ⟨-, -, b, hk, hb, hbool⟩ := h
    obtain ⟨address, -, hi⟩ := Computation.result_bind_ok hi
    obtain ⟨v, -, hi⟩ := Computation.result_bind_ok hi
    cases hi
    rw [integerKind, TypeTable.builtin_eq hk, BasicKind.isValue_of_ne_bool hbool]
    exact BasicKind.inRange_wrap hb _
  | unary span op x =>
    obtain ⟨j, -, hi⟩ := Computation.result_bind_ok hi
    cases hi
    exact PrefixOp.isValue_onInt (isWord_integerKind (e := x) h) j
  | binary span op x y =>
    have hx := isWord_integerKind h.1
    have hy := isWord_integerKind h.2
    rw [integerValue] at hi
    split at hi
    · rename_i hop
      subst hop
      obtain ⟨j, -, hi⟩ := Computation.result_bind_ok hi
      split at hi
      · cases hi
        exact BasicKind.isValue_toInt false
      · obtain ⟨j, -, hi⟩ := Computation.result_bind_ok hi
        cases hi
        exact BasicKind.isValue_toInt _
    · split at hi
      · rename_i hop
        subst hop
        obtain ⟨j, -, hi⟩ := Computation.result_bind_ok hi
        split at hi
        · obtain ⟨j, -, hi⟩ := Computation.result_bind_ok hi
          cases hi
          exact BasicKind.isValue_toInt _
        · cases hi
          exact BasicKind.isValue_toInt true
      · obtain ⟨l, -, hi⟩ := Computation.result_bind_ok hi
        obtain ⟨r, -, hi⟩ := Computation.result_bind_ok hi
        have hw := op.isWord_operandKind hx hy
        refine InfixOp.isValue_onInts hw (BasicKind.isValue_convertInt hw l).1 ?_ rfl hi
        intro hs
        rw [hs]
        exact (BasicKind.isValue_convertInt hw r).1
  | ternary span c yes no =>
    have hw := (isWord_integerKind h.2.1).common (isWord_integerKind h.2.2)
    obtain ⟨j, -, hi⟩ := Computation.result_bind_ok hi
    split at hi
    · obtain ⟨j, -, hi⟩ := Computation.result_bind_ok hi
      cases hi
      exact BasicKind.isValue_convertInt hw j
    · obtain ⟨j, -, hi⟩ := Computation.result_bind_ok hi
      cases hi
      exact BasicKind.isValue_convertInt hw j
  | cast span type x =>
    cases type with
    | named span name k =>
      obtain ⟨⟨b, hk, hb⟩, -⟩ := h
      obtain ⟨j, -, hi⟩ := Computation.result_bind_ok hi
      cases hi
      rw [integerKind, TypeTable.builtin_eq hk]
      exact BasicKind.isValue_convertInt hb j
    | _ => cases h
  | _ => cases h

end Expr

end WatchExpr
