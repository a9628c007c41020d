import WatchExpr.Proofs.Lowering.ValueCode
import WatchExpr.Proofs.Machine.Arithmetic

namespace WatchExpr

namespace Slot

variable {a : Slot} {n : Int}

/-- A slot holds the exact sum of an address and a displacement, if that is an address. -/
theorem toNat_add_ofInt (h : 0 ≤ a.toNat + n ∧ a.toNat + n < 2 ^ 64) :
    ((a + ofInt n).toNat : Int) = a.toNat + n := by
  have ha : a + ofInt n = ofInt (a.toNat + n) := by rw [ofInt_add, ofInt_toNat]
  rw [ha, toNat_ofInt_of_unsigned h]

theorem mul_eq_ofInt (j size : Slot) : j * size = ofInt (j.toInt * size.toNat) := by
  rw [ofInt_mul, ofInt_toInt, ofInt_toNat]

theorem sub_ofInt (a : Slot) (n : Int) : a - ofInt n = a + ofInt (-n) := by
  rw [ofInt_neg, UInt64.sub_eq_add_neg]

end Slot

/-- The integers that are addresses of four bytes. -/
def IsShort (a : Int) : Prop := 0 ≤ a ∧ a < 2 ^ 32

theorem IsShort.toNat_add_lt {a : Slot} {n : Int} (h : IsShort (a.toNat + n)) :
    (a + Slot.ofInt n).toNat < 2 ^ 32 := by
  obtain ⟨h0, h1⟩ := h
  have he := Slot.toNat_add_ofInt (a := a) (n := n) ⟨h0, by omega⟩
  omega

namespace Node

variable {target : Option Target} {layout : Arch} {pending : List Slot} {n x y : Node} {v : Slot}

/-- What a tree gives on its own is below two to the 32nd. -/
def Short (target : Option Target) (layout : Arch) (n : Node) : Prop :=
  ∀ v, (n.eval target layout []).result = .ok v → v.toNat < 2 ^ 32

theorem result_add
    (h : ((binary (.binary .add) .u x y).eval target layout pending).result = .ok v) :
    ∃ a b, (x.eval target layout pending).result = .ok a ∧
      (y.eval target layout (a :: pending)).result = .ok b ∧ v = a + b := by
  obtain ⟨a, ha, h⟩ := Computation.result_bind_ok h
  obtain ⟨b, hb, h⟩ := Computation.result_bind_ok h
  cases h
  exact ⟨a, b, ha, hb, rfl⟩

theorem result_sub
    (h : ((binary (.binary .sub) .u x y).eval target layout pending).result = .ok v) :
    ∃ a b, (x.eval target layout pending).result = .ok a ∧
      (y.eval target layout (a :: pending)).result = .ok b ∧ v = a - b := by
  obtain ⟨a, ha, h⟩ := Computation.result_bind_ok h
  obtain ⟨b, hb, h⟩ := Computation.result_bind_ok h
  cases h
  exact ⟨a, b, ha, hb, rfl⟩

theorem result_scaled {size : UInt64}
    (h : ((Lowering.scaled n size).eval target layout pending).result = .ok v) :
    ∃ j, (n.eval target layout pending).result = .ok j ∧ v = j * size := by
  rw [Lowering.scaled] at h
  split at h
  · rename_i hs
    rw [hs]
    exact ⟨v, h, (UInt64.mul_one v).symm⟩
  · obtain ⟨a, ha, h⟩ := Computation.result_bind_ok h
    obtain ⟨b, hb, h⟩ := Computation.result_bind_ok h
    cases hb
    cases h
    exact ⟨a, ha, rfl⟩

end Node

def Kind.ofAddresses : List Kind := [pointer, lref, rref, function, method, memberPointer]

namespace TypeTable

variable {t t' table : TypeTable} {k : TypeKey} {b : BasicKind}

theorem isAddressLike_iff : t.isAddressLike k ↔ (t.unwrap k).kind ∈ Kind.ofAddresses := by
  rw [isAddressLike]
  cases (t.unwrap k).kind <;> simp [Kind.ofAddresses]

theorem isAddressLike_congr (h : t'.unwrap k = t.unwrap k) :
    t'.isAddressLike k = t.isAddressLike k := by
  simp only [isAddressLike, h]

theorem isAddressLike_of_isPointer (h : t.isPointer k) : t.isAddressLike k := by
  rw [isPointer] at h
  rw [isAddressLike_iff]
  cases hk : (t.unwrap k).kind <;> rw [hk] at h <;> first | decide | cases h

theorem not_isAddressLike (h : k.kind = .basic b) : t.isAddressLike k = false := by
  rw [isAddressLike, unwrap, unwrapWithin_of_not_transparent (by rw [h]; rfl), h]

section
variable (h : t.isAddressLike k)
include h

theorem not_transparent_of_isAddressLike : (t.unwrap k).kind.isTransparent = false := by
  have hk : ∀ kind ∈ Kind.ofAddresses, kind.isTransparent = false := by decide
  exact hk _ (isAddressLike_iff.1 h)

theorem unwrapEnum_of_isAddressLike : t.unwrapEnum k = t.unwrap k := by
  obtain hu | ⟨hu, -⟩ := unwrap_cases t k
  · exact hu
  · rw [isAddressLike, hu] at h
    cases h

theorem group_of_isAddressLike : t.scalarGroup k = .u := by
  have hk : ∀ kind ∈ Kind.ofAddresses, kind.group = .u := by decide
  rw [scalarGroup, unwrapEnum_of_isAddressLike h]
  exact hk _ (isAddressLike_iff.1 h)

theorem not_basic_of_isAddressLike : (t.unwrapEnum k).kind ≠ .basic b := by
  rw [unwrapEnum_of_isAddressLike h]
  intro hk
  rw [isAddressLike, hk] at h
  cases h

theorem not_signed_of_isAddressLike : (t.unwrapEnum k).kind.isSigned = false := by
  have hk : ∀ kind ∈ Kind.ofAddresses, kind.isSigned = false := by decide
  rw [unwrapEnum_of_isAddressLike h]
  exact hk _ (isAddressLike_iff.1 h)

theorem byteSize_of_isAddressLike : t.byteSize k = t.pointerSize := by
  have hs : t.sizeWithin 1 (t.unwrap k) = some t.pointerSize := by
    rw [isAddressLike] at h
    rw [sizeWithin]
    cases hk : (t.unwrap k).kind <;> rw [hk] at h <;> first | rfl | cases h
  rw [← byteSize_unwrapped]
  exact byteSize_of_sizeWithin hs

theorem Extends.isAddressLike (hT : t.Extends table) : table.isAddressLike k := by
  have hg : t.scalarGroup k ≠ .other := by
    rw [group_of_isAddressLike h]
    rintro ⟨⟩
  rw [isAddressLike_congr (hT.unwrap_of_scalarGroup hg)]
  exact h

end

/-- The number that a slot holds in a type, an enumeration counting as its underlying integer. -/
def number (t : TypeTable) (k : TypeKey) (v : Slot) : Int :=
  if (t.unwrapEnum k).kind.isSigned then v.toInt else v.toNat

theorem toNat_of_number (h : IsShort (t.number k v)) : v.toNat < 2 ^ 32 := by
  obtain ⟨h0, h1⟩ := h
  rw [number] at h0 h1
  split at h0
  · rename_i hs
    rw [if_pos hs] at h1
    have hv : ((Slot.ofInt v.toInt).toNat : Int) = v.toInt :=
      Slot.toNat_ofInt_of_unsigned ⟨h0, by omega⟩
    rw [Slot.ofInt_toInt] at hv
    omega
  · rename_i hs
    rw [if_neg hs] at h1
    omega

theorem number_eq (hk : (t.unwrapEnum k).kind = .basic b) :
    t.number k v = if b.isSigned then v.toInt else v.toNat := by
  rw [number, hk]
  rfl

theorem inRange_number_of_wide (hk : (t.unwrapEnum k).kind = .basic b) (hb : 64 ≤ b.bits) :
    b.InRange (t.number k v) := by
  have hp (m n : Nat) (h : m ≤ n) : (2 : Int) ^ m ≤ 2 ^ n := pow_le_pow_right₀ (by decide) h
  rw [number_eq hk, BasicKind.InRange]
  split
  · have hlt := hp 63 (b.bits - 1) (by omega)
    have hle := BitVec.le_two_mul_toInt (x := v.toBitVec)
    have hge := BitVec.two_mul_toInt_lt (x := v.toBitVec)
    rw [Slot.toInt]
    omega
  · have hlt := hp 64 b.bits hb
    have hv := v.toNat_lt
    omega

/-- A slot holds a number in the range of an integer type if it is canonical where the type is
narrow. -/
theorem inRange_number (hk : (t.unwrapEnum k).kind = .basic b) (hi : b.group.isInteger)
    (h : b.IsNarrow → b.extend v = v) : b.InRange (t.number k v) := by
  by_cases hn : b.IsNarrow
  · obtain ⟨i, hir, rfl⟩ := (BasicKind.extend_eq_self_iff hn.isWord).1 (h hn)
    have hholds := hir.holds hn.isWord
    have hnum : t.number k (Slot.ofInt i) = i := by
      rw [Slot.Holds] at hholds
      rw [number_eq hk]
      split
      · rename_i hs
        rw [if_pos hs] at hholds
        exact Slot.toInt_ofInt_of_signed hholds
      · rename_i hs
        rw [if_neg hs] at hholds
        exact Slot.toNat_ofInt_of_unsigned hholds
    rw [hnum]
    exact hir
  · apply inRange_number_of_wide hk
    cases b <;> revert hi hn <;> decide

theorem convert_address {r : Lowered} {n : Node} (h : t.convert r k = .ok n)
    (hf : t.isPointerFloatCast r.type k = false) (hk : t.isAddressLike k) :
    n = r.node ∧ (t.scalarGroup r.type).isInteger := by
  have hi : (t.unwrapEnum k).kind.isInteger = false := by
    rw [Bool.eq_false_iff, ne_eq, Kind.isInteger_iff]
    rintro ⟨b, hb, -⟩
    exact not_basic_of_isAddressLike hk hb
  have hg : (t.scalarGroup r.type).isInteger := by
    have hfloat : (t.scalarGroup r.type).isFloat = false := by
      simpa [isPointerFloatCast, hk] using (Bool.or_eq_false_iff.1 hf).2
    have hscalar : (t.scalarGroup r.type).isScalar :=
      Kind.isScalar_of_group (scalar_of_convert h).1
    cases hs : t.scalarGroup r.type with
    | u | s => rfl
    | f32 | f64 =>
      rw [hs] at hfloat
      cases hfloat
    | other | invalid =>
      rw [hs] at hscalar
      cases hscalar
  have hrule : (t.scalarGroup r.type).conversion .u = .same := by
    cases hs : t.scalarGroup r.type <;> rw [hs] at hg <;> first | rfl | cases hg
  simp only [convert, group_of_isAddressLike hk, hrule, hi, not_basic_of_isAddressLike hk,
    false_and, if_false] at h
  cases h
  exact ⟨rfl, hg⟩

theorem isPointer_of_sameType {l r : TypeKey} (h : t.sameType l r) (hl : t.isPointer l) :
    t.isPointer r := by
  rw [sameType, matchWithin] at h
  simp only at h
  split at h
  · rename_i he
    rw [isPointer, ← he]
    exact hl
  · split at h
    · cases h
    · rename_i hk
      rw [ne_eq, not_not] at hk
      rw [isPointer, ← hk]
      exact hl

end TypeTable

/-- An address, or a value of a type whose values are addresses. -/
def Lowered.IsAddress (table : TypeTable) (r : Lowered) : Prop :=
  r.mode = .address ∨ r.mode = .value ∧ table.isAddressLike r.type

/-- Its value is the slot itself, and nothing is read: a value, or the address of an array, which
stands for its first element. -/
def Lowered.IsKept (t : TypeTable) (r : Lowered) : Prop :=
  r.mode = .value ∨ r.mode = .address ∧ (t.unwrap r.type).kind = .array

namespace TypeTable

variable {t t' table : TypeTable} {target : Option Target} {layout : Arch} {r v : Lowered}

theorem short_load (hl : t.load r = (some v, t')) (hT : t'.Grows table)
    (hp : table.pointerSize = 4) (hr : Lowering.UnsignedRegister r.mode r.type)
    (hv : table.isAddressLike v.type)
    (h : r.IsKept t → r.IsAddress table → r.node.Short target layout) :
    v.node.Short target layout := by
  have ht := (grows_of_load hl).trans hT
  simp only [load] at hl
  split at hl
  · rename_i hm
    cases hl
    exact h (.inl hm) (.inr ⟨hm, hv⟩)
  · rename_i hm
    split at hl
    · rename_i ha
      cases hl
      exact h (.inr ⟨hm, ha⟩) (.inl hm)
    · split at hl
      · cases hl
      · rename_i hs
        rw [not_or] at hs
        cases hl
        rw [isAddressLike_congr (ht.entries.unwrap_of_byteSize hs.1)] at hv
        have hsize : t.byteSize (t.unwrap r.type) = 4 := by
          rw [byteSize_unwrapped, byteSize_of_isAddressLike hv, ← ht.pointerSize, hp]
        have hsign : (t.unwrapEnum (t.unwrap r.type)).kind.isSigned = false := by
          rw [unwrapEnum_unwrapped (not_transparent_of_isAddressLike hv)]
          exact not_signed_of_isAddressLike hv
        simp only [hsize, hsign, Bool.false_eq_true, false_and, if_false]
        intro w hw
        obtain ⟨a, -, hw⟩ := Computation.result_bind_ok hw
        exact Target.loadWord_lt (by decide) hw
  · rename_i hm
    obtain ⟨b, -, hb⟩ := hr hm
    split at hl <;> cases hl
    rw [hb, not_isAddressLike rfl] at hv
    cases hv

end TypeTable

namespace Lowering

def Operand (t : TypeTable) (x : Expr) (v : Lowered) (t' : TypeTable) : Prop :=
  ∃ r t₁, Lowers t x r t₁ ∧ t₁.load r = (some v, t')

def KeptOperand (t : TypeTable) (x : Expr) (v : Lowered) (t' : TypeTable) : Prop :=
  ∃ r t₁, Lowers t x r t₁ ∧ t₁.load r = (some v, t') ∧ r.IsKept t₁

/-- The exact address that an expression should stand for, by the last operation that makes it: a
cast of a number, which is the number that the operand of the cast has in its own type, or the
displacement of an address. Conditionals take it over from the branch they select, and casts between
addresses, `*`, `&` and first members from their operand; what is read from memory is not made.
Where narrow values are canonical, the number of a cast is in the range of its type. -/
inductive Makes (canonical : Prop) (target : Option Target) (layout : Arch) :
    TypeTable → Expr → Int → Prop
  | number {t t₁ t₂ : TypeTable} {s : Span} {type : TypeExpr} {k : TypeKey} {x : Expr}
      {vx : Lowered} {v : Slot} (hk : type.key t = (k, t₁)) (hx : Operand t₁ x vx t₂)
      (hn : t₂.isAddressLike vx.type = false)
      (hv : (vx.node.eval target layout []).result = .ok v)
      (hr : canonical → ∀ b, (t₂.unwrapEnum vx.type).kind = .basic b →
        b.InRange (t₂.number vx.type v)) :
      Makes canonical target layout t (.cast s type x) (t₂.number vx.type v)
  | add {t t₁ t₂ : TypeTable} {s : Span} {x i : Expr} {vx vi : Lowered} {a j : Slot}
      (hx : Operand t x vx t₁) (hi : Operand t₁ i vi t₂) (hp : t₂.isPointer vx.type)
      (ha : (vx.node.eval target layout []).result = .ok a)
      (hj : (vi.node.eval target layout [a]).result = .ok j) :
      Makes canonical target layout t (.binary s .add x i)
        (a.toNat + j.toInt * (t₂.byteSize (t₂.pointee vx.type)).toNat)
  | addRight {t t₁ t₂ : TypeTable} {s : Span} {i x : Expr} {vi vx : Lowered} {a j : Slot}
      (hi : Operand t i vi t₁) (hx : Operand t₁ x vx t₂) (hp : t₂.isPointer vx.type)
      (ha : (vx.node.eval target layout []).result = .ok a)
      (hj : (vi.node.eval target layout [a]).result = .ok j) :
      Makes canonical target layout t (.binary s .add i x)
        (a.toNat + j.toInt * (t₂.byteSize (t₂.pointee vx.type)).toNat)
  | sub {t t₁ t₂ : TypeTable} {s : Span} {x i : Expr} {vx vi : Lowered} {a j : Slot}
      (hx : Operand t x vx t₁) (hi : Operand t₁ i vi t₂) (hp : t₂.isPointer vx.type)
      (ha : (vx.node.eval target layout []).result = .ok a)
      (hj : (vi.node.eval target layout [a]).result = .ok j) :
      Makes canonical target layout t (.binary s .sub x i)
        (a.toNat - j.toInt * (t₂.byteSize (t₂.pointee vx.type)).toNat)
  | indexArray {t t₁ t₂ : TypeTable} {s : Span} {x i : Expr} {rx vi : Lowered} {a j : Slot}
      (hx : Lowers t x rx t₁) (hi : Operand t₁ i vi t₂) (hk : (t₂.unwrap rx.type).kind = .array)
      (hj : (vi.node.eval target layout []).result = .ok j)
      (ha : (rx.node.eval target layout
        [j * t₂.byteSize (t₂.direct (t₂.unwrap rx.type))]).result = .ok a) :
      Makes canonical target layout t (.index s x i)
        (a.toNat + j.toInt * (t₂.byteSize (t₂.direct (t₂.unwrap rx.type))).toNat)
  | indexPointer {t t₁ t₂ t₃ : TypeTable} {s : Span} {x i : Expr} {rx vi vx : Lowered}
      {a j : Slot} (hx : Lowers t x rx t₁) (hi : Operand t₁ i vi t₂) (hk : t₂.isPointer rx.type)
      (hvx : t₂.load rx = (some vx, t₃)) (hj : (vi.node.eval target layout []).result = .ok j)
      (ha : (vx.node.eval target layout
        [j * t₃.byteSize (t₂.direct (t₂.unwrap rx.type))]).result = .ok a) :
      Makes canonical target layout t (.index s x i)
        (a.toNat + j.toInt * (t₃.byteSize (t₂.direct (t₂.unwrap rx.type))).toNat)
  | arrow {t t₁ t₂ : TypeTable} {s : Span} {x : Expr} {field : Field} {dash : Bool}
      {rx vx : Lowered} {m : Member} {a : Slot} (hx : Lowers t x rx t₁)
      (hp : t₁.isPointer rx.type) (hvx : t₁.load rx = (some vx, t₂))
      (hm : (t₂.members (t₁.pointee vx.type)).find? (·.name == field.name) = some m)
      (ho : m.offset ≠ 0) (ha : (vx.node.eval target layout []).result = .ok a) :
      Makes canonical target layout t (.member s x field dash) (a.toNat + m.offset.toNat)
  | member {t t₁ : TypeTable} {s : Span} {x : Expr} {field : Field} {dash : Bool} {rx : Lowered}
      {m : Member} {a : Slot} (hx : Lowers t x rx t₁) (hr : rx.mode = .address)
      (hm : (t₁.members (t₁.unwrap rx.type)).find? (·.name == field.name) = some m)
      (ho : m.offset ≠ 0) (ha : (rx.node.eval target layout []).result = .ok a) :
      Makes canonical target layout t (.member s x field dash) (a.toNat + m.offset.toNat)
  | cast {t t₁ t₂ : TypeTable} {s : Span} {type : TypeExpr} {k : TypeKey} {x : Expr}
      {vx : Lowered} {a : Int} (hk : type.key t = (k, t₁)) (hx : KeptOperand t₁ x vx t₂)
      (hp : t₂.isAddressLike vx.type) (h : Makes canonical target layout t₁ x a) :
      Makes canonical target layout t (.cast s type x) a
  | yes {t t₁ t₂ : TypeTable} {s : Span} {c yes no : Expr} {vc vy : Lowered} {w : Slot} {a : Int}
      (hc : Operand t c vc t₁) (hw : (vc.node.eval target layout []).result = .ok w)
      (ht : Slot.isTrue w) (hyes : KeptOperand t₁ yes vy t₂)
      (h : Makes canonical target layout t₁ yes a) :
      Makes canonical target layout t (.ternary s c yes no) a
  | no {t t₁ t₂ t₃ : TypeTable} {s : Span} {c yes no : Expr} {vc vy vn : Lowered} {w : Slot}
      {a : Int} (hc : Operand t c vc t₁) (hw : (vc.node.eval target layout []).result = .ok w)
      (hf : Slot.isTrue w = false) (hyes : Operand t₁ yes vy t₂) (hno : KeptOperand t₂ no vn t₃)
      (h : Makes canonical target layout t₂ no a) :
      Makes canonical target layout t (.ternary s c yes no) a
  | deref {t t₁ : TypeTable} {s : Span} {x : Expr} {vx : Lowered} {a : Int}
      (hx : KeptOperand t x vx t₁) (h : Makes canonical target layout t x a) :
      Makes canonical target layout t (.deref s x) a
  | addressOf {t : TypeTable} {s : Span} {x : Expr} {a : Int}
      (h : Makes canonical target layout t x a) :
      Makes canonical target layout t (.addressOf s x) a
  | firstArrow {t t₁ t₂ : TypeTable} {s : Span} {x : Expr} {field : Field} {dash : Bool}
      {rx vx : Lowered} {m : Member} {a : Int} (hx : Lowers t x rx t₁)
      (hp : t₁.isPointer rx.type) (hvx : t₁.load rx = (some vx, t₂)) (hr : rx.IsKept t₁)
      (hm : (t₂.members (t₁.pointee vx.type)).find? (·.name == field.name) = some m)
      (ho : m.offset = 0) (h : Makes canonical target layout t x a) :
      Makes canonical target layout t (.member s x field dash) a
  | firstMember {t t₁ : TypeTable} {s : Span} {x : Expr} {field : Field} {dash : Bool}
      {rx : Lowered} {m : Member} {a : Int} (hx : Lowers t x rx t₁) (hr : rx.mode = .address)
      (hm : (t₁.members (t₁.unwrap rx.type)).find? (·.name == field.name) = some m)
      (ho : m.offset = 0) (h : Makes canonical target layout t x a) :
      Makes canonical target layout t (.member s x field dash) a

section
variable {t table : TypeTable} {k : TypeKey} {target : Option Target} {layout : Arch}

theorem not_isAddress {n : Node} {b : BasicKind} (h : k.kind = .basic b) :
    ¬ Lowered.IsAddress table ⟨n, k, .value⟩ := by
  rintro (hm | ⟨-, hk⟩)
  · cases hm
  · rw [TypeTable.not_isAddressLike h] at hk
    cases hk

theorem UnaryRule.not_isAddress {op : PrefixOp} {x r : Lowered} (h : UnaryRule t op x r) :
    ¬ r.IsAddress table := by
  cases h with
  | pointerNot => exact Lowering.not_isAddress rfl
  | logNot => exact Lowering.not_isAddress rfl
  | arithmetic hop hx =>
    obtain ⟨a, ha⟩ := basic_of_isArithmetic hx
    obtain ⟨c, hc⟩ := promote_basic ha
    exact Lowering.not_isAddress hc

theorem not_isAddress_lowerInt (v : UInt64) (isChar : Bool) :
    ¬ (lowerInt v isChar).IsAddress table := by
  rw [lowerInt]
  split
  · exact Lowering.not_isAddress rfl
  · split
    · exact Lowering.not_isAddress rfl
    · split <;> exact Lowering.not_isAddress rfl

theorem not_isAddress_lowerFloat (bits : UInt64) (isSingle : Bool) :
    ¬ (lowerFloat bits isSingle).IsAddress table := by
  rw [lowerFloat]
  split <;> exact Lowering.not_isAddress rfl

theorem BinaryRule.moves {op : InfixOp} {x y r : Lowered} (h : BinaryRule t op x y r)
    (hr : r.IsAddress table) :
    (op = .add ∧ t.isPointer x.type ∧ r.node = .binary (.binary .add) .u x.node
      (scaled y.node (t.byteSize (t.pointee x.type)))) ∨
    (op = .add ∧ t.isPointer y.type ∧ r.node = .binary (.binary .add) .u y.node
      (scaled x.node (t.byteSize (t.pointee y.type)))) ∨
    (op = .sub ∧ t.isPointer x.type ∧ r.node = .binary (.binary .sub) .u x.node
      (scaled y.node (t.byteSize (t.pointee x.type)))) := by
  cases h with
  | pointerAdd hp => exact .inl ⟨rfl, hp, rfl⟩
  | addPointer hp => exact .inr (.inl ⟨rfl, hp, rfl⟩)
  | pointerSub hp => exact .inr (.inr ⟨rfl, hp, rfl⟩)
  | conjunction => exact absurd hr (Lowering.not_isAddress rfl)
  | disjunction => exact absurd hr (Lowering.not_isAddress rfl)
  | pointerCompare => exact absurd hr (Lowering.not_isAddress rfl)
  | difference => exact absurd hr (Lowering.not_isAddress rfl)
  | compare => exact absurd hr (Lowering.not_isAddress rfl)
  | wrapping _ hx hy =>
    obtain ⟨c, hc⟩ := operandType_basic hx hy
    exact absurd hr (Lowering.not_isAddress hc)
  | closed _ hx hy =>
    obtain ⟨c, hc⟩ := operandType_basic hx hy
    exact absurd hr (Lowering.not_isAddress hc)

theorem short_add {x i : Node} {size : UInt64}
    (h : ∀ a j, (x.eval target layout []).result = .ok a →
      (i.eval target layout [a]).result = .ok j → IsShort (a.toNat + j.toInt * size.toNat)) :
    (Node.binary (.binary .add) .u x (scaled i size)).Short target layout := by
  intro v hv
  obtain ⟨a, b, ha, hb, rfl⟩ := Node.result_add hv
  obtain ⟨j, hj, rfl⟩ := Node.result_scaled hb
  rw [Slot.mul_eq_ofInt]
  exact (h a j ha hj).toNat_add_lt

theorem short_sub {x i : Node} {size : UInt64}
    (h : ∀ a j, (x.eval target layout []).result = .ok a →
      (i.eval target layout [a]).result = .ok j → IsShort (a.toNat - j.toInt * size.toNat)) :
    (Node.binary (.binary .sub) .u x (scaled i size)).Short target layout := by
  intro v hv
  obtain ⟨a, b, ha, hb, rfl⟩ := Node.result_sub hv
  obtain ⟨j, hj, rfl⟩ := Node.result_scaled hb
  have he := h a j ha hj
  rw [Int.sub_eq_add_neg] at he
  rw [Slot.mul_eq_ofInt, Slot.sub_ofInt]
  exact he.toNat_add_lt

/-- An index is worked out before the address it goes to. -/
theorem short_element {x i : Node} {size : UInt64}
    (h : ∀ a j, (i.eval target layout []).result = .ok j →
      (x.eval target layout [j * size]).result = .ok a →
        IsShort (a.toNat + j.toInt * size.toNat)) :
    (Node.binary (.binary .add) .u (scaled i size) x).Short target layout := by
  intro v hv
  obtain ⟨b, a, hb, ha, rfl⟩ := Node.result_add hv
  obtain ⟨j, hj, rfl⟩ := Node.result_scaled hb
  rw [UInt64.add_comm, Slot.mul_eq_ofInt]
  exact (h a j hj ha).toNat_add_lt

theorem short_member {x : Node} {offset : UInt64}
    (h : ∀ a, (x.eval target layout []).result = .ok a → IsShort (a.toNat + offset.toNat)) :
    (Node.binary (.binary .add) .u x (.unsigned offset)).Short target layout := by
  intro v hv
  obtain ⟨a, b, ha, hb, rfl⟩ := Node.result_add hv
  cases hb
  rw [← Slot.ofInt_toNat offset]
  exact (h a ha).toNat_add_lt

theorem short_cond {c yes no : Node}
    (hyes : ∀ w, (c.eval target layout []).result = .ok w → Slot.isTrue w →
      yes.Short target layout)
    (hno : ∀ w, (c.eval target layout []).result = .ok w → Slot.isTrue w = false →
      no.Short target layout) : (Node.cond c yes no).Short target layout := by
  intro v hv
  obtain ⟨w, hw, hv⟩ := Computation.result_bind_ok hv
  split at hv
  · rename_i ht
    exact hyes w hw ht v hv
  · rename_i hf
    rw [Bool.not_eq_true] at hf
    exact hno w hw hf v hv

theorem MemberRule.short {record : TypeKey} {field : Text} {base : Node} {mode : Mode}
    {r : Lowered} (h : MemberRule t record field base mode r)
    (hfirst : ∀ m, (t.members record).find? (·.name == field) = some m → m.offset = 0 →
      base.Short target layout)
    (hlater : ∀ m a, (t.members record).find? (·.name == field) = some m → m.offset ≠ 0 →
      (base.eval target layout []).result = .ok a → IsShort (a.toNat + m.offset.toNat)) :
    r.node.Short target layout := by
  cases h with
  | first _ hm ho => exact hfirst _ hm ho
  | later _ hm ho => exact short_member fun a ha => hlater _ a hm ho ha

end

/-- The atoms that name addresses below two to the 32nd. -/
def ShortAtom (table : TypeTable) (target : Option Target) (layout : Arch) : Expr → Prop
  | .leaf _ _ code type mode =>
    Lowered.IsAddress table ⟨.splice code, type, mode⟩ → (Node.splice code).Short target layout
  | _ => True

/-- A value of an integer type is a number in its range where narrow values are canonical. -/
theorem Lowers.inRange_number {t t₁ t₂ table : TypeTable} {x : Expr} {r v : Lowered}
    {b : BasicKind} {target : Option Target} {layout : Arch} (hx : Lowers t x r t₁)
    (hv : t₁.load r = (some v, t₂)) (hT : t₂.Extends table) (ha : x.Atoms (CanonicalAtom table))
    (hk : (t₂.unwrapEnum v.type).kind = .basic b) (hi : b.group.isInteger) {w : Slot}
    (hw : (v.node.eval target layout []).result = .ok w) : b.InRange (t₂.number v.type w) := by
  have hg : t₂.scalarGroup v.type ≠ .other := by
    rw [TypeTable.scalarGroup_of_basic hk]
    intro hother
    rw [hother] at hi
    cases hi
  have hcanon := TypeTable.canonical_load hv hT
    (hx.canonical ((TypeTable.extends_of_load hv).trans hT) ha)
  rw [Lowered.CanonicalIn, hT.unwrapEnum_of_scalarGroup hg] at hcanon
  exact TypeTable.inRange_number hk hi fun hn => hcanon b hk hn target layout [] w hw

/-- An address is below two to the 32nd if the names are and the operation that makes it gives such
an address. -/
theorem Lowers.short {canonical : Prop} {t t' table : TypeTable} {e : Expr} {r : Lowered}
    {target : Option Target} {layout : Arch} (h : Lowers t e r t') (hT : t'.Grows table)
    (hp : table.pointerSize = 4) (hreg : e.Atoms RegisterLeaf)
    (ha : e.Atoms (ShortAtom table target layout))
    (hcan : canonical → e.Atoms (CanonicalAtom table))
    (hm : ∀ a, Makes canonical target layout t e a → IsShort a) (hr : r.IsAddress table) :
    r.node.Short target layout := by
  -- Each part is lowered under a table of its own, and all of them grow into the last one.
  induction h with
  | int => exact absurd hr (not_isAddress_lowerInt _ _)
  | float => exact absurd hr (not_isAddress_lowerFloat _ _)
  | leaf => exact ha hr
  | unary _ _ h _ => exact absurd hr h.not_isAddress
  | binary hx hvx hy hvy h _ _ =>
    have hox : Operand _ _ _ _ := ⟨_, _, hx, hvx⟩
    have hoy : Operand _ _ _ _ := ⟨_, _, hy, hvy⟩
    obtain ⟨rfl, hptr, hn⟩ | ⟨rfl, hptr, hn⟩ | ⟨rfl, hptr, hn⟩ := h.moves hr
    · rw [hn]
      exact short_add fun a j haa hj => hm _ (.add hox hoy hptr haa hj)
    · rw [hn]
      exact short_add fun a j haa hj => hm _ (.addRight hox hoy hptr haa hj)
    · rw [hn]
      exact short_sub fun a j haa hj => hm _ (.sub hox hoy hptr haa hj)
  | ternary hc hvc hyes hvy hno hvn h _ ihyes ihno =>
    have hT₅ := (TypeTable.grows_of_load hvn).trans hT
    have hT₄ := hno.grows.trans hT₅
    have hT₃ := (TypeTable.grows_of_load hvy).trans hT₄
    have hcy := fun hn => (hcan hn).2.1
    have hcn := fun hn => (hcan hn).2.2
    have hoc : Operand _ _ _ _ := ⟨_, _, hc, hvc⟩
    cases h with
    | arithmetic _ hay han =>
      obtain ⟨b, hb⟩ := coerce_basic hay han
      exact absurd hr (not_isAddress hb)
    | pointer _ hptr hs =>
      have hky := hT.entries.isAddressLike (TypeTable.isAddressLike_of_isPointer hptr)
      have hkn := hT.entries.isAddressLike
        (TypeTable.isAddressLike_of_isPointer (TypeTable.isPointer_of_sameType hs hptr))
      apply short_cond
      · intro w hw ht
        apply TypeTable.short_load hvy hT₄ hp (hyes.unsignedRegister hreg.2.1) hky
        intro hkept
        apply ihyes hT₃ hreg.2.1 ha.2.1 hcy
        intro a hma
        exact hm a (.yes hoc hw ht ⟨_, _, hyes, hvy, hkept⟩ hma)
      · intro w hw hf
        apply TypeTable.short_load hvn hT hp (hno.unsignedRegister hreg.2.2) hkn
        intro hkept
        apply ihno hT₅ hreg.2.2 ha.2.2 hcn
        intro a hma
        exact hm a (.no hoc hw hf ⟨_, _, hyes, hvy⟩ ⟨_, _, hno, hvn, hkept⟩ hma)
  | @cast t t₁ t₂ t₃ _ _ k _ _ vx _ hk _ hx hvx hf h ih =>
    have hT₂ := (TypeTable.grows_of_load hvx).trans hT
    have hkey : t₃.isAddressLike k := by
      obtain hmode | ⟨-, hkey⟩ := hr
      · cases hmode
      · obtain ⟨-, hg⟩ := TypeTable.scalar_of_convert h
        rw [TypeTable.isAddressLike_congr (hT.entries.unwrap_of_scalarGroup hg)] at hkey
        exact hkey
    obtain ⟨rfl, hi⟩ := TypeTable.convert_address h hf hkey
    cases hn : t₃.isAddressLike vx.type with
    | false =>
      intro v hv
      apply TypeTable.toNat_of_number
      apply hm _ (.number hk ⟨_, _, hx, hvx⟩ hn hv _)
      intro hcanon b hb
      rw [TypeTable.scalarGroup_of_basic hb] at hi
      exact hx.inRange_number hvx hT.entries (hcan hcanon) hb hi hv
    | true =>
      apply TypeTable.short_load hvx hT hp (hx.unsignedRegister hreg)
        (hT.entries.isAddressLike hn)
      intro hkept
      apply ih hT₂ hreg ha hcan
      intro a hma
      exact hm a (.cast hk ⟨_, _, hx, hvx, hkept⟩ hn hma)
  | sizeofType => exact absurd hr (not_isAddress rfl)
  | sizeof => exact absurd hr (not_isAddress rfl)
  | deref hx hvx hptr ih =>
    have hT₁ := (TypeTable.grows_of_load hvx).trans hT
    apply TypeTable.short_load hvx hT hp (hx.unsignedRegister hreg)
      (hT.entries.isAddressLike (TypeTable.isAddressLike_of_isPointer hptr))
    intro hkept
    apply ih hT₁ hreg ha hcan
    intro a hma
    exact hm a (.deref ⟨_, _, hx, hvx, hkept⟩ hma)
  | @addressOf t t₁ _ _ _ rx _ _ hmode hptr ih =>
    have hg := t₁.grows_pointer (t₁.unwrap rx.type)
    rw [hptr] at hg
    apply ih (hg.trans hT) hreg ha hcan _ (.inl hmode)
    intro a hma
    exact hm a (.addressOf hma)
  | indexArray hx hi hvi _ hk _ _ _ =>
    exact short_element fun a j hj haa => hm _ (.indexArray hx ⟨_, _, hi, hvi⟩ hk hj haa)
  | indexPointer hx hi hvi _ hk hvx _ _ =>
    exact short_element fun a j hj haa => hm _ (.indexPointer hx ⟨_, _, hi, hvi⟩ hk hvx hj haa)
  | @arrow t t₁ t₂ _ _ _ _ rx vx _ hx hptr hvx h ih =>
    have hT₁ := (TypeTable.grows_of_load hvx).trans hT
    have hkey : table.isAddressLike vx.type := by
      rw [TypeTable.type_of_load_pointer hptr hvx]
      exact hT₁.entries.isAddressLike (TypeTable.isAddressLike_of_isPointer hptr)
    apply h.short
    · intro m hmem ho
      apply TypeTable.short_load hvx hT hp (hx.unsignedRegister hreg) hkey
      intro hkept
      apply ih hT₁ hreg ha hcan
      intro a hma
      exact hm a (.firstArrow hx hptr hvx hkept hmem ho hma)
    · intro m a hmem ho haa
      exact hm _ (.arrow hx hptr hvx hmem ho haa)
  | @member t t₁ _ _ _ _ rx _ hx hmode h ih =>
    have haddr : rx.mode = .address := by
      obtain haddr | ⟨hval, -⟩ := hr
      · rw [h.mode_eq] at haddr
        exact haddr
      · rw [h.mode_eq] at hval
        exact absurd hval hmode
    apply h.short
    · intro m hmem ho
      apply ih hT hreg ha hcan _ (.inl haddr)
      intro a hma
      exact hm a (.firstMember hx haddr hmem ho hma)
    · intro m a hmem ho haa
      exact hm _ (.member hx haddr hmem ho haa)

end Lowering

end WatchExpr
