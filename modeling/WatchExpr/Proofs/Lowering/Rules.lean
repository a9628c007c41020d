import WatchExpr.Lowering.Lower

namespace WatchExpr

namespace Lowering

def truthOf (node : Node) : Lowered := ⟨node, .basic .bool, .value⟩

/-- The test of a left operand: floating-point numbers are compared with zero. -/
def testOf (t : TypeTable) (x : Lowered) : Node :=
  if (t.scalarGroup x.type).isFloat then TypeTable.differsFromZero (t.scalarGroup x.type) x.node
  else x.node

def operandType (t : TypeTable) (op : InfixOp) (x y : Lowered) : TypeKey :=
  if op.isShift then (t.unwrapEnum x.type).promote else t.coerce x.type y.type

/-- The right operand in the type of the operation; a shift count stays as it is. -/
def rightOperand (t : TypeTable) (op : InfixOp) (x y : Lowered) : Node :=
  if op.isShift then y.node else t.converted y (operandType t op x y)

def operation (t : TypeTable) (op : InfixOp) (x y : Lowered) : Node :=
  .binary op.opcode (operandType t op x y).group (t.converted x (operandType t op x y))
    (rightOperand t op x y)

inductive UnaryRule (t : TypeTable) : PrefixOp → Lowered → Lowered → Prop
  | pointerNot {x : Lowered} (hp : t.isPointer x.type) :
      UnaryRule t .logNot x (truthOf (.binary (.compare .eq) .u x.node (.unsigned 0)))
  | logNot {x : Lowered} (hx : t.isArithmetic x.type)
      (hg : (Opcode.unary .logNot).accepts (t.unwrapEnum x.type).promote.group) :
      UnaryRule t .logNot x
        (truthOf (.unary (.unary .logNot) (t.unwrapEnum x.type).promote.group
          (t.converted x (t.unwrapEnum x.type).promote)))
  | arithmetic {op : PrefixOp} {x : Lowered} (hop : op ≠ .logNot) (hx : t.isArithmetic x.type)
      (hg : (Opcode.unary op.operation).accepts (t.unwrapEnum x.type).promote.group) :
      UnaryRule t op x
        ⟨t.truncateTo (.unary (.unary op.operation) (t.unwrapEnum x.type).promote.group
          (t.converted x (t.unwrapEnum x.type).promote)) (t.unwrapEnum x.type).promote,
          (t.unwrapEnum x.type).promote, .value⟩

inductive BinaryRule (t : TypeTable) : InfixOp → Lowered → Lowered → Lowered → Prop
  | conjunction {x y : Lowered} (hx : t.scalarGroup x.type ≠ .other)
      (hy : t.scalarGroup y.type ≠ .other) :
      BinaryRule t .logAnd x y (truthOf (.cond (testOf t x)
        (TypeTable.differsFromZero (t.scalarGroup y.type) y.node) (.unsigned 0)))
  | disjunction {x y : Lowered} (hx : t.scalarGroup x.type ≠ .other)
      (hy : t.scalarGroup y.type ≠ .other) :
      BinaryRule t .logOr x y (truthOf (.cond (testOf t x) (.unsigned 1)
        (TypeTable.differsFromZero (t.scalarGroup y.type) y.node)))
  | pointerCompare {op : InfixOp} {x y : Lowered} (hop : op.isComparison)
      (hp : t.isPointer x.type ∨ t.isPointer y.type)
      (hx : t.isPointer x.type ∨ (t.scalarGroup x.type).isInteger)
      (hy : t.isPointer y.type ∨ (t.scalarGroup y.type).isInteger) :
      BinaryRule t op x y (truthOf (.binary op.opcode .u x.node y.node))
  | pointerAdd {p i : Lowered} (hp : t.isPointer p.type)
      (hi : (t.scalarGroup i.type).isInteger) (hs : t.byteSize (t.pointee p.type) ≠ 0) :
      BinaryRule t .add p i ⟨.binary (.binary .add) .u p.node
        (scaled i.node (t.byteSize (t.pointee p.type))), p.type, .value⟩
  | addPointer {p i : Lowered} (hp : t.isPointer p.type)
      (hi : (t.scalarGroup i.type).isInteger) (hs : t.byteSize (t.pointee p.type) ≠ 0) :
      BinaryRule t .add i p ⟨.binary (.binary .add) .u p.node
        (scaled i.node (t.byteSize (t.pointee p.type))), p.type, .value⟩
  | pointerSub {p i : Lowered} (hp : t.isPointer p.type)
      (hi : (t.scalarGroup i.type).isInteger) (hs : t.byteSize (t.pointee p.type) ≠ 0) :
      BinaryRule t .sub p i ⟨.binary (.binary .sub) .u p.node
        (scaled i.node (t.byteSize (t.pointee p.type))), p.type, .value⟩
  | difference {x y : Lowered} {node : Node} (hx : t.isPointer x.type) (hy : t.isPointer y.type)
      (hs : t.byteSize (t.pointee x.type) ≠ 0)
      (hn : node = .binary (.binary .sub) .u x.node y.node ∨
        node = .binary (.binary .div) .u (.binary (.binary .sub) .u x.node y.node)
          (.unsigned (t.byteSize (t.pointee x.type)))) :
      BinaryRule t .sub x y ⟨node, .basic .u64, .value⟩
  | compare {op : InfixOp} {x y : Lowered} (hop : op.isComparison) (hx : t.isArithmetic x.type)
      (hy : t.isArithmetic y.type) (hg : op.opcode.accepts (operandType t op x y).group) :
      BinaryRule t op x y (truthOf (operation t op x y))
  | wrapping {op : InfixOp} {x y : Lowered} (hop : mayOverflow op) (hx : t.isArithmetic x.type)
      (hy : t.isArithmetic y.type) (hg : op.opcode.accepts (operandType t op x y).group)
      (hs : op.isShift → (t.scalarGroup y.type).isInteger) :
      BinaryRule t op x y ⟨t.truncateTo (operation t op x y) (operandType t op x y),
        operandType t op x y, .value⟩
  | closed {op : InfixOp} {x y : Lowered} (hop : op ∈ [.mod, .shr, .bitAnd, .bitXor, .bitOr])
      (hx : t.isArithmetic x.type) (hy : t.isArithmetic y.type)
      (hg : op.opcode.accepts (operandType t op x y).group)
      (hs : op.isShift → (t.scalarGroup y.type).isInteger) :
      BinaryRule t op x y ⟨operation t op x y, operandType t op x y, .value⟩

/-- The conditional operator on three values. -/
inductive TernaryRule (t : TypeTable) : Lowered → Lowered → Lowered → Lowered → Prop
  | arithmetic {c yes no : Lowered} (hc : (t.scalarGroup c.type).isInteger)
      (hyes : t.isArithmetic yes.type) (hno : t.isArithmetic no.type) :
      TernaryRule t c yes no ⟨.cond c.node (t.converted yes (t.coerce yes.type no.type))
        (t.converted no (t.coerce yes.type no.type)), t.coerce yes.type no.type, .value⟩
  | pointer {c yes no : Lowered} (hc : (t.scalarGroup c.type).isInteger)
      (hyes : t.isPointer yes.type) (hs : t.sameType yes.type no.type) :
      TernaryRule t c yes no ⟨.cond c.node yes.node no.node, yes.type, .value⟩

inductive MemberRule (t : TypeTable) (record : TypeKey) (field : Text) (base : Node) (mode : Mode) :
    Lowered → Prop
  | first {m : Member} (hr : record.kind.isRecord)
      (hm : (t.members record).find? (·.name == field) = some m) (ho : m.offset = 0) :
      MemberRule t record field base mode ⟨base, m.type, mode⟩
  | later {m : Member} (hr : record.kind.isRecord)
      (hm : (t.members record).find? (·.name == field) = some m) (ho : m.offset ≠ 0) :
      MemberRule t record field base mode
        ⟨.binary (.binary .add) .u base (.unsigned m.offset), m.type, mode⟩

/-- How an expression becomes a tree; operands are loaded as soon as they have one. -/
inductive Lowers : TypeTable → Expr → Lowered → TypeTable → Prop
  | int {t : TypeTable} {s : Span} {v : UInt64} {isChar : Bool} :
      Lowers t (.int s v isChar) (lowerInt v isChar) t
  | float {t : TypeTable} {s : Span} {bits : UInt64} {isSingle : Bool} :
      Lowers t (.float s bits isSingle) (lowerFloat bits isSingle) t
  | leaf {t : TypeTable} {s : Span} {name : Text} {code : List UInt8} {type : TypeKey} {mode : Mode}
      (hz : type.isZero = false) (hc : Code.validate code = .ok ()) :
      Lowers t (.leaf s name code type mode) ⟨.splice code, type, mode⟩ t
  | unary {t t₁ t₂ : TypeTable} {s : Span} {op : PrefixOp} {x : Expr} {rx vx r : Lowered}
      (hx : Lowers t x rx t₁) (hvx : t₁.load rx = (some vx, t₂)) (h : UnaryRule t₂ op vx r) :
      Lowers t (.unary s op x) r t₂
  | binary {t t₁ t₂ t₃ t₄ : TypeTable} {s : Span} {op : InfixOp} {x y : Expr}
      {rx vx ry vy r : Lowered} (hx : Lowers t x rx t₁) (hvx : t₁.load rx = (some vx, t₂))
      (hy : Lowers t₂ y ry t₃) (hvy : t₃.load ry = (some vy, t₄)) (h : BinaryRule t₄ op vx vy r) :
      Lowers t (.binary s op x y) r t₄
  | ternary {t t₁ t₂ t₃ t₄ t₅ t₆ : TypeTable} {s : Span} {c yes no : Expr}
      {rc vc ry vy rn vn r : Lowered} (hc : Lowers t c rc t₁) (hvc : t₁.load rc = (some vc, t₂))
      (hyes : Lowers t₂ yes ry t₃) (hvy : t₃.load ry = (some vy, t₄))
      (hno : Lowers t₄ no rn t₅) (hvn : t₅.load rn = (some vn, t₆))
      (h : TernaryRule t₆ vc vy vn r) : Lowers t (.ternary s c yes no) r t₆
  | cast {t t₁ t₂ t₃ : TypeTable} {s : Span} {type : TypeExpr} {k : TypeKey} {x : Expr}
      {rx vx : Lowered} {node : Node} (hk : type.key t = (k, t₁)) (hz : k.isZero = false)
      (hx : Lowers t₁ x rx t₂) (hvx : t₂.load rx = (some vx, t₃))
      (hf : t₃.isPointerFloatCast vx.type k = false) (h : t₃.convert vx k = .ok node) :
      Lowers t (.cast s type x) ⟨node, k, .value⟩ t₃
  | sizeofType {t t₁ : TypeTable} {s : Span} {type : TypeExpr} {k : TypeKey}
      (hk : type.key t = (k, t₁)) (hz : k.isZero = false) :
      Lowers t (.sizeof s (.type type)) ⟨.unsigned (t₁.byteSize k), .basic .u64, .value⟩ t₁
  | sizeof {t t₁ : TypeTable} {s : Span} {x : Expr} {rx : Lowered} (hx : Lowers t x rx t₁)
      (hz : rx.type.isZero = false) :
      Lowers t (.sizeof s x) ⟨.unsigned (t₁.byteSize rx.type), .basic .u64, .value⟩ t₁
  | deref {t t₁ t₂ : TypeTable} {s : Span} {x : Expr} {rx vx : Lowered} (hx : Lowers t x rx t₁)
      (hvx : t₁.load rx = (some vx, t₂)) (hp : t₂.isPointer vx.type) :
      Lowers t (.deref s x) ⟨vx.node, t₂.direct (t₂.unwrap vx.type), .address⟩ t₂
  | addressOf {t t₁ t₂ : TypeTable} {s : Span} {x : Expr} {rx : Lowered} {p : TypeKey}
      (hx : Lowers t x rx t₁) (hm : rx.mode = .address)
      (hp : t₁.pointer (t₁.unwrap rx.type) = (p, t₂)) :
      Lowers t (.addressOf s x) ⟨rx.node, p, .value⟩ t₂
  | indexArray {t t₁ t₂ t₃ : TypeTable} {s : Span} {x i : Expr} {rx ri vi : Lowered}
      (hx : Lowers t x rx t₁) (hi : Lowers t₁ i ri t₂) (hvi : t₂.load ri = (some vi, t₃))
      (hg : (t₃.scalarGroup vi.type).isInteger) (hk : (t₃.unwrap rx.type).kind = .array)
      (hm : rx.mode = .address) :
      Lowers t (.index s x i) ⟨.binary (.binary .add) .u
        (scaled vi.node (t₃.byteSize (t₃.direct (t₃.unwrap rx.type)))) rx.node,
        t₃.direct (t₃.unwrap rx.type), .address⟩ t₃
  | indexPointer {t t₁ t₂ t₃ t₄ : TypeTable} {s : Span} {x i : Expr} {rx ri vi vx : Lowered}
      (hx : Lowers t x rx t₁) (hi : Lowers t₁ i ri t₂) (hvi : t₂.load ri = (some vi, t₃))
      (hg : (t₃.scalarGroup vi.type).isInteger) (hk : t₃.isPointer rx.type)
      (hvx : t₃.load rx = (some vx, t₄)) :
      Lowers t (.index s x i) ⟨.binary (.binary .add) .u
        (scaled vi.node (t₄.byteSize (t₃.direct (t₃.unwrap rx.type)))) vx.node,
        t₃.direct (t₃.unwrap rx.type), .address⟩ t₄
  | arrow {t t₁ t₂ : TypeTable} {s : Span} {x : Expr} {field : Field} {dash : Bool}
      {rx vx r : Lowered} (hx : Lowers t x rx t₁) (hp : t₁.isPointer rx.type)
      (hvx : t₁.load rx = (some vx, t₂))
      (h : MemberRule t₂ (t₁.pointee vx.type) field.name vx.node .address r) :
      Lowers t (.member s x field dash) r t₂
  | member {t t₁ : TypeTable} {s : Span} {x : Expr} {field : Field} {dash : Bool} {rx r : Lowered}
      (hx : Lowers t x rx t₁) (hm : rx.mode ≠ .value)
      (h : MemberRule t₁ (t₁.unwrap rx.type) field.name rx.node rx.mode r) :
      Lowers t (.member s x field dash) r t₁

section
variable {s s' : State} {r : Lowered}

theorem bind_run {α β : Type} {x : M α} {f : α → M β} {b : β} (h : (x >>= f).run s = (b, s')) :
    ∃ a s₁, x.run s = (a, s₁) ∧ (f a).run s₁ = (b, s') :=
  ⟨_, _, rfl, h⟩

theorem refuse_run {offset : Nat} {c : Complaint} : (refuse offset c).run s ≠ (some r, s') := by
  intro h
  cases congrArg Prod.fst h

theorem asValue_run {offset : Nat} {x : Option Lowered}
    (h : (asValue offset x).run s = (some r, s')) :
    ∃ rx, x = some rx ∧ s.types.load rx = (some r, s'.types) := by
  cases x with
  | none => cases congrArg Prod.fst h
  | some rx =>
    obtain ⟨_, _, hg, h⟩ := bind_run h
    cases hg
    refine ⟨rx, rfl, ?_⟩
    split at h
    · rename_i v types hl
      cases h
      exact hl
    · exact absurd h refuse_run

theorem typeKey_run {type : TypeExpr} {k : TypeKey} (h : (typeKey type).run s = (k, s')) :
    type.key s.types = (k, s'.types) := by
  cases h
  rfl

theorem lowerUnary_run {start : Nat} {op : PrefixOp} {x : Lowered}
    (h : (lowerUnary start op x).run s = (some r, s')) : s' = s ∧ UnaryRule s.types op x r := by
  obtain ⟨_, _, hg, hr⟩ := bind_run h
  cases hg
  simp only at hr
  split at hr
  · rename_i hp
    cases hr
    rw [hp.1]
    exact ⟨rfl, .pointerNot hp.2⟩
  · split at hr
    · exact absurd hr refuse_run
    · rename_i hx
      rw [Bool.not_eq_true, Bool.not_eq_false'] at hx
      split at hr
      · exact absurd hr refuse_run
      · rename_i hg
        rw [Bool.not_eq_true, Bool.not_eq_false'] at hg
        split at hr
        · rename_i hop
          cases hr
          subst hop
          exact ⟨rfl, .logNot hx hg⟩
        · rename_i hop
          cases hr
          exact ⟨rfl, .arithmetic hop hx hg⟩

theorem lowerLogical_run {start : Nat} {op : InfixOp} {x y : Lowered}
    (hop : op = .logAnd ∨ op = .logOr)
    (h : (lowerLogical start op x y).run s = (some r, s')) :
    s' = s ∧ BinaryRule s.types op x y r := by
  obtain ⟨_, _, hg, hr⟩ := bind_run h
  cases hg
  simp only at hr
  split at hr
  · exact absurd hr refuse_run
  · rename_i hxy
    rw [not_or] at hxy
    split at hr
    · rename_i ho
      cases hr
      subst ho
      exact ⟨rfl, .conjunction hxy.1 hxy.2⟩
    · rename_i ho
      cases hr
      obtain rfl := hop.resolve_left ho
      exact ⟨rfl, .disjunction hxy.1 hxy.2⟩

theorem lowerPointerCompare_run {start : Nat} {op : InfixOp} {x y : Lowered} (hop : op.isComparison)
    (hp : s.types.isPointer x.type ∨ s.types.isPointer y.type)
    (h : (lowerPointerCompare start op x y).run s = (some r, s')) :
    s' = s ∧ BinaryRule s.types op x y r := by
  obtain ⟨_, _, hg, hr⟩ := bind_run h
  cases hg
  simp only at hr
  split at hr
  · exact absurd hr refuse_run
  · rename_i hc
    simp only [Bool.or_eq_true, Bool.not_eq_true', not_or, Bool.not_eq_false] at hc
    split at hr
    · exact absurd hr refuse_run
    · cases hr
      exact ⟨rfl, .pointerCompare hop hp hc.1 hc.2⟩

theorem lowerPointerOffset_run {start : Nat} {op : BinaryOp} {p i : Lowered}
    (h : (lowerPointerOffset start op p i).run s = (some r, s')) :
    s' = s ∧ (s.types.scalarGroup i.type).isInteger ∧
      s.types.byteSize (s.types.pointee p.type) ≠ 0 ∧
      r = ⟨.binary (.binary op) .u p.node
        (scaled i.node (s.types.byteSize (s.types.pointee p.type))), p.type, .value⟩ := by
  obtain ⟨_, _, hg, hr⟩ := bind_run h
  cases hg
  simp only at hr
  split at hr
  · exact absurd hr refuse_run
  · rename_i hi
    rw [Bool.not_eq_true, Bool.not_eq_false'] at hi
    split at hr
    · exact absurd hr refuse_run
    · rename_i hs
      cases hr
      exact ⟨rfl, hi, hs, rfl⟩

theorem lowerPointerDifference_run {start : Nat} {x y : Lowered} (hx : s.types.isPointer x.type)
    (hy : s.types.isPointer y.type)
    (h : (lowerPointerDifference start x y).run s = (some r, s')) :
    s' = s ∧ BinaryRule s.types .sub x y r := by
  obtain ⟨_, _, hg, hr⟩ := bind_run h
  cases hg
  simp only at hr
  split at hr
  · exact absurd hr refuse_run
  · split at hr
    · exact absurd hr refuse_run
    · rename_i hs
      cases hr
      refine ⟨rfl, .difference hx hy hs ?_⟩
      split
      · exact .inl rfl
      · exact .inr rfl

theorem lowerArithmetic_run {start : Nat} {op : InfixOp} {x y : Lowered} (hand : op ≠ .logAnd)
    (hor : op ≠ .logOr) (h : (lowerArithmetic start op x y).run s = (some r, s')) :
    s' = s ∧ BinaryRule s.types op x y r := by
  obtain ⟨_, _, hg, hr⟩ := bind_run h
  cases hg
  change StateT.run
    (if !s.types.isArithmetic x.type || !s.types.isArithmetic y.type then refuse start .badOperands
      else if !op.opcode.accepts (operandType s.types op x y).group then refuse start .badOperands
      else if op.isShift ∧ !(s.types.scalarGroup y.type).isInteger then refuse start .badOperands
      else if op.isComparison then pure (truth (operation s.types op x y))
      else if mayOverflow op then
        pure (value (s.types.truncateTo (operation s.types op x y) (operandType s.types op x y))
          (operandType s.types op x y))
      else pure (value (operation s.types op x y) (operandType s.types op x y))) s =
    (some r, s') at hr
  split at hr
  · exact absurd hr refuse_run
  · rename_i hxy
    simp only [Bool.or_eq_true, Bool.not_eq_true', not_or, Bool.not_eq_false] at hxy
    split at hr
    · exact absurd hr refuse_run
    · rename_i hg
      rw [Bool.not_eq_true, Bool.not_eq_false'] at hg
      split at hr
      · exact absurd hr refuse_run
      · rename_i hs
        simp only [Bool.not_eq_true', not_and, Bool.not_eq_false] at hs
        split at hr
        · rename_i hc
          cases hr
          exact ⟨rfl, .compare hc hxy.1 hxy.2 hg⟩
        · rename_i hc
          split at hr
          · rename_i ho
            cases hr
            exact ⟨rfl, .wrapping ho hxy.1 hxy.2 hg hs⟩
          · rename_i ho
            cases hr
            refine ⟨rfl, .closed ?_ hxy.1 hxy.2 hg hs⟩
            cases op <;> simp_all [mayOverflow, InfixOp.isComparison, InfixOp.opcode,
              Opcode.isComparison]

theorem lowerBinary_run {start : Nat} {op : InfixOp} {x y : Lowered}
    (h : (lowerBinary start op x y).run s = (some r, s')) :
    s' = s ∧ BinaryRule s.types op x y r := by
  obtain ⟨_, _, hg, hr⟩ := bind_run h
  cases hg
  simp only at hr
  split at hr
  · rename_i ho
    exact lowerLogical_run ho hr
  · rename_i ho
    rw [not_or] at ho
    split at hr
    · rename_i hc
      exact lowerPointerCompare_run hc.1 hc.2 hr
    · split at hr
      · rename_i hc
        obtain ⟨rfl, hp, -⟩ := hc
        obtain ⟨rfl, hi, hs, rfl⟩ := lowerPointerOffset_run hr
        exact ⟨rfl, .pointerAdd hp hi hs⟩
      · split at hr
        · rename_i hc
          obtain ⟨rfl, hp, -⟩ := hc
          obtain ⟨rfl, hi, hs, rfl⟩ := lowerPointerOffset_run hr
          exact ⟨rfl, .addPointer hp hi hs⟩
        · split at hr
          · rename_i hc
            obtain ⟨rfl, hp, -⟩ := hc
            obtain ⟨rfl, hi, hs, rfl⟩ := lowerPointerOffset_run hr
            exact ⟨rfl, .pointerSub hp hi hs⟩
          · split at hr
            · rename_i hc
              obtain ⟨rfl, hp, hq⟩ := hc
              exact lowerPointerDifference_run hp hq hr
            · exact lowerArithmetic_run ho.1 ho.2 hr

theorem lowerTernary_run {start conditionStart : Nat} {c yes no : Lowered}
    (h : (lowerTernary start conditionStart c yes no).run s = (some r, s')) :
    s' = s ∧ TernaryRule s.types c yes no r := by
  obtain ⟨_, _, hg, hr⟩ := bind_run h
  cases hg
  simp only at hr
  split at hr
  · exact absurd hr refuse_run
  · rename_i hc
    rw [Bool.not_eq_true, Bool.not_eq_false'] at hc
    split at hr
    · rename_i ha
      rw [Bool.and_eq_true] at ha
      cases hr
      exact ⟨rfl, .arithmetic hc ha.1 ha.2⟩
    · split at hr
      · rename_i hp
        rw [Bool.and_eq_true] at hp
        cases hr
        exact ⟨rfl, .pointer hc hp.1 hp.2⟩
      · exact absurd hr refuse_run

theorem lowerCast_run {start : Nat} {k : TypeKey} {x : Lowered}
    (h : (lowerCast start k x).run s = (some r, s')) :
    s' = s ∧ s.types.isPointerFloatCast x.type k = false ∧
      ∃ node, s.types.convert x k = .ok node ∧ r = ⟨node, k, .value⟩ := by
  obtain ⟨_, _, hg, hr⟩ := bind_run h
  cases hg
  simp only at hr
  split at hr
  · exact absurd hr refuse_run
  · rename_i hf
    split at hr
    · rename_i node hn
      cases hr
      exact ⟨rfl, by simpa using hf, node, hn, rfl⟩
    · exact absurd hr refuse_run

theorem lowerSize_run {start : Nat} {k : TypeKey} (h : (lowerSize start k).run s = (some r, s')) :
    s' = s ∧ k.isZero = false ∧ r = ⟨.unsigned (s.types.byteSize k), .basic .u64, .value⟩ := by
  rw [lowerSize] at h
  split at h
  · exact absurd h refuse_run
  · rename_i hz
    cases h
    exact ⟨rfl, by simpa using hz, rfl⟩

theorem lowerDeref_run {start : Nat} {x : Lowered} (h : (lowerDeref start x).run s = (some r, s')) :
    s' = s ∧ s.types.isPointer x.type ∧
      r = ⟨x.node, s.types.direct (s.types.unwrap x.type), .address⟩ := by
  obtain ⟨_, _, hg, hr⟩ := bind_run h
  cases hg
  simp only at hr
  split at hr
  · exact absurd hr refuse_run
  · rename_i hp
    rw [Bool.not_eq_true, Bool.not_eq_false'] at hp
    split at hr
    · exact absurd hr refuse_run
    · split at hr
      · exact absurd hr refuse_run
      · cases hr
        exact ⟨rfl, hp, rfl⟩

theorem lowerAddressOf_run {start : Nat} {x : Lowered}
    (h : (lowerAddressOf start x).run s = (some r, s')) :
    x.mode = .address ∧ ∃ p, s.types.pointer (s.types.unwrap x.type) = (p, s'.types) ∧
      r = ⟨x.node, p, .value⟩ := by
  obtain ⟨_, _, hg, hr⟩ := bind_run h
  cases hg
  split at hr
  · exact absurd hr refuse_run
  · rename_i hm
    cases hr
    exact ⟨Decidable.not_not.1 hm, _, rfl, rfl⟩

theorem element_run {start : Nat} {address index : Node} {elem : TypeKey}
    (h : (element start address index elem).run s = (some r, s')) :
    s' = s ∧ r = ⟨.binary (.binary .add) .u (scaled index (s.types.byteSize elem)) address, elem,
      .address⟩ := by
  obtain ⟨_, _, hg, hr⟩ := bind_run h
  cases hg
  simp only at hr
  split at hr
  · exact absurd hr refuse_run
  · cases hr
    exact ⟨rfl, rfl⟩

theorem member_run {start : Nat} {base : Node} {mode : Mode} {record : TypeKey} {field : Field}
    (h : (member start base mode record field).run s = (some r, s')) :
    s' = s ∧ MemberRule s.types record field.name base mode r := by
  obtain ⟨_, _, hg, hr⟩ := bind_run h
  cases hg
  simp only at hr
  split at hr
  · exact absurd hr refuse_run
  · rename_i hk
    rw [Bool.not_eq_true, Bool.not_eq_false'] at hk
    split at hr
    · rename_i m hm
      cases hr
      refine ⟨rfl, ?_⟩
      split
      · rename_i ho
        exact .first hk hm ho
      · rename_i ho
        exact .later hk hm ho
    · exact absurd hr refuse_run

theorem some_run {x : M (Option Lowered)} {k : Lowered → M (Option Lowered)}
    (h : (do
      match ← x with
      | none => return none
      | some v => k v : M (Option Lowered)).run s = (some r, s')) :
    ∃ v s₁, x.run s = (some v, s₁) ∧ (k v).run s₁ = (some r, s') := by
  obtain ⟨v, s₁, hx, hk⟩ := bind_run h
  cases v with
  | none => cases congrArg Prod.fst hk
  | some v => exact ⟨v, s₁, hx, hk⟩

theorem lowerIndex_run {start baseStart indexStart : Nat} {x i : Lowered}
    (h : (lowerIndex start baseStart indexStart x i).run s = (some r, s')) :
    (s.types.scalarGroup i.type).isInteger ∧
      ∃ address, r = ⟨.binary (.binary .add) .u (scaled i.node (s'.types.byteSize
          (s.types.direct (s.types.unwrap x.type)))) address,
          s.types.direct (s.types.unwrap x.type), .address⟩ ∧
        ((s.types.unwrap x.type).kind = .array ∧ x.mode = .address ∧ address = x.node ∧ s' = s ∨
          s.types.isPointer x.type ∧
            ∃ vx, s.types.load x = (some vx, s'.types) ∧ address = vx.node) := by
  obtain ⟨_, _, hg, hr⟩ := bind_run h
  cases hg
  simp only at hr
  split at hr
  · exact absurd hr refuse_run
  · rename_i hi
    rw [Bool.not_eq_true, Bool.not_eq_false'] at hi
    split at hr
    · rename_i hk
      split at hr
      · exact absurd hr refuse_run
      · rename_i hm
        obtain ⟨rfl, rfl⟩ := element_run hr
        exact ⟨hi, x.node, rfl, .inl ⟨hk, Decidable.not_not.1 hm, rfl, rfl⟩⟩
    · split at hr
      · rename_i hk
        obtain ⟨vx, s₁, hvx, hr⟩ := some_run hr
        obtain ⟨_, hx, hl⟩ := asValue_run hvx
        cases hx
        obtain ⟨rfl, rfl⟩ := element_run hr
        exact ⟨hi, vx.node, rfl, .inr ⟨hk, vx, hl, rfl⟩⟩
      · exact absurd hr refuse_run

/-- A member is one of the record that a pointer leads to, or of a record in a place of its own. -/
theorem lowerMember_run {start baseStart : Nat} {x : Lowered} {field : Field}
    (h : (lowerMember start baseStart x field).run s = (some r, s')) :
    (s.types.isPointer x.type ∧ ∃ vx, s.types.load x = (some vx, s'.types) ∧
        MemberRule s'.types (s.types.pointee vx.type) field.name vx.node .address r) ∨
      s' = s ∧ x.mode ≠ .value ∧
        MemberRule s.types (s.types.unwrap x.type) field.name x.node x.mode r := by
  obtain ⟨_, _, hg, hr⟩ := bind_run h
  cases hg
  simp only at hr
  split at hr
  · rename_i hp
    obtain ⟨vx, s₁, hvx, hr⟩ := some_run hr
    obtain ⟨_, hx, hl⟩ := asValue_run hvx
    cases hx
    obtain ⟨rfl, hm⟩ := member_run hr
    exact .inl ⟨hp, vx, hl, hm⟩
  · split at hr
    · exact absurd hr refuse_run
    · rename_i hv
      obtain ⟨rfl, hm⟩ := member_run hr
      exact .inr ⟨rfl, hv, hm⟩

theorem lowers_of_run {e : Expr} (h : (lower e).run s = (some r, s')) :
    Lowers s.types e r s'.types := by
  induction e generalizing s s' r with
  | missing => cases congrArg Prod.fst h
  | int => cases h; exact .int
  | float => cases h; exact .float
  | type t => exact absurd h refuse_run
  | leaf span name code type mode =>
    simp only [lower, lowerLeaf] at h
    split at h
    · exact absurd h refuse_run
    · rename_i hz
      split at h
      · rename_i hc
        cases h
        exact .leaf (by simpa using hz) hc
      · exact absurd h refuse_run
  | unary span op x ih =>
    obtain ⟨rx, s₁, hx, h₁⟩ := bind_run h
    obtain ⟨vx, s₂, hvx, h₂⟩ := some_run h₁
    obtain ⟨rx, rfl, hl⟩ := asValue_run hvx
    obtain ⟨rfl, hr⟩ := lowerUnary_run h₂
    exact .unary (ih hx) hl hr
  | binary span op x y ihx ihy =>
    obtain ⟨ox, s₁, hx, h₁⟩ := bind_run h
    obtain ⟨wx, s₂, hvx, h₂⟩ := bind_run h₁
    obtain ⟨oy, s₃, hy, h₃⟩ := bind_run h₂
    obtain ⟨wy, s₄, hvy, h₄⟩ := bind_run h₃
    split at h₄
    · obtain ⟨rx, rfl, hlx⟩ := asValue_run hvx
      obtain ⟨ry, rfl, hly⟩ := asValue_run hvy
      obtain ⟨rfl, hr⟩ := lowerBinary_run h₄
      exact .binary (ihx hx) hlx (ihy hy) hly hr
    · cases congrArg Prod.fst h₄
  | ternary span c yes no ihc ihyes ihno =>
    obtain ⟨oc, s₁, hc, h₁⟩ := bind_run h
    obtain ⟨wc, s₂, hvc, h₂⟩ := bind_run h₁
    obtain ⟨oy, s₃, hy, h₃⟩ := bind_run h₂
    obtain ⟨wy, s₄, hvy, h₄⟩ := bind_run h₃
    obtain ⟨on, s₅, hn, h₅⟩ := bind_run h₄
    obtain ⟨wn, s₆, hvn, h₆⟩ := bind_run h₅
    split at h₆
    · obtain ⟨rc, rfl, hlc⟩ := asValue_run hvc
      obtain ⟨ry, rfl, hly⟩ := asValue_run hvy
      obtain ⟨rn, rfl, hln⟩ := asValue_run hvn
      obtain ⟨rfl, hr⟩ := lowerTernary_run h₆
      exact .ternary (ihc hc) hlc (ihyes hy) hly (ihno hn) hln hr
    · cases congrArg Prod.fst h₆
  | cast span type x ih =>
    obtain ⟨k, s₁, hk, h₁⟩ := bind_run h
    split at h₁
    · exact absurd h₁ refuse_run
    · rename_i hz
      obtain ⟨rx, s₂, hx, h₂⟩ := bind_run h₁
      obtain ⟨vx, s₃, hvx, h₃⟩ := some_run h₂
      obtain ⟨rx, rfl, hl⟩ := asValue_run hvx
      obtain ⟨rfl, hf, node, hc, rfl⟩ := lowerCast_run h₃
      exact .cast (typeKey_run hk) (by simpa using hz) (ih hx) hl hf hc
  | sizeof span x ih =>
    cases x with
    | type t =>
      obtain ⟨k, s₁, hk, h₁⟩ := bind_run h
      obtain ⟨rfl, hz, rfl⟩ := lowerSize_run h₁
      exact .sizeofType (typeKey_run hk) hz
    | _ =>
      obtain ⟨rx, s₁, hx, h₁⟩ := some_run h
      obtain ⟨rfl, hz, rfl⟩ := lowerSize_run h₁
      exact .sizeof (ih hx) hz
  | deref span x ih =>
    obtain ⟨rx, s₁, hx, h₁⟩ := bind_run h
    obtain ⟨vx, s₂, hvx, h₂⟩ := some_run h₁
    obtain ⟨rx, rfl, hl⟩ := asValue_run hvx
    obtain ⟨rfl, hp, rfl⟩ := lowerDeref_run h₂
    exact .deref (ih hx) hl hp
  | addressOf span x ih =>
    obtain ⟨rx, s₁, hx, h₁⟩ := some_run h
    obtain ⟨hm, p, hp, rfl⟩ := lowerAddressOf_run h₁
    exact .addressOf (ih hx) hm hp
  | index span x i ihx ihi =>
    obtain ⟨ox, s₁, hx, h₁⟩ := bind_run h
    obtain ⟨oi, s₂, hi, h₂⟩ := bind_run h₁
    obtain ⟨wi, s₃, hvi, h₃⟩ := bind_run h₂
    split at h₃
    · obtain ⟨ri, rfl, hli⟩ := asValue_run hvi
      obtain ⟨hg, _, rfl, hb⟩ := lowerIndex_run h₃
      obtain ⟨hk, hm, rfl, rfl⟩ | ⟨hk, vx, hlx, rfl⟩ := hb
      · exact .indexArray (ihx hx) (ihi hi) hli hg hk hm
      · exact .indexPointer (ihx hx) (ihi hi) hli hg hk hlx
    · cases congrArg Prod.fst h₃
  | member span x field arrow ih =>
    obtain ⟨rx, s₁, hx, h₁⟩ := some_run h
    obtain ⟨hp, vx, hlx, hr⟩ | ⟨rfl, hm, hr⟩ := lowerMember_run h₁
    · exact .arrow (ih hx) hp hlx hr
    · exact .member (ih hx) hm hr

end

end Lowering

end WatchExpr
