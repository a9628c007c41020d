import WatchExpr.Lowering.Value
import WatchExpr.Expression.TypeExpr

namespace WatchExpr

namespace Lowering

/-- The types seen so far and what has been complained about. -/
structure State where
  types : TypeTable
  diagnostics : List Diagnostic := []

/-- Computations that record complaints and may add pointer and array types. -/
abbrev M := StateM State

/-- Records a complaint about a position and gives up. -/
def refuse (offset : Nat) (c : Complaint) : M (Option Lowered) := do
  modify fun s => { s with diagnostics := s.diagnostics ++ [⟨offset, c⟩] }
  return none

def value (node : Node) (type : TypeKey) : Option Lowered := some ⟨node, type, .value⟩

def truth (node : Node) : Option Lowered := value node (.basic .bool)

/-- The value of a tree, if its type fits a slot. -/
def asValue (offset : Nat) : Option Lowered → M (Option Lowered)
  | none => return none
  | some r => do
    let s ← get
    match s.types.load r with
    | (some v, types) =>
      set { s with types }
      return some v
    | (none, _) => refuse offset (.cannotRead (s.types.describe r.type))

def typeKey (t : TypeExpr) : M TypeKey := do
  let s ← get
  let (k, types) := t.key s.types
  set { s with types }
  return k

/-- Integer literals are the narrowest of 32 and 64 bits signed and 64 bits unsigned. -/
def lowerInt (v : UInt64) (isChar : Bool) : Lowered :=
  if isChar then ⟨.const v true, .basic .char8, .value⟩
  else if v ≤ 0x7fffffff then ⟨.const v true, .basic .s32, .value⟩
  else if v ≤ 0x7fffffffffffffff then ⟨.const v true, .basic .s64, .value⟩
  else ⟨.const v false, .basic .u64, .value⟩

def lowerFloat (bits : UInt64) (isSingle : Bool) : Lowered :=
  if isSingle then ⟨.unsigned (Slot.narrow bits), .basic .f32, .value⟩
  else ⟨.unsigned bits, .basic .f64, .value⟩

def lowerLeaf (start : Nat) (name : Text) (code : List UInt8) (type : TypeKey) (mode : Mode) :
    M (Option Lowered) :=
  if type.isZero then refuse start (.missingType name)
  else
    match Code.validate code with
    | .ok () => return some ⟨.splice code, type, mode⟩
    | .error e => refuse start (.malformedLocation name e)

def lowerUnary (start : Nat) (op : PrefixOp) (x : Lowered) : M (Option Lowered) := do
  let t := (← get).types
  if op = .logNot ∧ t.isPointer x.type then
    return truth (.binary (.compare .eq) .u x.node (.unsigned 0))
  if !t.isArithmetic x.type then refuse start .badOperand
  else
    let promoted := (t.unwrapEnum x.type).promote
    let g := promoted.group
    let code := Opcode.unary op.operation
    if !code.accepts g then refuse start .badOperand
    else
      let node := Node.unary code g (t.converted x promoted)
      if op = .logNot then return truth node
      else return value (t.truncateTo node promoted) promoted

/-- Conjunction and disjunction run their right operand only when it decides. -/
def lowerLogical (start : Nat) (op : InfixOp) (x y : Lowered) : M (Option Lowered) := do
  let t := (← get).types
  let gx := t.scalarGroup x.type
  let gy := t.scalarGroup y.type
  if gx = .other ∨ gy = .other then refuse start .badOperands
  else
    let test := if gx.isFloat then TypeTable.differsFromZero gx x.node else x.node
    let right := TypeTable.differsFromZero gy y.node
    if op = .logAnd then return truth (.cond test right (.unsigned 0))
    else return truth (.cond test (.unsigned 1) right)

/-- Pointers compare with integers, with pointers to the same type and with pointers to void. -/
def lowerPointerCompare (start : Nat) (op : InfixOp) (x y : Lowered) : M (Option Lowered) := do
  let t := (← get).types
  let comparable (r : Lowered) : Bool := t.isPointer r.type || (t.scalarGroup r.type).isInteger
  let px := t.pointee x.type
  let py := t.pointee y.type
  if !comparable x || !comparable y then refuse start .badOperands
  else if t.isPointer x.type && t.isPointer y.type && !t.sameType px py
      && px.kind != .basic .void && py.kind != .basic .void then refuse start .badOperands
  else return truth (.binary op.opcode .u x.node y.node)

/-- A number of elements as a number of bytes. -/
def scaled (index : Node) (size : UInt64) : Node :=
  if size = 1 then index else .binary (.binary .mul) .u index (.unsigned size)

def lowerPointerOffset (start : Nat) (op : BinaryOp) (p index : Lowered) :
    M (Option Lowered) := do
  let t := (← get).types
  let size := t.byteSize (t.pointee p.type)
  if !(t.scalarGroup index.type).isInteger then refuse start .badOperands
  else if size = 0 then refuse start .zeroSizedArithmetic
  else return value (.binary (.binary op) .u p.node (scaled index.node size)) p.type

def lowerPointerDifference (start : Nat) (x y : Lowered) : M (Option Lowered) := do
  let t := (← get).types
  let size := t.byteSize (t.pointee x.type)
  if size ≠ t.byteSize (t.pointee y.type) then refuse start .badOperands
  else if size = 0 then refuse start .zeroSizedArithmetic
  else
    let bytes := Node.binary (.binary .sub) .u x.node y.node
    let node := if size = 1 then bytes else .binary (.binary .div) .u bytes (.unsigned size)
    return value node (.basic .u64)

/-- Operators whose result may leave the range of its type. -/
def mayOverflow : InfixOp → Bool
  | .add | .sub | .mul | .div | .shl => true
  | _ => false

/-- Arithmetic works in the common type of its operands; a shift works in the promoted type of its
left one. -/
def lowerArithmetic (start : Nat) (op : InfixOp) (x y : Lowered) : M (Option Lowered) := do
  let t := (← get).types
  if !t.isArithmetic x.type || !t.isArithmetic y.type then refuse start .badOperands
  else
    let common :=
      if op.isShift then (t.unwrapEnum x.type).promote else t.coerce x.type y.type
    let g := common.group
    if !op.opcode.accepts g then refuse start .badOperands
    else if op.isShift ∧ !(t.scalarGroup y.type).isInteger then refuse start .badOperands
    else
      let right := if op.isShift then y.node else t.converted y common
      let node := Node.binary op.opcode g (t.converted x common) right
      if op.isComparison then return truth node
      else if mayOverflow op then return value (t.truncateTo node common) common
      else return value node common

def lowerBinary (start : Nat) (op : InfixOp) (x y : Lowered) : M (Option Lowered) := do
  let t := (← get).types
  let px := t.isPointer x.type
  let py := t.isPointer y.type
  if op = .logAnd ∨ op = .logOr then lowerLogical start op x y
  else if op.isComparison ∧ (px ∨ py) then lowerPointerCompare start op x y
  else if op = .add ∧ px ∧ !py then lowerPointerOffset start .add x y
  else if op = .add ∧ py ∧ !px then lowerPointerOffset start .add y x
  else if op = .sub ∧ px ∧ !py then lowerPointerOffset start .sub x y
  else if op = .sub ∧ px ∧ py then lowerPointerDifference start x y
  else lowerArithmetic start op x y

def lowerTernary (start conditionStart : Nat) (c yes no : Lowered) : M (Option Lowered) := do
  let t := (← get).types
  if !(t.scalarGroup c.type).isInteger then refuse conditionStart .badCondition
  else if t.isArithmetic yes.type && t.isArithmetic no.type then
    let common := t.coerce yes.type no.type
    return value (.cond c.node (t.converted yes common) (t.converted no common)) common
  else if t.isPointer yes.type && t.sameType yes.type no.type then
    return value (.cond c.node yes.node no.node) yes.type
  else refuse start .branchMismatch

def lowerCast (start : Nat) (result : TypeKey) (x : Lowered) : M (Option Lowered) := do
  let t := (← get).types
  if t.isPointerFloatCast x.type result then refuse start .pointerFloatCast
  else
    match t.convert x result with
    | .ok node => return value node result
    | .error rule => refuse start (.conversion rule)

def lowerDeref (start : Nat) (x : Lowered) : M (Option Lowered) := do
  let t := (← get).types
  if !t.isPointer x.type then refuse start .notDereferenceable
  else
    let pointee := t.direct (t.unwrap x.type)
    let kind := (t.unwrap pointee).kind
    if kind = .basic .void ∨ kind.isIncomplete then refuse start .dereferenceIncomplete
    else if t.byteSize pointee = 0 then refuse start .dereferenceZeroSized
    else return some ⟨x.node, pointee, .address⟩

def lowerAddressOf (start : Nat) (x : Lowered) : M (Option Lowered) := do
  let s ← get
  if x.mode ≠ .address then refuse start .noAddress
  else
    let (p, types) := s.types.pointer (s.types.unwrap x.type)
    set { s with types }
    return value x.node p

def element (start : Nat) (address index : Node) (elem : TypeKey) : M (Option Lowered) := do
  let size := (← get).types.byteSize elem
  if size = 0 then refuse start .indexZeroSized
  else
    return some ⟨.binary (.binary .add) .u (scaled index size) address, elem, .address⟩

def lowerIndex (start baseStart indexStart : Nat) (base index : Lowered) :
    M (Option Lowered) := do
  let t := (← get).types
  let k := t.unwrap base.type
  if !(t.scalarGroup index.type).isInteger then refuse indexStart .badIndex
  else if k.kind = .array then
    if base.mode ≠ .address then refuse start .arrayWithoutBase
    else element start base.node index.node (t.direct k)
  else if k.kind.isPointerLike then
    match ← asValue baseStart (some base) with
    | none => return none
    | some p => element start p.node index.node (t.direct k)
  else refuse start .notIndexable

/-- A member of a record at an address or in the register block. -/
def member (start : Nat) (base : Node) (mode : Mode) (record : TypeKey) (field : Field) :
    M (Option Lowered) := do
  let t := (← get).types
  if !record.kind.isRecord then refuse start .noMembers
  else
    match (t.members record).find? (·.name == field.name) with
    | some m =>
      let node :=
        if m.offset = 0 then base else .binary (.binary .add) .u base (.unsigned m.offset)
      return some ⟨node, m.type, mode⟩
    | none => refuse field.span.start (.unknownMember field.name)

def lowerMember (start baseStart : Nat) (base : Lowered) (field : Field) :
    M (Option Lowered) := do
  let t := (← get).types
  if t.isPointer base.type then
    match ← asValue baseStart (some base) with
    | none => return none
    | some p => member start p.node .address (t.pointee p.type) field
  else if base.mode = .value then refuse start .noMembers
  else member start base.node base.mode (t.unwrap base.type) field

def lowerSize (start : Nat) (k : TypeKey) : M (Option Lowered) := do
  if k.isZero then refuse start .sizeOfNothing
  else return value (.unsigned ((← get).types.byteSize k)) (.basic .u64)

/-- Checks an expression and gives its tree. -/
def lower : Expr → M (Option Lowered)
  | .missing => return none
  | .int _ v isChar => return some (lowerInt v isChar)
  | .float _ bits isSingle => return some (lowerFloat bits isSingle)
  | .leaf s name code type mode => lowerLeaf s.start name code type mode
  | .type t => refuse t.span.start .typeNotExpected
  | .unary s op x => do
    match ← asValue x.start (← lower x) with
    | none => return none
    | some v => lowerUnary s.start op v
  | .binary s op x y => do
    let vx ← asValue x.start (← lower x)
    let vy ← asValue y.start (← lower y)
    match vx, vy with
    | some a, some b => lowerBinary s.start op a b
    | _, _ => return none
  | .ternary s c yes no => do
    let vc ← asValue c.start (← lower c)
    let vyes ← asValue yes.start (← lower yes)
    let vno ← asValue no.start (← lower no)
    match vc, vyes, vno with
    | some a, some b, some d => lowerTernary s.start c.start a b d
    | _, _, _ => return none
  | .cast s t x => do
    let result ← typeKey t
    if result.isZero then refuse s.start .unknownCastType
    else
      match ← asValue x.start (← lower x) with
      | none => return none
      | some v => lowerCast s.start result v
  | .sizeof s (.type t) => do lowerSize s.start (← typeKey t)
  | .sizeof s x => do
    match ← lower x with
    | none => return none
    | some r => lowerSize s.start r.type
  | .deref s x => do
    match ← asValue x.start (← lower x) with
    | none => return none
    | some v => lowerDeref s.start v
  | .addressOf s x => do
    match ← lower x with
    | none => return none
    | some r => lowerAddressOf s.start r
  | .index s x i => do
    let base ← lower x
    let index ← asValue i.start (← lower i)
    match base, index with
    | some b, some v => lowerIndex s.start x.start i.start b v
    | _, _ => return none
  | .member s x field _ => do
    match ← lower x with
    | none => return none
    | some base => lowerMember s.start x.start base field

end Lowering

end WatchExpr
