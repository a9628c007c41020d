import WatchExpr.Types.Declarator
import WatchExpr.Expression.Diagnostic

namespace WatchExpr

/-- A tree with its type and the way its result is to be understood. -/
structure Lowered where
  node : Node
  type : TypeKey
  mode : Mode
  deriving Repr, DecidableEq

namespace TypeTable

/-- The group of a type, an enumeration counting as its underlying integer. -/
def scalarGroup (t : TypeTable) (k : TypeKey) : Group := (t.unwrapEnum k).kind.group

def isPointer (t : TypeTable) (k : TypeKey) : Bool := (t.unwrap k).kind.isPointerLike

def isArithmetic (t : TypeTable) (k : TypeKey) : Bool :=
  (t.unwrapEnum k).kind.isBasic && t.scalarGroup k != .other

/-- Types whose values are addresses. -/
def isAddressLike (t : TypeTable) (k : TypeKey) : Bool :=
  match (t.unwrap k).kind with
  | .pointer | .lref | .rref | .function | .method | .memberPointer => true
  | _ => false

/-- A cast between an address and a floating-point number. -/
def isPointerFloatCast (t : TypeTable) (source result : TypeKey) : Bool :=
  (t.isAddressLike source && (t.scalarGroup result).isFloat)
    || ((t.scalarGroup source).isFloat && t.isAddressLike result)

/-- Narrows a value to the width of an integer type that is narrower than a slot. -/
def truncateTo (t : TypeTable) (n : Node) (k : TypeKey) : Node :=
  let s := t.unwrapEnum k
  let size := t.byteSize s
  if !s.kind.isInteger || size = 0 || 8 ≤ size then n
  else .trunc (size * 8).toUInt8 s.kind.isSigned n

/-- Turns an address or a register place into a value; absent when the type does not fit a slot.
An array becomes a pointer to its first element. -/
def load (t : TypeTable) (r : Lowered) : Option Lowered × TypeTable :=
  let k := t.unwrap r.type
  let size := t.byteSize k
  match r.mode with
  | .value => (some r, t)
  | .address =>
    if k.kind = .array then
      let (p, t') := t.pointer (t.direct k)
      (some ⟨r.node, p, .value⟩, t')
    else if size = 0 ∨ 8 < size then (none, t)
    else
      let read := Node.read size.toUInt8 r.node
      let node :=
        if (t.unwrapEnum k).kind.isSigned ∧ size < 8 then .trunc (size * 8).toUInt8 true read
        else read
      (some ⟨node, r.type, .value⟩, t)
  | .register =>
    if size = 0 ∨ 8 < size then (none, t)
    else (some ⟨t.truncateTo (.register r.node) k, r.type, .value⟩, t)

def differsFromZero (g : Group) (n : Node) : Node :=
  .binary (.compare .ne) g n (.unsigned 0)

/-- Converts a value to a type. A boolean asks whether the value differs from zero; a widening
between integers of one signedness needs no code. -/
def convert (t : TypeTable) (r : Lowered) (result : TypeKey) : Except ConversionRule Node :=
  let source := t.scalarGroup r.type
  let target := t.scalarGroup result
  let rule := source.conversion target
  if !rule.allowed then .error rule
  else
    let node := if rule = .convert then .convert source target r.node else r.node
    let wanted := t.unwrapEnum result
    let given := t.unwrapEnum r.type
    if wanted.kind = .basic .bool ∧ given.kind ≠ .basic .bool then
      .ok (differsFromZero source r.node)
    else if !wanted.kind.isInteger then .ok node
    else if given.kind.isInteger ∧ given.kind.isSigned = wanted.kind.isSigned
        ∧ t.byteSize given ≤ t.byteSize wanted then .ok node
    else .ok (t.truncateTo node wanted)

/-- The conversion where the types are known to allow one. -/
def converted (t : TypeTable) (r : Lowered) (result : TypeKey) : Node :=
  match t.convert r result with
  | .ok n => n
  | .error _ => .missing

end TypeTable

end WatchExpr
