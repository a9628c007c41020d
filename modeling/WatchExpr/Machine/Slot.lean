import WatchExpr.Machine.Opcode
import WatchExpr.Machine.Status

namespace WatchExpr

/-- One stack cell. -/
abbrev Slot := UInt64

namespace Slot

/-- The cell read as a two's complement integer. -/
def signed (v : Slot) : Int64 := v.toInt64

def ofSigned (v : Int64) : Slot := v.toUInt64

/-- The low half read as a single-precision number. -/
def single (v : Slot) : Float32 := Float32.ofBits v.toUInt32

def ofSingle (v : Float32) : Slot := v.toBits.toUInt64

def double (v : Slot) : Float := Float.ofBits v

def ofDouble (v : Float) : Slot := v.toBits

def ofBool (b : Bool) : Slot := if b then 1 else 0

def isTrue (v : Slot) : Bool := v != 0

/-- Whether the low half is the pattern of a single-precision NaN. -/
def isSingleNaN (v : Slot) : Bool := v &&& 0x7fffffff > 0x7f800000

def isDoubleNaN (v : Slot) : Bool := v &&& 0x7fffffffffffffff > 0x7ff0000000000000

/-- Whether the cell is zero in a group; a negative floating zero is zero. -/
def isZero (g : Group) (v : Slot) : Bool :=
  match g with
  | .f32 => v &&& 0x7fffffff == 0
  | .f64 => v &&& 0x7fffffffffffffff == 0
  | _ => v == 0

def truncate (bits : Nat) (v : Slot) : Slot :=
  if bits ≥ 64 then v else v &&& ((1 <<< bits.toUInt64) - 1)

/-- Repeats the sign bit of the low bits. -/
def signExtend (bits : Nat) (v : Slot) : Slot :=
  if bits ≥ 64 then v
  else if bits = 0 then 0
  else
    let shift := (64 - bits).toUInt64
    ofSigned (signed (v <<< shift) >>> shift.toInt64)

/-- A left shift that empties the cell when the count reaches its width. -/
def shiftLeft (x y : Slot) : Slot := if y < 64 then x <<< y else 0

def shiftRight (x y : Slot) : Slot := if y < 64 then x >>> y else 0

/-- An arithmetic right shift; counts beyond the width leave only the sign. -/
def shiftRightSigned (x y : Slot) : Slot :=
  let count := if y < 64 then y else 63
  ofSigned (signed x >>> count.toInt64)

/-- Widens a single-precision number; a NaN keeps its sign and payload and becomes quiet. -/
def widen (v : Slot) : Slot :=
  if isSingleNaN v then
    let sign : Slot := (v &&& 0x80000000) <<< 32
    let payload : Slot := (v &&& 0x003fffff) <<< 29
    sign ||| payload ||| 0x7ff8000000000000
  else ofDouble (single v).toFloat

/-- Narrows a double-precision number; a NaN keeps its sign and leading payload. -/
def narrow (v : Slot) : Slot :=
  if isDoubleNaN v then
    let sign : Slot := (v >>> 32) &&& 0x80000000
    let payload : Slot := (v >>> 29) &&& 0x003fffff
    sign ||| payload ||| 0x7fc00000
  else ofSingle (double v).toFloat32

/-- Converts between groups; the remaining pairs share a representation. Platforms differ on
floating-point numbers out of the range of an integer group; that the nearest bound is taken here is
not relied on. -/
def convert (source result : Group) (v : Slot) : Slot :=
  match source, result with
  | .u, .f32 => ofSingle v.toFloat32
  | .u, .f64 => ofDouble v.toFloat
  | .s, .f32 => ofSingle (signed v).toFloat32
  | .s, .f64 => ofDouble (signed v).toFloat
  | .f32, .u => (single v).toUInt64
  | .f32, .s => ofSigned (single v).toInt64
  | .f32, .f64 => widen v
  | .f64, .u => (double v).toUInt64
  | .f64, .s => ofSigned (double v).toInt64
  | .f64, .f32 => narrow v
  | _, _ => v

end Slot

/-- The absolute value of a single-precision number; a NaN becomes quiet. -/
def UnaryOp.absSingle (v : Slot) : Slot :=
  let magnitude := v &&& 0x7fffffff
  if Slot.isSingleNaN v then magnitude ||| 0x00400000 else magnitude

def UnaryOp.apply (op : UnaryOp) (g : Group) (v : Slot) : Slot :=
  match op, g with
  | .abs, .s => if Slot.signed v < 0 then 0 - v else v
  | .abs, .f32 => absSingle v
  | .abs, .f64 => v &&& 0x7fffffffffffffff
  | .abs, _ => v
  | .neg, .f32 => (v ^^^ 0x80000000) &&& 0xffffffff
  | .neg, .f64 => v ^^^ 0x8000000000000000
  | .neg, _ => 0 - v
  | .bitNot, _ => ~~~v
  | .logNot, _ => Slot.ofBool (!Slot.isTrue v)

namespace BinaryOp

def onIntegers (op : BinaryOp) (signed : Bool) (x y : Slot) : Except Fault Slot :=
  match op with
  | .add => .ok (x + y)
  | .sub => .ok (x - y)
  | .mul => .ok (x * y)
  | .div =>
    if y = 0 then .error .divideByZero
    else if signed then .ok (Slot.ofSigned (Slot.signed x / Slot.signed y))
    else .ok (x / y)
  | .mod =>
    if y = 0 then .error .divideByZero
    else if signed then .ok (Slot.ofSigned (Slot.signed x % Slot.signed y))
    else .ok (x % y)
  | .shl => .ok (Slot.shiftLeft x y)
  | .shr => .ok (if signed then Slot.shiftRightSigned x y else Slot.shiftRight x y)
  | .bitAnd => .ok (x &&& y)
  | .bitOr => .ok (x ||| y)
  | .bitXor => .ok (x ^^^ y)
  | .logAnd => .ok (Slot.ofBool (Slot.isTrue x && Slot.isTrue y))
  | .logOr => .ok (Slot.ofBool (Slot.isTrue x || Slot.isTrue y))

def onSingles (op : BinaryOp) (x y : Slot) : Except Fault Slot :=
  match op with
  | .add => .ok (Slot.ofSingle (Slot.single x + Slot.single y))
  | .sub => .ok (Slot.ofSingle (Slot.single x - Slot.single y))
  | .mul => .ok (Slot.ofSingle (Slot.single x * Slot.single y))
  | .div => .ok (Slot.ofSingle (Slot.single x / Slot.single y))
  | _ => .error .badOpTypes

def onDoubles (op : BinaryOp) (x y : Slot) : Except Fault Slot :=
  match op with
  | .add => .ok (Slot.ofDouble (Slot.double x + Slot.double y))
  | .sub => .ok (Slot.ofDouble (Slot.double x - Slot.double y))
  | .mul => .ok (Slot.ofDouble (Slot.double x * Slot.double y))
  | .div => .ok (Slot.ofDouble (Slot.double x / Slot.double y))
  | _ => .error .badOpTypes

def apply (op : BinaryOp) (g : Group) (x y : Slot) : Except Fault Slot :=
  match g with
  | .f32 => op.onSingles x y
  | .f64 => op.onDoubles x y
  | .s => op.onIntegers true x y
  | _ => op.onIntegers false x y

end BinaryOp

namespace Comparison

/-- The relation read off the order of two values. -/
def holds (op : Comparison) : Ordering → Bool
  | .lt => (op matches .ne | .le | .lt)
  | .eq => (op matches .eq | .le | .ge)
  | .gt => (op matches .ne | .ge | .gt)

def order? (g : Group) (x y : Slot) : Option Ordering :=
  match g with
  | .f32 =>
    if Slot.isSingleNaN x || Slot.isSingleNaN y then none
    else if Slot.single x < Slot.single y then some .lt
    else if Slot.single y < Slot.single x then some .gt
    else some .eq
  | .f64 =>
    if Slot.isDoubleNaN x || Slot.isDoubleNaN y then none
    else if Slot.double x < Slot.double y then some .lt
    else if Slot.double y < Slot.double x then some .gt
    else some .eq
  | .s => some (compare (Slot.signed x) (Slot.signed y))
  | _ => some (compare x y)

/-- A NaN differs from everything and is in no order with it. -/
def apply (op : Comparison) (g : Group) (x y : Slot) : Bool :=
  match order? g x y with
  | some o => op.holds o
  | none => op matches .ne

end Comparison

end WatchExpr
