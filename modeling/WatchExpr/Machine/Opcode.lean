import WatchExpr.Text.Basic

namespace WatchExpr

/-- The class of operands an arithmetic instruction works on. -/
inductive Group where
  /-- Aggregates and everything that fits no slot. -/
  | other
  /-- Unsigned integers, pointers and references. -/
  | u
  /-- Signed integers, characters and booleans. -/
  | s
  | f32
  | f64
  /-- An immediate that names no group. -/
  | invalid (byte : UInt8)
  deriving Repr, DecidableEq, Inhabited

namespace Group

def ofByte (b : UInt8) : Group :=
  match b.toNat with
  | 0 => other
  | 1 => u
  | 2 => s
  | 3 => f32
  | 4 => f64
  | _ => invalid b

def toByte : Group → UInt8
  | other => 0
  | u => 1
  | s => 2
  | f32 => 3
  | f64 => 4
  | invalid b => b

def name : Group → Text
  | other => "other"
  | u => "u"
  | s => "s"
  | f32 => "f32"
  | f64 => "f64"
  | invalid _ => "invalid"

def isValid : Group → Bool
  | invalid _ => false
  | _ => true

def isInteger : Group → Bool
  | u | s => true
  | _ => false

def isFloat : Group → Bool
  | f32 | f64 => true
  | _ => false

/-- Groups whose values fit a slot. -/
def isScalar (g : Group) : Bool := g.isInteger || g.isFloat

end Group

/-- How a value of one group becomes a value of another. -/
inductive ConversionRule where
  /-- Both groups share a representation. -/
  | same
  /-- A conversion instruction is needed. -/
  | convert
  | otherToOther
  | toOther
  | fromOther
  deriving Repr, DecidableEq

namespace ConversionRule

def allowed : ConversionRule → Bool
  | same | convert => true
  | _ => false

/-- The complaint about a conversion that is not allowed. -/
def message : ConversionRule → Text
  | otherToOther => "Cannot convert between these types."
  | toOther => "Cannot convert to this type."
  | fromOther => "Cannot convert this type."
  | _ => ""

def number : ConversionRule → Nat
  | same => 0
  | convert => 1
  | otherToOther => 2
  | toOther => 3
  | fromOther => 4

end ConversionRule

/-- The rule for converting a value of group `source` to group `result`. -/
def Group.conversion (source result : Group) : ConversionRule :=
  if source = other ∧ result = other then .otherToOther
  else if result = other then .toOther
  else if source = other then .fromOther
  else if source = result ∨ (source.isInteger ∧ result.isInteger) then .same
  else .convert

inductive UnaryOp where
  | abs
  | neg
  | bitNot
  | logNot
  deriving Repr, DecidableEq

inductive BinaryOp where
  | add
  | sub
  | mul
  | div
  | mod
  | shl
  | shr
  | bitAnd
  | bitOr
  | bitXor
  | logAnd
  | logOr
  deriving Repr, DecidableEq

inductive Comparison where
  | eq
  | ne
  | le
  | ge
  | lt
  | gt
  deriving Repr, DecidableEq

inductive Base where
  | frame
  | image
  | thread
  deriving Repr, DecidableEq

inductive Width where
  | w8
  | w16
  | w32
  | w64
  deriving Repr, DecidableEq

def Width.bytes : Width → Nat
  | .w8 => 1
  | .w16 => 2
  | .w32 => 4
  | .w64 => 8

def Width.bits (w : Width) : Nat := 8 * w.bytes

/-- The instructions of the stack machine. -/
inductive Opcode where
  | stop
  | noop
  /-- Pops a slot and skips forward when it is not zero. -/
  | cond
  /-- Skips forward. -/
  | skip
  /-- Replaces an address by the memory there. -/
  | memRead
  /-- Pushes bytes of a register. -/
  | regRead
  /-- Replaces an offset by a pointer-sized read of the register block. -/
  | regReadDyn
  /-- Pushes a base address plus an offset. -/
  | base (b : Base)
  | const (w : Width)
  | unary (op : UnaryOp)
  | binary (op : BinaryOp)
  | compare (op : Comparison)
  /-- Zero-extends from a number of bits. -/
  | trunc
  /-- Sign-extends from a number of bits. -/
  | truncSigned
  | convert
  /-- Pushes a copy of the slot at a depth. -/
  | pick
  | pop
  /-- Moves the top slot down to a depth. -/
  | insert
  /-- A byte that is no instruction. -/
  | undefined (byte : UInt8)
  deriving Repr, DecidableEq

namespace Opcode

def ofByte (b : UInt8) : Opcode :=
  match b.toNat with
  | 0x00 => stop
  | 0x01 => noop
  | 0x02 => cond
  | 0x03 => skip
  | 0x04 => memRead
  | 0x05 => regRead
  | 0x06 => regReadDyn
  | 0x07 => base .frame
  | 0x08 => base .image
  | 0x09 => base .thread
  | 0x0a => const .w8
  | 0x0b => const .w16
  | 0x0c => const .w32
  | 0x0d => const .w64
  | 0x0e => unary .abs
  | 0x0f => unary .neg
  | 0x10 => unary .bitNot
  | 0x11 => unary .logNot
  | 0x12 => binary .add
  | 0x13 => binary .sub
  | 0x14 => binary .mul
  | 0x15 => binary .div
  | 0x16 => binary .mod
  | 0x17 => binary .shl
  | 0x18 => binary .shr
  | 0x19 => binary .bitAnd
  | 0x1a => binary .bitOr
  | 0x1b => binary .bitXor
  | 0x1c => binary .logAnd
  | 0x1d => binary .logOr
  | 0x1e => compare .eq
  | 0x1f => compare .ne
  | 0x20 => compare .le
  | 0x21 => compare .ge
  | 0x22 => compare .lt
  | 0x23 => compare .gt
  | 0x24 => trunc
  | 0x25 => truncSigned
  | 0x26 => convert
  | 0x27 => pick
  | 0x28 => pop
  | 0x29 => insert
  | _ => undefined b

def toByte : Opcode → UInt8
  | stop => 0x00
  | noop => 0x01
  | cond => 0x02
  | skip => 0x03
  | memRead => 0x04
  | regRead => 0x05
  | regReadDyn => 0x06
  | base .frame => 0x07
  | base .image => 0x08
  | base .thread => 0x09
  | const .w8 => 0x0a
  | const .w16 => 0x0b
  | const .w32 => 0x0c
  | const .w64 => 0x0d
  | unary .abs => 0x0e
  | unary .neg => 0x0f
  | unary .bitNot => 0x10
  | unary .logNot => 0x11
  | binary .add => 0x12
  | binary .sub => 0x13
  | binary .mul => 0x14
  | binary .div => 0x15
  | binary .mod => 0x16
  | binary .shl => 0x17
  | binary .shr => 0x18
  | binary .bitAnd => 0x19
  | binary .bitOr => 0x1a
  | binary .bitXor => 0x1b
  | binary .logAnd => 0x1c
  | binary .logOr => 0x1d
  | compare .eq => 0x1e
  | compare .ne => 0x1f
  | compare .le => 0x20
  | compare .ge => 0x21
  | compare .lt => 0x22
  | compare .gt => 0x23
  | trunc => 0x24
  | truncSigned => 0x25
  | convert => 0x26
  | pick => 0x27
  | pop => 0x28
  | insert => 0x29
  | undefined b => b

def name : Opcode → Text
  | stop => "STOP"
  | noop => "NOOP"
  | cond => "COND"
  | skip => "SKIP"
  | memRead => "MEM_READ"
  | regRead => "REG_READ"
  | regReadDyn => "REG_READ_DYN"
  | base .frame => "FRAME_OFF"
  | base .image => "MODULE_OFF"
  | base .thread => "TLS_OFF"
  | const .w8 => "CONST_U8"
  | const .w16 => "CONST_U16"
  | const .w32 => "CONST_U32"
  | const .w64 => "CONST_U64"
  | unary .abs => "ABS"
  | unary .neg => "NEG"
  | unary .bitNot => "BIT_NOT"
  | unary .logNot => "LOG_NOT"
  | binary .add => "ADD"
  | binary .sub => "SUB"
  | binary .mul => "MUL"
  | binary .div => "DIV"
  | binary .mod => "MOD"
  | binary .shl => "LSHIFT"
  | binary .shr => "RSHIFT"
  | binary .bitAnd => "BIT_AND"
  | binary .bitOr => "BIT_OR"
  | binary .bitXor => "BIT_XOR"
  | binary .logAnd => "LOG_AND"
  | binary .logOr => "LOG_OR"
  | compare .eq => "EQ"
  | compare .ne => "NE"
  | compare .le => "LE"
  | compare .ge => "GE"
  | compare .lt => "LT"
  | compare .gt => "GT"
  | trunc => "TRUNC"
  | truncSigned => "TRUNC_SIGNED"
  | convert => "CONVERT"
  | pick => "PICK"
  | pop => "POP"
  | insert => "INSERT"
  | undefined b => "UNKNOWN(0x" ++ Text.upperHex 2 b.toNat ++ ")"

/-- How many slots it takes off the stack. -/
def pops : Opcode → Nat
  | cond | memRead | regReadDyn | unary _ | trunc | truncSigned | convert | pop => 1
  | binary _ | compare _ => 2
  | stop | noop | skip | regRead | base _ | const _ | pick | insert | undefined _ => 0

/-- How many slots it puts on the stack. -/
def pushes : Opcode → Nat
  | memRead | regRead | regReadDyn | base _ | const _ | unary _ | binary _ | compare _ | trunc
  | truncSigned | convert | pick => 1
  | stop | noop | cond | skip | pop | insert | undefined _ => 0

def operandLength : Opcode → Nat
  | cond | skip | convert => 2
  | regRead | base _ => 4
  | const w => w.bytes
  | memRead | unary _ | binary _ | compare _ | trunc | truncSigned | pick | insert => 1
  | stop | noop | regReadDyn | pop | undefined _ => 0

def length (op : Opcode) : Nat := 1 + op.operandLength

def isValid : Opcode → Bool
  | undefined _ => false
  | _ => true

/-- Whether it moves to another place in the code. -/
def isJump : Opcode → Bool
  | cond | skip => true
  | _ => false

def isConst : Opcode → Bool
  | const _ => true
  | _ => false

def isComparison : Opcode → Bool
  | compare _ => true
  | _ => false

def hasGroup : Opcode → Bool
  | unary _ | binary _ | compare _ => true
  | _ => false

/-- Whether it may be applied to operands of a group; opcodes without a group take all. -/
def accepts (op : Opcode) (g : Group) : Bool :=
  match op with
  | unary .abs | unary .neg | binary .add | binary .sub | binary .mul | binary .div | compare _ =>
    g.isScalar
  | unary .bitNot | unary .logNot | binary .mod | binary .shl | binary .shr | binary .bitAnd
  | binary .bitOr | binary .bitXor | binary .logAnd | binary .logOr => g.isInteger
  | _ => true

def all : List Opcode :=
  ((List.range 256).map fun n => ofByte n.toUInt8).filter isValid

@[simp] theorem ofByte_toByte {op : Opcode} (h : op.isValid) : ofByte op.toByte = op := by
  cases op with
  | undefined b => cases h
  | base b => cases b <;> rfl
  | const w => cases w <;> rfl
  | unary o => cases o <;> rfl
  | binary o => cases o <;> rfl
  | compare o => cases o <;> rfl
  | _ => rfl

end Opcode

end WatchExpr
