import WatchExpr.Machine.Slot

namespace WatchExpr

/-- The low bytes of a number, least significant first. -/
def littleEndian : (count : Nat) → UInt64 → List UInt8
  | 0, _ => []
  | count + 1, v => v.toUInt8 :: littleEndian count (v >>> 8)

/-- The number with the given bytes, least significant first. -/
def ofLittleEndian : List UInt8 → UInt64
  | [] => 0
  | b :: rest => b.toUInt64 ||| (ofLittleEndian rest <<< 8)

/-- An opcode with its immediate. -/
structure Instruction where
  op : Opcode
  operand : UInt64 := 0
  deriving Repr, DecidableEq

namespace Instruction

/-- The bytes of an instruction; bits of the immediate beyond its width are dropped. -/
def encode (i : Instruction) : List UInt8 :=
  i.op.toByte :: littleEndian i.op.operandLength i.operand

def group (i : Instruction) : Group := .ofByte i.operand.toUInt8

inductive Defect where
  | unknownOpcode (byte : UInt8)
  | truncated (op : Opcode)
  deriving Repr, DecidableEq

/-- Decodes the instruction that starts with a byte, giving the code after it. -/
def decode (b : UInt8) (rest : List UInt8) : Except Defect (Instruction × List UInt8) :=
  let op := Opcode.ofByte b
  if !op.isValid then .error (.unknownOpcode b)
  else
    let immediate := rest.take op.operandLength
    if immediate.length < op.operandLength then .error (.truncated op)
    else .ok (⟨op, ofLittleEndian immediate⟩, rest.drop op.operandLength)

theorem length_of_decode {b : UInt8} {rest after : List UInt8} {i : Instruction}
    (h : decode b rest = .ok (i, after)) : after.length ≤ rest.length := by
  simp only [decode] at h
  split at h
  · cases h
  · split at h
    · cases h
    · cases h
      simp

end Instruction

/-- A complaint about a program, with the offset it concerns. -/
inductive CodeError where
  | outside (offset : Int) (size : Nat)
  | unknownOpcode (byte : UInt8) (offset : Nat)
  | truncated (op : Opcode) (offset : Nat)
  | jumpsPastEnd (op : Opcode) (offset : Nat)
  deriving Repr, DecidableEq

namespace CodeError

def ofDefect (offset : Nat) : Instruction.Defect → CodeError
  | .unknownOpcode b => unknownOpcode b offset
  | .truncated op => truncated op offset

def message : CodeError → Text
  | outside offset size =>
    "bytecode: offset " ++ Text.integer offset ++ " outside program of " ++ Text.decimal size
      ++ " bytes"
  | unknownOpcode b offset =>
    "bytecode: unknown opcode 0x" ++ Text.upperHex 2 b.toNat ++ " at " ++ Text.decimal offset
  | truncated op offset => "bytecode: truncated " ++ op.name ++ " at " ++ Text.decimal offset
  | jumpsPastEnd op offset => "bytecode: " ++ op.name ++ " at " ++ Text.decimal offset
      ++ " jumps past end"

end CodeError

namespace Code

def decodeAt (code : List UInt8) (offset : Int) : Except CodeError Instruction :=
  if offset < 0 then .error (.outside offset code.length)
  else
    match code.drop offset.toNat with
    | [] => .error (.outside offset code.length)
    | b :: rest =>
      match Instruction.decode b rest with
      | .error d => .error (.ofDefect offset.toNat d)
      | .ok (i, _) => .ok i

def validateFrom (offset : Nat) (code : List UInt8) : Except CodeError Unit :=
  match code with
  | [] => .ok ()
  | b :: rest =>
    match _h : Instruction.decode b rest with
    | .error d => .error (.ofDefect offset d)
    | .ok (i, after) =>
      if i.op.isJump && after.length < i.operand.toNat then .error (.jumpsPastEnd i.op offset)
      else validateFrom (offset + i.op.length) after
termination_by code.length
decreasing_by
  have := Instruction.length_of_decode _h
  simp only [List.length_cons]
  omega

/-- The first instruction that is unknown, cut short or jumps past the end. -/
def validate (code : List UInt8) : Except CodeError Unit := validateFrom 0 code

end Code

namespace Code

def emit (code : List UInt8) (op : Opcode) : List UInt8 := code ++ [op.toByte]

def emitWith (code : List UInt8) (op : Opcode) (operand : UInt64) : List UInt8 :=
  code ++ Instruction.encode ⟨op, operand⟩

/-- The narrowest width that holds an unsigned number. -/
def constWidth (v : UInt64) : Width :=
  if v < 0x100 then .w8 else if v < 0x10000 then .w16 else if v < 0x100000000 then .w32 else .w64

/-- Emits an unsigned constant at its narrowest width. -/
def emitConst (code : List UInt8) (v : UInt64) : List UInt8 :=
  emitWith code (.const (constWidth v)) v

def emitGroup (code : List UInt8) (op : Opcode) (g : Group) : List UInt8 :=
  emitWith code op g.toByte.toUInt64

def emitConvert (code : List UInt8) (source result : Group) : List UInt8 :=
  emitWith code .convert (source.toByte.toUInt64 ||| (result.toByte.toUInt64 <<< 8))

/-- Emits a read of some bytes inside a register. -/
def emitRegRead (code : List UInt8) (register size : UInt8) (offset : UInt16) : List UInt8 :=
  emitWith code .regRead
    (register.toUInt64 ||| (size.toUInt64 <<< 8) ||| (offset.toUInt64 <<< 16))

/-- Emits a jump whose distance is still to be patched. -/
def emitJump (code : List UInt8) (op : Opcode) : List UInt8 := code ++ [op.toByte, 0xff, 0xff]

/-- Makes the jump whose placeholder is at an offset land at the end of the code; a distance that
does not fit 16 bits is refused. -/
def patchJump (code : List UInt8) (placeholder : Nat) : Option (List UInt8) :=
  let distance := code.length - (placeholder + 2)
  if code.length < placeholder + 2 ∨ 0xffff < distance then none
  else
    some (code.take placeholder ++ littleEndian 2 distance.toUInt64 ++ code.drop (placeholder + 2))

def jumpTooFar : Text := "bytecode: jump offset exceeds 65535 bytes"

end Code

end WatchExpr
