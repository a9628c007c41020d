import WatchExpr.Machine.Chunk
import WatchExpr.Text.Hex

namespace WatchExpr

/-- A tree of machine operations. -/
inductive Node where
  /-- An operand that is not there. -/
  | missing
  /-- A constant; a signed one is sign-extended from the narrowest width that holds it. -/
  | const (value : UInt64) (signed : Bool)
  | unary (op : Opcode) (group : Group) (x : Node)
  | binary (op : Opcode) (group : Group) (x y : Node)
  /-- Runs `yes` when the condition is not zero, else `no`. -/
  | cond (condition yes no : Node)
  /-- Loads some bytes from an address. -/
  | read (size : UInt8) (address : Node)
  /-- Loads a pointer-sized word from an offset in the register block. -/
  | register (offset : Node)
  | convert (source result : Group) (x : Node)
  /-- Keeps the low bits, sign-extended or zero-extended. -/
  | trunc (bits : UInt8) (signed : Bool) (x : Node)
  /-- Code that pushes one value, taken as it is. -/
  | splice (code : List UInt8)
  deriving Repr, DecidableEq, Inhabited

namespace Node

def unsigned (v : UInt64) : Node := .const v false

def ofSigned (v : Int64) : Node := .const v.toUInt64 true

/-- The tree on one line in front of a text, operators first. -/
def formatOnto : Node → (after : Text) → Text
  | missing, after => "<nil>" ++ after
  | const v true, after => Text.integer v.toInt64.toInt ++ after
  | const v false, after => Text.decimal v.toNat ++ "u" ++ after
  | unary op g x, after =>
    "(" ++ Text.toLower op.name ++ "." ++ g.name ++ " " ++ x.formatOnto (")" ++ after)
  | binary op g x y, after =>
    "(" ++ Text.toLower op.name ++ "." ++ g.name ++ " "
      ++ x.formatOnto (" " ++ y.formatOnto (")" ++ after))
  | cond c yes no, after =>
    "(if " ++ c.formatOnto (" " ++ yes.formatOnto (" " ++ no.formatOnto (")" ++ after)))
  | read size a, after => "(read" ++ Text.decimal size.toNat ++ " " ++ a.formatOnto (")" ++ after)
  | register offset, after => "(reg " ++ offset.formatOnto (")" ++ after)
  | convert source result x, after =>
    "(convert " ++ source.name ++ "->" ++ result.name ++ " " ++ x.formatOnto (")" ++ after)
  | trunc bits true x, after =>
    "(strunc" ++ Text.decimal bits.toNat ++ " " ++ x.formatOnto (")" ++ after)
  | trunc bits false x, after =>
    "(trunc" ++ Text.decimal bits.toNat ++ " " ++ x.formatOnto (")" ++ after)
  | splice code, after => "[" ++ Hex.encodeSpaced code ++ "]" ++ after

def format (n : Node) : Text := n.formatOnto []

end Node

inductive EncodeError where
  | missingNode
  | groupRefused (op : Opcode) (group : Group)
  | readSize (size : UInt8)
  | jumpTooFar
  /-- A spliced fragment is no program. -/
  | fragment (cause : CodeError)
  /-- The whole code is no program. -/
  | program (cause : CodeError)
  deriving Repr, DecidableEq

def EncodeError.message : EncodeError → Text
  | missingNode => "ir: nil node"
  | groupRefused op g => "ir: " ++ op.name ++ " does not accept group " ++ g.name
  | readSize n => "ir: memory read of " ++ Text.decimal n.toNat ++ " bytes"
  | jumpTooFar => Code.jumpTooFar
  | fragment e => "ir: fragment: " ++ e.message
  | program e => "ir: encoded program: " ++ e.message

namespace Node

/-- The narrowest width that holds a two's complement number. -/
def signedWidth (v : Int64) : Width :=
  if -0x80 ≤ v ∧ v ≤ 0x7f then .w8
  else if -0x8000 ≤ v ∧ v ≤ 0x7fff then .w16
  else if -0x80000000 ≤ v ∧ v ≤ 0x7fffffff then .w32
  else .w64

def encodeConst (v : UInt64) (signed : Bool) : List UInt8 :=
  if !signed then Code.emitConst [] v
  else
    match signedWidth v.toInt64 with
    | .w64 => Instruction.encode ⟨.const .w64, v⟩
    | w => Instruction.encode ⟨.const w, v⟩ ++ Instruction.encode ⟨.truncSigned, w.bits.toUInt64⟩

/-- An instruction that carries a group, refused where the opcode does not take it. -/
def encodeGroup (op : Opcode) (g : Group) : Except EncodeError (List UInt8) :=
  if op.accepts g then .ok (Code.emitGroup [] op g) else .error (.groupRefused op g)

def encodeJump (op : Opcode) (distance : Nat) : Except EncodeError (List UInt8) :=
  if distance ≤ 0xffff then .ok (Instruction.encode ⟨op, distance.toUInt64⟩)
  else .error .jumpTooFar

/-- The code of a tree, not yet checked as a program. -/
def emit : Node → Except EncodeError (List UInt8)
  | missing => .error .missingNode
  | const v signed => .ok (encodeConst v signed)
  | unary op g x => do
    let cx ← x.emit
    return cx ++ (← encodeGroup op g)
  | binary op g x y => do
    let cx ← x.emit
    let cy ← y.emit
    return cx ++ cy ++ (← encodeGroup op g)
  | cond c yes no => do
    let cc ← c.emit
    let cno ← no.emit
    let toYes ← encodeJump .cond (cno.length + Opcode.skip.length)
    let cyes ← yes.emit
    let toEnd ← encodeJump .skip cyes.length
    return cc ++ toYes ++ cno ++ toEnd ++ cyes
  | read size a => do
    if size < 1 ∨ 8 < size then throw (.readSize size)
    let ca ← a.emit
    return ca ++ Instruction.encode ⟨.memRead, size.toUInt64⟩
  | register offset => do
    let co ← offset.emit
    return co ++ Instruction.encode ⟨.regReadDyn, 0⟩
  | convert source result x => do
    let cx ← x.emit
    return Code.emitConvert cx source result
  | trunc bits signed x => do
    let cx ← x.emit
    return cx ++ Instruction.encode ⟨if signed then .truncSigned else .trunc, bits.toUInt64⟩
  | splice code =>
    match Code.validate code with
    | .ok () => .ok code
    | .error e => .error (.fragment e)

/-- Puts the code of a tree behind code that is already there. Both are kept in reverse, so code
that stands in front is never copied. -/
def emitAfter : Node → (before : List UInt8) → Except EncodeError (List UInt8)
  | missing, _ => .error .missingNode
  | const v signed, before => .ok (List.reverseAux (encodeConst v signed) before)
  | unary op g x, before => do
    let code ← x.emitAfter before
    return List.reverseAux (← encodeGroup op g) code
  | binary op g x y, before => do
    let code ← y.emitAfter (← x.emitAfter before)
    return List.reverseAux (← encodeGroup op g) code
  | cond c yes no, before => do
    let condition ← c.emitAfter before
    let cno ← no.emitAfter []
    let toYes ← encodeJump .cond (cno.length + Opcode.skip.length)
    let cyes ← yes.emitAfter []
    let toEnd ← encodeJump .skip cyes.length
    return cyes ++ List.reverseAux toEnd (cno ++ List.reverseAux toYes condition)
  | read size a, before => do
    if size < 1 ∨ 8 < size then throw (.readSize size)
    let code ← a.emitAfter before
    return List.reverseAux (Instruction.encode ⟨.memRead, size.toUInt64⟩) code
  | register offset, before => do
    let code ← offset.emitAfter before
    return List.reverseAux (Instruction.encode ⟨.regReadDyn, 0⟩) code
  | convert source result x, before => do
    let code ← x.emitAfter before
    return List.reverseAux (Code.emitConvert [] source result) code
  | trunc bits signed x, before => do
    let code ← x.emitAfter before
    let op := if signed then .truncSigned else .trunc
    return List.reverseAux (Instruction.encode ⟨op, bits.toUInt64⟩) code
  | splice code, before =>
    match Code.validate code with
    | .ok () => .ok (List.reverseAux code before)
    | .error e => .error (.fragment e)

/-- Emitting behind other code gives the code of the tree behind that code. -/
theorem emitAfter_eq (n : Node) (before : List UInt8) :
    n.emitAfter before = n.emit.map fun code => code.reverse ++ before := by
  induction n generalizing before with
  | missing => rfl
  | const v signed => simp [emitAfter, emit, Except.map]
  | unary op g x ihx =>
    simp only [emitAfter, emit, ihx, bind, Except.bind, pure, Except.pure, Except.map]
    cases x.emit <;> cases encodeGroup op g <;> simp
  | binary op g x y ihx ihy =>
    simp only [emitAfter, emit, ihx, ihy, bind, Except.bind, pure, Except.pure, Except.map]
    cases x.emit <;> cases y.emit <;> cases encodeGroup op g <;> simp
  | cond c yes no ihc ihyes ihno =>
    simp only [emitAfter, emit, ihc, ihyes, ihno, bind, Except.bind, pure, Except.pure, Except.map]
    cases c.emit with
    | error e => rfl
    | ok cc =>
      cases no.emit with
      | error e => rfl
      | ok cno =>
        simp only [List.append_nil, List.length_reverse]
        cases encodeJump .cond (cno.length + Opcode.skip.length) with
        | error e => rfl
        | ok toYes =>
          cases yes.emit with
          | error e => rfl
          | ok cyes =>
            simp only [List.length_reverse]
            cases encodeJump .skip cyes.length <;> simp
  | read size a iha =>
    simp only [emitAfter, emit, iha, bind, Except.bind, pure, Except.pure, Except.map]
    split
    · rfl
    · cases a.emit <;> simp
  | register offset iho =>
    simp only [emitAfter, emit, iho, bind, Except.bind, pure, Except.pure, Except.map]
    cases offset.emit <;> simp
  | convert source result x ihx =>
    simp only [emitAfter, emit, ihx, bind, Except.bind, pure, Except.pure, Except.map]
    cases x.emit <;> simp [Code.emitConvert, Code.emitWith]
  | trunc bits signed x ihx =>
    simp only [emitAfter, emit, ihx, bind, Except.bind, pure, Except.pure, Except.map]
    cases x.emit <;> simp
  | splice code =>
    simp only [emitAfter, emit]
    split <;> simp [Except.map]

def encode (n : Node) : Except EncodeError (List UInt8) := do
  let code := (← n.emitAfter []).reverse
  match Code.validate code with
  | .ok () => return code
  | .error e => throw (.program e)

theorem encode_eq (n : Node) :
    n.encode = n.emit.bind fun code =>
      match Code.validate code with
      | .ok () => .ok code
      | .error e => .error (.program e) := by
  simp only [encode, emitAfter_eq, bind, Except.bind, Except.map, pure, Except.pure]
  cases n.emit with
  | error e => rfl
  | ok code =>
    simp only [List.append_nil, List.reverse_reverse]
    rfl

end Node

end WatchExpr
