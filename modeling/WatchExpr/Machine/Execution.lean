import WatchExpr.Machine.Chunk
import WatchExpr.Machine.Register

namespace WatchExpr

/-- The debugged program, given by its answers: the same question has the same answer throughout a
run, and asking changes nothing. -/
structure Target where
  /-- The bytes at an address, if all of them can be read. -/
  memory : UInt64 → (size : Nat) → Option (Vector UInt8 size)
  registerBlock : List UInt8
  base : Base → Option UInt64

structure MemoryRead where
  address : UInt64
  size : Nat
  deriving Repr, DecidableEq

namespace Target

/-- The memory at an address as a little-endian number. -/
def word? (t : Target) (address : UInt64) (size : Nat) : Option Slot :=
  (t.memory address size).map fun bytes => ofLittleEndian bytes.toList

/-- Up to eight bytes of a register block as a little-endian number; the range has to lie inside
the block. -/
def blockWord? (block : List UInt8) (offset : UInt64) (size : Nat) : Option Slot :=
  if 1 ≤ size ∧ size ≤ 8 ∧ offset.toNat + size ≤ block.length then
    some (ofLittleEndian ((block.drop offset.toNat).take size))
  else none

end Target

/-- Sparse memory: single bytes at addresses, a later entry hiding an earlier one. -/
structure SparseMemory where
  cells : List (UInt64 × UInt8) := []

namespace SparseMemory

/-- Writes bytes from an address on, wrapping at the end of the address space. -/
def write (m : SparseMemory) (address : UInt64) (bytes : List UInt8) : SparseMemory :=
  ⟨(bytes.zipIdx.map fun (b, i) => (address + i.toUInt64, b)).reverse ++ m.cells⟩

def byte? (m : SparseMemory) (address : UInt64) : Option UInt8 :=
  (m.cells.find? fun cell => cell.1 == address).map Prod.snd

/-- Reads bytes from an address on; one unmapped byte makes the read fail. -/
def read? (m : SparseMemory) (address : UInt64) (size : Nat) : Option (Vector UInt8 size) :=
  (Vector.ofFn fun i : Fin size => m.byte? (address + i.val.toUInt64)).mapM id

end SparseMemory

/-- The stack depth used where none is asked for. -/
def defaultStackCapacity : Nat := 128

/-- A requested stack depth; anything below one asks for the default. It is taken that a stack of
this depth can be made, which is done before the first instruction. -/
def stackCapacity (requested : Int) : Nat :=
  if requested ≤ 0 then defaultStackCapacity else requested.toNat

/-- A stack machine attached to a target. -/
structure Machine where
  /-- Without a target every read fails. -/
  target : Option Target := none
  /-- The register layout, that of a known architecture; `Arch.none` has no registers and reads
  8-byte words. -/
  layout : Arch := .none
  /-- The room of the stack, taken to be there. -/
  capacity : Nat := defaultStackCapacity

/-- How a run ended, with the memory it read. -/
structure Outcome where
  result : Except Fault Slot
  reads : List MemoryRead

namespace Outcome

def status (o : Outcome) : Status :=
  match o.result with
  | .ok _ => .good
  | .error f => .failed f

/-- The value left by the run, zero when it failed. -/
def value (o : Outcome) : Slot :=
  match o.result with
  | .ok v => v
  | .error _ => 0

end Outcome

namespace Machine

structure State where
  /-- The code still to run. -/
  code : List UInt8
  /-- The stack, top first. -/
  stack : List Slot := []
  reads : List MemoryRead := []

inductive Progress where
  | next (s : State)
  | halt (s : State)
  | fault (f : Fault) (reads : List MemoryRead)

/-- Skips forward; the end of the code is the furthest target. -/
def jump (distance : Nat) (s : State) : Progress :=
  if s.code.length < distance then .fault .badOp s.reads
  else .next { s with code := s.code.drop distance }

def State.push (s : State) : Except Fault Slot → Progress
  | .ok v => .next { s with stack := v :: s.stack }
  | .error f => .fault f s.reads

def readMemory (m : Machine) (address : Slot) (size : Nat) (s : State) : Progress :=
  if size < 1 ∨ 8 < size then .fault .badOp s.reads
  else
    match m.target with
    | none => .fault .badMemRead s.reads
    | some t =>
      let logged := { s with reads := s.reads ++ [{ address, size : MemoryRead }] }
      match t.word? address size with
      | some v => .next { logged with stack := v :: s.stack }
      | none => .fault .badMemRead logged.reads

def readBlock (m : Machine) (offset : Slot) (size : Nat) : Except Fault Slot :=
  match m.target with
  | none => .error .badRegRead
  | some t =>
    match Target.blockWord? t.registerBlock offset size with
    | some v => .ok v
    | none => .error .badRegRead

def readRegister (m : Machine) (operand : UInt64) : Except Fault Slot :=
  let size := (operand >>> 8).toUInt8.toNat
  let offset := (operand >>> 16).toUInt16.toNat
  match m.layout.byCode? operand.toUInt8.toNat with
  | none => .error .badRegRead
  | some r =>
    if r.size < offset + size then .error .badRegRead
    else m.readBlock (r.offset + offset).toUInt64 size

def baseFault : Base → Fault
  | .frame => .badFrameBase
  | .image => .badModuleBase
  | .thread => .badTlsBase

def baseAddress (m : Machine) (b : Base) (offset : UInt64) : Except Fault Slot :=
  match m.target.bind (·.base b) with
  | some a => .ok (a + offset)
  | none => .error (baseFault b)

/-- Moves the top slot down to a depth. -/
def sink (depth : Nat) : List Slot → List Slot
  | [] => []
  | v :: rest => rest.take depth ++ v :: rest.drop depth

/-- What an instruction does once the stack has been checked; `s` is the state after it in the
code. -/
def perform (m : Machine) (i : Instruction) (s : State) : Progress :=
  match i.op, s.stack with
  | .stop, _ => .halt s
  | .noop, _ => .next s
  | .cond, c :: stack =>
    if Slot.isTrue c then jump i.operand.toNat { s with stack } else .next { s with stack }
  | .skip, _ => jump i.operand.toNat s
  | .memRead, a :: stack => m.readMemory a i.operand.toNat { s with stack }
  | .regRead, _ => s.push (m.readRegister i.operand)
  | .regReadDyn, a :: stack =>
    { s with stack : State }.push (m.readBlock a m.layout.pointerSize)
  | .base b, _ => s.push (m.baseAddress b i.operand)
  | .const _, _ => s.push (.ok i.operand)
  | .unary op, x :: stack => { s with stack : State }.push (.ok (op.apply i.group x))
  | .binary op, y :: x :: stack => { s with stack : State }.push (op.apply i.group x y)
  | .compare op, y :: x :: stack =>
    { s with stack : State }.push (.ok (Slot.ofBool (op.apply i.group x y)))
  | .trunc, x :: stack => { s with stack : State }.push (.ok (Slot.truncate i.operand.toNat x))
  | .truncSigned, x :: stack =>
    { s with stack : State }.push (.ok (Slot.signExtend i.operand.toNat x))
  | .convert, x :: stack =>
    let source := Group.ofByte i.operand.toUInt8
    let result := Group.ofByte (i.operand >>> 8).toUInt8
    if source.isScalar && result.isScalar then
      { s with stack : State }.push (.ok (Slot.convert source result x))
    else .fault .badOpTypes s.reads
  | .pick, stack =>
    match stack[i.operand.toNat]? with
    | some v => s.push (.ok v)
    | none => .fault .badOp s.reads
  | .pop, _ :: stack => .next { s with stack }
  | .insert, stack =>
    if stack.length ≤ i.operand.toNat then .fault .badOp s.reads
    else .next { s with stack := sink i.operand.toNat stack }
  | _, _ => .fault .badOp s.reads

/-- The checks before an instruction, in the order in which they decide the fault: enough operands,
a group the opcode takes, and room for the result. -/
def check (m : Machine) (i : Instruction) (depth : Nat) : Except Fault Unit :=
  if depth < i.op.pops then .error .badOp
  else if i.op.hasGroup && !i.op.accepts i.group then .error .badOpTypes
  else if m.capacity < depth - i.op.pops + i.op.pushes then .error .insufficientStackSpace
  else .ok ()

def step (m : Machine) (b : UInt8) (rest : List UInt8) (s : State) : Progress :=
  match Instruction.decode b rest with
  | .error _ => .fault .badOp s.reads
  | .ok (i, after) =>
    match m.check i s.stack.length with
    | .error f => .fault f s.reads
    | .ok () => m.perform i { s with code := after }

/-- A finished program has to leave exactly one value. -/
def State.finish (s : State) : Outcome :=
  match s.stack with
  | [v] => ⟨.ok v, s.reads⟩
  | _ => ⟨.error .malformedBytecode, s.reads⟩

theorem State.length_of_push {s t : State} {v : Except Fault Slot} (h : s.push v = .next t) :
    t.code.length ≤ s.code.length := by
  cases v <;> cases h
  exact Nat.le_refl _

theorem length_of_jump {distance : Nat} {s t : State} (h : jump distance s = .next t) :
    t.code.length ≤ s.code.length := by
  simp only [jump] at h
  split at h <;> cases h
  simp

theorem length_of_readMemory {m : Machine} {a : Slot} {size : Nat} {s t : State}
    (h : m.readMemory a size s = .next t) : t.code.length ≤ s.code.length := by
  simp only [readMemory] at h
  split at h
  · cases h
  · split at h
    · cases h
    · split at h <;> cases h
      exact Nat.le_refl _

/-- An instruction never gives back code it has passed. -/
theorem length_of_perform {m : Machine} {i : Instruction} {s t : State}
    (h : m.perform i s = .next t) : t.code.length ≤ s.code.length := by
  simp only [perform] at h
  split at h
  case h_1 => cases h
  case h_2 => cases h; exact Nat.le_refl _
  case h_3 =>
    split at h
    · exact (length_of_jump h :)
    · cases h; exact Nat.le_refl _
  case h_4 => exact length_of_jump h
  case h_5 => exact (length_of_readMemory h :)
  case h_15 =>
    split at h
    · exact (State.length_of_push h :)
    · cases h
  case h_16 =>
    split at h
    · exact State.length_of_push h
    · cases h
  case h_17 => cases h; exact Nat.le_refl _
  case h_18 => split at h <;> cases h; exact Nat.le_refl _
  case h_19 => cases h
  all_goals exact (State.length_of_push h :)

theorem length_of_step {m : Machine} {b : UInt8} {rest : List UInt8} {s t : State}
    (h : m.step b rest s = .next t) : t.code.length ≤ rest.length := by
  simp only [step] at h
  split at h
  · cases h
  · rename_i i after hd
    split at h
    · cases h
    · exact Nat.le_trans (length_of_perform h) (Instruction.length_of_decode hd)

def run (m : Machine) (s : State) : Outcome :=
  match _hc : s.code with
  | [] => s.finish
  | b :: rest =>
    match _hs : m.step b rest s with
    | .next t => run m t
    | .halt t => t.finish
    | .fault f reads => ⟨.error f, reads⟩
termination_by s.code.length
decreasing_by
  have := length_of_step _hs
  simp only [_hc, List.length_cons]
  omega

/-- Runs a program from an empty stack. -/
def execute (m : Machine) (code : List UInt8) : Outcome := m.run { code }

end Machine

end WatchExpr
