import WatchExpr.Text.Hex

namespace WatchExpr

/-- An architecture whose registers can be named; `none` has no registers. -/
inductive Arch where
  | none
  | x86
  | x64
  deriving Repr, DecidableEq, Inhabited

structure Register where
  name : Text
  /-- Position in the block, counted from one. -/
  code : Nat
  /-- Width in bytes. -/
  size : Nat
  /-- Byte offset of its cell in the block. -/
  offset : Nat
  deriving Repr, DecidableEq

structure RegisterAlias where
  name : Text
  /-- Code of the register that contains it. -/
  code : Nat
  /-- Offset within that register. -/
  byteOffset : Nat
  size : Nat
  /-- Byte offset in the block. -/
  offset : Nat
  deriving Repr, DecidableEq

namespace Arch

private def x64Registers : List (String × Nat) :=
  [("rax", 8), ("rcx", 8), ("rdx", 8), ("rbx", 8), ("rsp", 8), ("rbp", 8), ("rsi", 8), ("rdi", 8),
    ("r8", 8), ("r9", 8), ("r10", 8), ("r11", 8), ("r12", 8), ("r13", 8), ("r14", 8), ("r15", 8),
    ("rip", 8), ("rflags", 8), ("fsbase", 8), ("gsbase", 8),
    ("es", 2), ("cs", 2), ("ss", 2), ("ds", 2), ("fs", 2), ("gs", 2)]

private def x86Registers : List (String × Nat) :=
  [("eax", 4), ("ecx", 4), ("edx", 4), ("ebx", 4), ("esp", 4), ("ebp", 4), ("esi", 4), ("edi", 4),
    ("eip", 4), ("eflags", 4),
    ("es", 2), ("cs", 2), ("ss", 2), ("ds", 2), ("fs", 2), ("gs", 2),
    ("fsbase", 4), ("gsbase", 4)]

/-- Sub-register names as name, register, byte offset and size. -/
private def x64Aliases : List (String × String × Nat × Nat) :=
  [("eip", "rip", 0, 4), ("ip", "rip", 0, 2), ("eflags", "rflags", 0, 4),
    ("eax", "rax", 0, 4), ("ax", "rax", 0, 2), ("al", "rax", 0, 1), ("ah", "rax", 1, 1),
    ("ecx", "rcx", 0, 4), ("cx", "rcx", 0, 2), ("cl", "rcx", 0, 1), ("ch", "rcx", 1, 1),
    ("edx", "rdx", 0, 4), ("dx", "rdx", 0, 2), ("dl", "rdx", 0, 1), ("dh", "rdx", 1, 1),
    ("ebx", "rbx", 0, 4), ("bx", "rbx", 0, 2), ("bl", "rbx", 0, 1), ("bh", "rbx", 1, 1),
    ("esp", "rsp", 0, 4), ("sp", "rsp", 0, 2), ("spl", "rsp", 0, 1),
    ("ebp", "rbp", 0, 4), ("bp", "rbp", 0, 2), ("bpl", "rbp", 0, 1),
    ("esi", "rsi", 0, 4), ("si", "rsi", 0, 2), ("sil", "rsi", 0, 1),
    ("edi", "rdi", 0, 4), ("di", "rdi", 0, 2), ("dil", "rdi", 0, 1),
    ("r8d", "r8", 0, 4), ("r8w", "r8", 0, 2), ("r8b", "r8", 0, 1),
    ("r9d", "r9", 0, 4), ("r9w", "r9", 0, 2), ("r9b", "r9", 0, 1),
    ("r10d", "r10", 0, 4), ("r10w", "r10", 0, 2), ("r10b", "r10", 0, 1),
    ("r11d", "r11", 0, 4), ("r11w", "r11", 0, 2), ("r11b", "r11", 0, 1),
    ("r12d", "r12", 0, 4), ("r12w", "r12", 0, 2), ("r12b", "r12", 0, 1),
    ("r13d", "r13", 0, 4), ("r13w", "r13", 0, 2), ("r13b", "r13", 0, 1),
    ("r14d", "r14", 0, 4), ("r14w", "r14", 0, 2), ("r14b", "r14", 0, 1),
    ("r15d", "r15", 0, 4), ("r15w", "r15", 0, 2), ("r15b", "r15", 0, 1)]

private def x86Aliases : List (String × String × Nat × Nat) :=
  [("ax", "eax", 0, 2), ("al", "eax", 0, 1), ("ah", "eax", 1, 1),
    ("cx", "ecx", 0, 2), ("cl", "ecx", 0, 1), ("ch", "ecx", 1, 1),
    ("dx", "edx", 0, 2), ("dl", "edx", 0, 1), ("dh", "edx", 1, 1),
    ("bx", "ebx", 0, 2), ("bl", "ebx", 0, 1), ("bh", "ebx", 1, 1),
    ("sp", "esp", 0, 2), ("bp", "ebp", 0, 2), ("si", "esi", 0, 2), ("di", "edi", 0, 2),
    ("ip", "eip", 0, 2), ("flags", "eflags", 0, 2)]

def pointerSize : Arch → Nat
  | x86 => 4
  | none | x64 => 8

def registers (a : Arch) : List Register :=
  let spec :=
    match a with
    | none => []
    | x86 => x86Registers
    | x64 => x64Registers
  spec.zipIdx.map fun ((name, size), i) => ⟨name, i + 1, size, i * a.pointerSize⟩

def blockSize (a : Arch) : Nat := a.registers.length * a.pointerSize

/-- Looks up a full register by name. -/
def register? (a : Arch) (name : Text) : Option Register :=
  a.registers.find? fun r => r.name == name

def aliases (a : Arch) : List RegisterAlias :=
  let spec :=
    match a with
    | none => []
    | x86 => x86Aliases
    | x64 => x64Aliases
  spec.filterMap fun (name, owner, byteOffset, size) =>
    (a.register? owner).map fun r => ⟨name, r.code, byteOffset, size, r.offset + byteOffset⟩

/-- Looks up a sub-register by name. -/
def alias? (a : Arch) (name : Text) : Option RegisterAlias :=
  a.aliases.find? fun r => r.name == name

def byCode? (a : Arch) (code : Nat) : Option Register :=
  if code = 0 then Option.none else a.registers[code - 1]?

def name : Arch → Text
  | none => "none"
  | x86 => "x86"
  | x64 => "x64"

/-- Reads an architecture name in any letter case; the empty name means no architecture. -/
def ofName? (name : Text) : Option Arch :=
  let folded := Text.foldCase name
  if folded ∈ (["x64", "amd64", "x86_64", "x86-64"] : List Text) then some x64
  else if folded ∈ (["x86", "i386", "386"] : List Text) then some x86
  else if folded ∈ (["", "none"] : List Text) then some none
  else Option.none

/-- The complaint about a name that is no architecture. -/
def unknownMessage (name : Text) : Text :=
  "regs: unknown architecture " ++ Quoted.quote name

end Arch

end WatchExpr
