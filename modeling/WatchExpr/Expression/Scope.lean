import WatchExpr.Machine.Register
import WatchExpr.Expression.Basic

namespace WatchExpr

inductive Location where
  /-- Nothing is known. -/
  | none
  /-- Code computes the address. -/
  | addressCode
  /-- Code computes the value. -/
  | valueCode
  /-- The address is a register plus an offset. -/
  | registerOffset
  /-- The address is stored at a register plus an offset. -/
  | registerOffsetStored
  /-- The value is in a register. -/
  | register
  /-- A number that is no location. -/
  | undefined (number : UInt8)
  deriving Repr, DecidableEq, Inhabited

namespace Location

def all : List Location :=
  [none, addressCode, valueCode, registerOffset, registerOffsetStored, register]

def ofNumber (n : UInt8) : Location := (all[n.toNat]?).getD (undefined n)

def number : Location → Nat
  | none => 0
  | addressCode => 1
  | valueCode => 2
  | registerOffset => 3
  | registerOffsetStored => 4
  | register => 5
  | undefined n => n.toNat

def name : Location → Text
  | none => "none"
  | addressCode => "addr-bytecode"
  | valueCode => "value-bytecode"
  | registerOffset => "reg+off"
  | registerOffsetStored => "[reg+off]"
  | register => "register"
  | undefined _ => "invalid"

def ofName? (name : Text) : Option Location := all.find? (·.name == name)

end Location

/-- A named entity of the debugged program. -/
structure Symbol where
  name : Text
  type : TypeKey := .zero
  location : Location := .none
  /-- Code of the two code locations. -/
  code : List UInt8 := []
  /-- Register code of the register locations. -/
  register : UInt8 := 0
  /-- Displacement from a register, or from a base address for symbols that are not local. -/
  offset : Int64 := 0
  deriving Repr, DecidableEq, Inhabited

/-- The names visible at one place of the program. -/
structure Resolver where
  localSymbol? : Text → Option Symbol
  globalSymbol? : Text → Option Symbol
  threadLocal? : Text → Option Symbol
  procedure? : Text → Option Symbol
  /-- The qualified name of the enclosing procedure. -/
  procedureName : Text

/-- Nesting that is read when no limit is given. -/
def defaultMaxDepth : Nat := 256

/-- Everything an expression is compiled against. -/
structure Context where
  /-- The provider of types, which is taken to be a table. -/
  types : TypeTable
  resolver : Option Resolver := Option.none
  arch : Arch := .none
  /-- The deepest nesting; below one means the default. -/
  maxDepth : Int := 0

namespace Context

def bare (arch : Arch) (maxDepth : Int := 0) : Context :=
  { types := TypeTable.empty arch.pointerSize, arch, maxDepth }

def depthLimit (c : Context) : Nat :=
  if c.maxDepth > 0 then c.maxDepth.toNat else defaultMaxDepth

end Context

namespace Namespace

def dotted : Text → Text
  | [] => []
  | 0x3a :: 0x3a :: rest => 0x2e :: dotted rest
  | c :: rest => c :: dotted rest

def parts (name : Text) : List Text :=
  ((dotted name).splitOn 0x2e).filter fun part => !part.isEmpty

/-- The qualified forms of a name seen from a procedure, the innermost namespace first and the
bare name last. -/
def candidates (procedure name : Text) : List Text :=
  let scopes := (parts procedure).dropLast
  (List.range scopes.length).reverse.map (fun i =>
    Text.join "::" (scopes.take (i + 1)) ++ "::" ++ name) ++ [name]

end Namespace

end WatchExpr
