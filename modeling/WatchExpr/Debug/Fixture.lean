import WatchExpr.Text.Case
import WatchExpr.Config.Settings
import WatchExpr.Config.Toml.Document
import WatchExpr.Machine.Execution
import WatchExpr.Debug.Info

namespace WatchExpr

/-- One block of recorded memory. Its address is `address`, or that many bytes past the storage of
a named global or thread-local. -/
structure MemoryBlock where
  symbol : Text := []
  address : UInt64 := 0
  /-- Bytes per element; zero asks for eight. -/
  width : Int := 0
  values : List Int64 := []
  /-- The bits of double-precision numbers. -/
  floats : List UInt64 := []
  hex : Text := []
  deriving Repr, DecidableEq

structure Bases where
  frame : Option UInt64 := none
  image : Option UInt64 := none
  thread : Option UInt64 := none
  deriving Repr, DecidableEq

/-- A recorded stop as it is written down. -/
structure FixtureFile where
  info : DebugInfo := {}
  bases : Bases := {}
  registers : List (Text × UInt64) := []
  memory : List MemoryBlock := []
  deriving Repr, DecidableEq

/-- The recorded state of a target: bases, registers, and regions of memory in recorded order. -/
structure Snapshot where
  bases : Bases := {}
  registers : List (Text × UInt64) := []
  regions : List (UInt64 × List UInt8) := []
  deriving Repr, DecidableEq

/-- A recorded stop: where it is and what it looks like. -/
structure Fixture where
  scope : DebugScope
  snapshot : Snapshot

/-- Why a block of memory cannot be placed or filled. -/
inductive BlockError where
  | noImageBase (symbol : Text)
  | noThreadBase (symbol : Text)
  | unknownSymbol (symbol : Text)
  | sources
  | floatWidth (width : Int)
  | valueWidth (width : Int)
  | badHex (cause : Hex.Error)
  deriving Repr, DecidableEq

def BlockError.message : BlockError → Text
  | noImageBase s => "global " ++ s ++ " needs a module base"
  | noThreadBase s => "thread-local " ++ s ++ " needs a TLS base"
  | unknownSymbol s => "unknown symbol " ++ Quoted.quote s
  | sources => "need exactly one of values, floats and hex"
  | floatWidth w => "float width must be 4 or 8, got " ++ Text.integer w
  | valueWidth w => "width must be 1, 2, 4 or 8, got " ++ Text.integer w
  | badHex e => e.message

/-- Why a recorded stop cannot be loaded. -/
inductive FixtureError where
  | unsupportedFormat (extension : Text)
  | badSyntax (path : Text) (cause : Toml.SyntaxError)
  | badScope (path : Text) (cause : BuildError)
  | badBlock (path : Text) (index : Nat) (cause : BlockError)
  deriving Repr, DecidableEq

def FixtureError.message (e : FixtureError) : Text :=
  let detail : Text :=
    match e with
    | unsupportedFormat ext => "unsupported format " ++ Quoted.quote ext
    | badSyntax path cause => "parse error in " ++ path ++ ": " ++ cause.message
    | badScope path cause => path ++ ": " ++ cause.message
    | badBlock path i cause =>
      path ++ ": memory[" ++ Text.decimal i ++ "]: " ++ cause.message
  "fixture: " ++ detail

namespace MemoryBlock

def place (b : MemoryBlock) (scope : DebugScope) (bases : Bases) : Except BlockError UInt64 :=
  if b.symbol.isEmpty then .ok b.address
  else
    match scope.globals.lookup b.symbol, scope.threadLocals.lookup b.symbol with
    | some sym, _ =>
      match bases.image with
      | some base => .ok (base + sym.offset.toUInt64 + b.address)
      | none => .error (.noImageBase b.symbol)
    | none, some sym =>
      match bases.thread with
      | some base => .ok (base + sym.offset.toUInt64 + b.address)
      | none => .error (.noThreadBase b.symbol)
    | none, none => .error (.unknownSymbol b.symbol)

/-- The bytes of a block; exactly one of its three sources supplies them. -/
def bytes (b : MemoryBlock) : Except BlockError (List UInt8) :=
  let width := if b.width = 0 then 8 else b.width
  match b.values, b.floats, b.hex with
  | [], [], _ :: _ => (Hex.decode (b.hex.filter (· != 0x20))).mapError .badHex
  | [], _ :: _, [] =>
    if width = 4 then .ok (b.floats.flatMap fun v => littleEndian 4 (Slot.narrow v))
    else if width = 8 then .ok (b.floats.flatMap (littleEndian 8))
    else .error (.floatWidth width)
  | _ :: _, [], [] =>
    if width = 1 ∨ width = 2 ∨ width = 4 ∨ width = 8 then
      .ok (b.values.flatMap fun v => littleEndian width.toNat v.toUInt64)
    else .error (.valueWidth width)
  | _, _, _ => .error .sources

end MemoryBlock

namespace Snapshot

/-- The target of a recorded stop. It has the recorded bases; its memory and registers cannot be
read. -/
def target (s : Snapshot) : Target where
  memory _ _ := none
  registerBlock := []
  base
    | .frame => s.bases.frame
    | .image => s.bases.image
    | .thread => s.bases.thread

end Snapshot

namespace FixtureFile

/-- The first byte of a recorded stop, which is written down as one record in braces. -/
def opening : Text := "\x7b"

/-- Checks that the format named by a path can hold a record in braces: configuration text cannot
start with one. -/
def checkFormat (path : Text) : Except FixtureError Unit :=
  let ext := Case.lower (Path.extension path)
  if ext = (".toml" : Text) then
    match Toml.read opening with
    | .ok _ => .ok ()
    | .error cause => .error (.badSyntax path cause)
  else if ext = (".yaml" : Text) ∨ ext = (".yml" : Text) then .ok ()
  else .error (.unsupportedFormat ext)

/-- Builds the recorded stop of a file with the given path. -/
def load (f : FixtureFile) (path : Text) : Except FixtureError Fixture := do
  checkFormat path
  let scope ← f.info.build.mapError (.badScope path)
  let regions ← f.memory.zipIdx.mapM fun (b, i) =>
    (do return (← b.place scope f.bases, ← b.bytes) : Except BlockError _).mapError
      (.badBlock path i)
  return { scope, snapshot := { bases := f.bases, registers := f.registers, regions } }

end FixtureFile

end WatchExpr
