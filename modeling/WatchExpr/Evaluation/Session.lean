import WatchExpr.Debug.Info
import WatchExpr.Decimal.Notation
import WatchExpr.Lexical.Fingerprint
import WatchExpr.Lowering.Compile
import WatchExpr.Machine.Execution
import WatchExpr.Types.Declarator

namespace WatchExpr

/-- Why an evaluation gave no value. -/
inductive EvalError where
  | diagnostics (ds : List Diagnostic)
  /-- The type does not fit a slot. -/
  | noValue (text : Text)
  | fault (text : Text) (cause : Fault)

def EvalError.message : EvalError → Text
  | diagnostics ds => Text.join "; " (ds.map Diagnostic.format)
  | noValue t => "eval: " ++ t ++ ": expression has no scalar value"
  | fault t f => "eval: " ++ t ++ ": bytecode: " ++ f.message

structure Evaluation where
  compiled : Compiled
  /-- How the run ended, if there was one. -/
  outcome : Option Outcome := none

namespace Evaluation

def type (e : Evaluation) : TypeKey := e.compiled.type

/-- The value, or the first reason why there is none: errors in the expression, a type that does
not fit a slot, or a fault of the run. -/
def value (e : Evaluation) : Except EvalError Slot :=
  if Diagnostic.anyError e.compiled.diagnostics then .error (.diagnostics e.compiled.diagnostics)
  else
    match e.outcome with
    | none => .error (.noValue e.compiled.text)
    | some o => o.result.mapError (.fault e.compiled.text)

/-- The complaint of an evaluation without a value. -/
def message? (e : Evaluation) : Option Text :=
  match e.value with
  | .ok _ => none
  | .error err => some err.message

def reads (e : Evaluation) : List MemoryRead := e.outcome.elim [] (·.reads)

end Evaluation

/-- Runs the value code of an expression that compiled without errors. -/
def Compiled.run (c : Compiled) (m : Machine) : Evaluation :=
  if Diagnostic.anyError c.diagnostics then { compiled := c }
  else { compiled := c, outcome := c.valueCode.map m.execute }

/-- Compiles a text and runs it; gives the table with the types it has added. -/
def evaluate (c : Context) (m : Machine) (text : Text) : Evaluation × TypeTable :=
  let (compiled, types) := compile c text
  (compiled.run m, types)

namespace Slot

def hexText (v : Slot) : Text := "0x" ++ Text.hexadecimal v.toNat

def signedText (v : Slot) : Text := Text.integer (signed v).toInt

/-- A character code, with the character itself when it is printable ASCII. -/
def charText (isSigned : Bool) (v : Slot) : Text :=
  let c := v.toUInt8
  let code : Text :=
    if isSigned then signedText (signExtend 8 v) else Text.decimal c.toNat
  if 0x20 ≤ c ∧ c < 0x7f then code ++ " '" ++ [c] ++ "'" else code

/-- A value of a type that is no name for another one. -/
def formatAs (kind : Kind) (v : Slot) : Text :=
  match kind with
  | .basic .bool => if isTrue v then "true" else "false"
  | .basic .char8 => charText true v
  | .basic .uchar8 => charText false v
  | .basic .f32 => Decimal.writeSingle v.toUInt32
  | .basic .f64 => Decimal.writeDouble v
  | .pointer | .lref | .rref | .function | .method | .basic .handle => hexText v
  | _ =>
    match kind.group with
    | .s => signedText v
    | .u => Text.decimal v.toNat
    | _ => hexText v

end Slot

namespace TypeTable

/-- The type as which a value is written, through at most `fuel` enumerations: an enumeration may
stand for another one. -/
def writtenAs (t : TypeTable) : (fuel : Nat) → TypeKey → TypeKey
  | 0, k => t.unwrap k
  | fuel + 1, k =>
    let u := t.unwrap k
    if u.kind = .enum then t.writtenAs fuel (t.unwrapEnum u) else u

/-- A value as text; an enumeration is written as its underlying integer. A chain of enumerations
that ends has at most one per entry of the table after the first. -/
def formatValue (t : TypeTable) (k : TypeKey) (v : Slot) : Text :=
  Slot.formatAs (t.writtenAs (t.entries.size + 1) k).kind v

def describeValue (t : TypeTable) (k : TypeKey) (v : Slot) : Text :=
  t.formatValue k v ++ " (" ++ t.describe k ++ ")"

end TypeTable

/-- How many compilations are kept unless told otherwise. -/
def defaultCacheSize : Int := 1024

/-- A scope with its cache of compilations. -/
structure Session where
  scope : DebugScope
  machine : Machine := {}
  maxDepth : Int := 0
  cache : List (List UInt8 × Compiled) := []
  limit : Int := defaultCacheSize
  /-- How many compilations were kept ones. The counts are taken to stay below 2^64. -/
  hits : Nat := 0
  misses : Nat := 0

namespace Session

def key (s : Session) (text : Text) : List UInt8 := Fingerprint.inScope text s.scope.procedure

/-- Keeps a compilation; a full cache is emptied first. -/
def keep (s : Session) (key : List UInt8) (c : Compiled) : Session :=
  if c.diagnostics.isEmpty && 0 < s.limit then
    if s.limit ≤ s.cache.length then { s with cache := [(key, c)] }
    else { s with cache := (key, c) :: s.cache }
  else s

/-- Compiles a text, or takes an earlier compilation of the same tokens. -/
def compile (s : Session) (text : Text) : Compiled × Session :=
  let key := s.key text
  match s.cache.lookup key with
  | some c => ({ c with text }, { s with hits := s.hits + 1 })
  | none =>
    let (c, types) := WatchExpr.compile (s.scope.context s.maxDepth) text
    let s := { s with scope := { s.scope with types }, misses := s.misses + 1 }
    (c, s.keep key c)

/-- Compiles a text and runs it. -/
def evaluate (s : Session) (text : Text) : Evaluation × Session :=
  let (c, s) := s.compile text
  (c.run s.machine, s)

/-- Changes how many compilations are kept. -/
def setCacheSize (s : Session) (n : Int) : Session :=
  { s with limit := n, cache := if n < s.cache.length then [] else s.cache }

def setProcedure (s : Session) (name : Text) : Session :=
  { s with scope := { s.scope with procedure := name } }

def addSymbol (s : Session) (scope : SymbolScope) (sym : Symbol) : Session :=
  { s with scope := s.scope.add scope sym }

end Session

end WatchExpr
