import WatchExpr.Cbor.Record
import WatchExpr.Wire.Program

namespace WatchExpr

open Cbor (Item)

def Program.encode (p : Program) : List UInt8 := (p.marshal Cbor.recordCoder).toOption.getD []

def Program.decode (data : List UInt8) : Except ProgramError Program :=
  Program.unmarshal Cbor.recordCoder data

structure EvaluateRequest where
  expression : Text := []
  /-- Whether the answer should hold a listing of the code. -/
  disassemble : Bool := false
  /-- Whether the answer should hold the compiled program. -/
  program : Bool := false
  deriving Repr, DecidableEq

structure DiagnosticReport where
  offset : Int := 0
  severity : Text := []
  kind : Text := []
  message : Text := []
  deriving Repr, DecidableEq

/-- The answer to a request; absent parts are empty. -/
structure EvaluateResponse where
  id : Text := []
  value : Text := []
  type : Text := []
  status : Text := []
  error : Text := []
  diagnostics : List DiagnosticReport := []
  listing : Text := []
  program : List UInt8 := []
  deriving Repr, DecidableEq

def codecName : Text := "cbor"

namespace EvaluateRequest

def toItem (r : EvaluateRequest) : Item :=
  .ofFields
    [(1, some (.ofText r.expression)), (2, Item.ofFlag? r.disassemble), (3, Item.ofFlag? r.program)]

def setField (n : Nat) (x : Item) (r : EvaluateRequest) : Except Cbor.Error EvaluateRequest :=
  match n with
  | 1 => return { r with expression := ← x.toText }
  | 2 => return { r with disassemble := ← x.toBool }
  | 3 => return { r with program := ← x.toBool }
  | _ => return r

def encode (r : EvaluateRequest) : List UInt8 := r.toItem.write

def decode (data : List UInt8) : Except Cbor.Error EvaluateRequest :=
  Cbor.read data >>= (·.toRecord "wire.EvaluateRequest" {} setField)

end EvaluateRequest

namespace DiagnosticReport

def ofDiagnostic (d : Diagnostic) : DiagnosticReport :=
  ⟨d.offset, d.severity, d.kind.name, d.message⟩

def toItem (d : DiagnosticReport) : Item :=
  .ofFields
    [(1, some (.ofInt d.offset)), (2, some (.ofText d.severity)), (3, some (.ofText d.kind)),
      (4, some (.ofText d.message))]

def setField (n : Nat) (x : Item) (d : DiagnosticReport) :
    Except Cbor.Error DiagnosticReport :=
  match n with
  | 1 => return { d with offset := ← x.toInt }
  | 2 => return { d with severity := ← x.toText }
  | 3 => return { d with kind := ← x.toText }
  | 4 => return { d with message := ← x.toText }
  | _ => return d

def ofItem (x : Item) : Except Cbor.Error DiagnosticReport :=
  x.toRecord "wire.Diagnostic" {} setField

end DiagnosticReport

namespace EvaluateResponse

def toItem (r : EvaluateResponse) : Item :=
  let diagnostics :=
    if r.diagnostics.isEmpty then none else some (.array (r.diagnostics.map (·.toItem)))
  let program := if r.program.isEmpty then none else some (.bytes r.program)
  .ofFields
    [(1, some (.ofText r.id)), (2, Item.ofText? r.value), (3, Item.ofText? r.type),
      (4, Item.ofText? r.status), (5, Item.ofText? r.error), (6, diagnostics),
      (7, Item.ofText? r.listing), (8, program)]

def setField (n : Nat) (x : Item) (r : EvaluateResponse) :
    Except Cbor.Error EvaluateResponse :=
  match n with
  | 1 => return { r with id := ← x.toText }
  | 2 => return { r with value := ← x.toText }
  | 3 => return { r with type := ← x.toText }
  | 4 => return { r with status := ← x.toText }
  | 5 => return { r with error := ← x.toText }
  | 6 => return { r with
      diagnostics := ← (← x.toItems "[]wire.Diagnostic").mapM DiagnosticReport.ofItem }
  | 7 => return { r with listing := ← x.toText }
  | 8 => return { r with program := (← x.toBytes? "[]uint8").getD [] }
  | _ => return r

def encode (r : EvaluateResponse) : List UInt8 := r.toItem.write

def decode (data : List UInt8) : Except Cbor.Error EvaluateResponse :=
  Cbor.read data >>= (·.toRecord "wire.EvaluateResponse" {} setField)

end EvaluateResponse

end WatchExpr
