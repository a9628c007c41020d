import WatchExpr.Evaluation.Session
import WatchExpr.Machine.Listing
import WatchExpr.Wire.Program
import WatchExpr.Wire.Message

namespace WatchExpr

inductive ServiceError where
  | emptyExpression
  | stopped
  | badRequest (cause : Cbor.Error)
  | badResponse (cause : Cbor.Error)
  deriving Repr, DecidableEq

inductive Transport where
  /-- A call in the same process. -/
  | direct
  | grpc
  | connect
  deriving Repr, DecidableEq

namespace ServiceError

def code : Transport → ServiceError → Text
  | .direct, _ => "do"
  | .grpc, emptyExpression => "InvalidArgument"
  | .grpc, stopped => "Unavailable"
  | .grpc, _ => "Internal"
  | .connect, stopped => "internal"
  | .connect, _ => "invalid_argument"

def message : Transport → ServiceError → Text
  | _, emptyExpression => "expression is required"
  | _, stopped => "server: worker pool stopped"
  | t, badRequest e =>
    let place : Text :=
      if t = .grpc then "grpc: error unmarshalling request" else "unmarshal message"
    place ++ ": wire: unmarshal *wire.EvaluateRequest: " ++ e.message
  | t, badResponse e =>
    let place : Text :=
      if t = .grpc then "grpc: failed to unmarshal the received message" else "unmarshal message"
    place ++ ": wire: unmarshal *wire.EvaluateResponse: " ++ e.message

end ServiceError

/-- A service over one session. -/
structure Server where
  session : Session
  running : Bool := true

structure Served where
  response : EvaluateResponse
  reads : List MemoryRead

namespace Server

def stop (s : Server) : Server := { s with running := false }

def programOf (s : Session) (c : Compiled) : List UInt8 :=
  let type := s.scope.types.describe c.type
  match Program.ofCompiled c s.scope.procedure s.scope.arch type with
  | .ok p => p.encode
  | .error _ => []

def respond (s : Session) (id : Text) (r : EvaluateRequest) (e : Evaluation) : EvaluateResponse :=
  let c := e.compiled
  let types := s.scope.types
  { id
    value := match e.value with
      | .ok v => types.formatValue e.type v
      | .error _ => []
    type := if c.ok then types.describe c.type else []
    status := e.outcome.elim [] (·.status.name)
    error := e.message?.getD []
    diagnostics := c.diagnostics.map .ofDiagnostic
    listing := if r.disassemble && c.ok then
        Code.listing r.expression ((c.valueCode.or c.code).getD []) else []
    program := if r.program && c.ok then programOf s c else [] }

/-- Evaluates a request, giving the response the identifier `id`. -/
def evaluate (s : Server) (id : Text) (r : EvaluateRequest) : Except ServiceError Served × Server :=
  if s.running then
    let (e, session) := s.session.evaluate r.expression
    (.ok ⟨respond session id r e, e.reads⟩, { s with session })
  else (.error .stopped, s)

/-- Serves a request; over a network an expression is required. -/
def serve (s : Server) (t : Transport) (id : Text) (r : EvaluateRequest) :
    Except ServiceError Served × Server :=
  if t ≠ .direct ∧ r.expression.isEmpty then (.error .emptyExpression, s) else s.evaluate id r

/-- Serves a request that travels as bytes, as does the response. -/
def serveBytes (s : Server) (t : Transport) (id : Text) (r : EvaluateRequest) :
    Except ServiceError Served × Server :=
  match EvaluateRequest.decode r.encode with
  | .error e => (.error (.badRequest e), s)
  | .ok received =>
    match s.serve t id received with
    | (.error e, s) => (.error e, s)
    | (.ok served, s) =>
      match EvaluateResponse.decode served.response.encode with
      | .error e => (.error (.badResponse e), s)
      | .ok response => (.ok { served with response }, s)

end Server

end WatchExpr
