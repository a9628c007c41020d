import WatchExpr.Lowering.Lower
import WatchExpr.Expression.Parser

namespace WatchExpr

/-- The result of compiling one expression. -/
structure Compiled where
  text : Text
  ast : Expr
  /-- What the expression lowered to, with its type and mode, when it had no errors by then. -/
  lowered : Option Lowered := none
  code : Option (List UInt8) := none
  valueTree : Option Node := none
  valueCode : Option (List UInt8) := none
  diagnostics : List Diagnostic

namespace Compiled

def ok (c : Compiled) : Bool := c.code.isSome && !Diagnostic.anyError c.diagnostics

/-- The type of the result, none unless it lowered. -/
def type (c : Compiled) : TypeKey := c.lowered.elim .zero (·.type)

def modeName (c : Compiled) : Text := c.lowered.elim "null" (·.mode.name)

end Compiled

/-- Compiles a text; gives the result and the table with the types it has added. -/
def compile (c : Context) (text : Text) : Compiled × TypeTable :=
  let (ast, parseDiagnostics) := Parser.parse c text (Lexer.scan text)
  let (lowered, s) := (Lowering.lower ast).run { types := c.types }
  let diagnostics := parseDiagnostics ++ s.diagnostics
  match lowered with
  | some r =>
    if Diagnostic.anyError diagnostics then ({ text, ast, diagnostics }, s.types)
    else
      match r.node.encode with
      | .error e =>
        ({ text, ast, lowered, diagnostics := diagnostics ++ [⟨0, .cannotEncode e⟩] }, s.types)
      | .ok code =>
        match s.types.load r with
        | (none, types) => ({ text, ast, lowered, code := some code, diagnostics }, types)
        | (some v, types) =>
          match v.node.encode with
          | .ok valueCode =>
            ({ text, ast, lowered, code := some code, valueTree := some v.node,
               valueCode := some valueCode, diagnostics }, types)
          | .error e =>
            ({ text, ast, lowered, code := some code,
               diagnostics := diagnostics ++ [⟨0, .cannotEncodeValue e⟩] }, types)
  | none =>
    let unexplained := ast.isMissing && !Diagnostic.anyError diagnostics
    let extra := if unexplained then [⟨0, .expectedExpression⟩] else []
    ({ text, ast, diagnostics := diagnostics ++ extra }, s.types)

end WatchExpr
