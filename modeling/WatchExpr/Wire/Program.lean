import WatchExpr.Wire.Record
import WatchExpr.Text.Hex
import WatchExpr.Lexical.Fingerprint
import WatchExpr.Lowering.Compile

namespace WatchExpr

/-- A stored program. -/
structure Program where
  version : UInt8 := 0
  /-- The fingerprint of the source in its scope. -/
  hash : List UInt8 := List.replicate 32 0
  source : Text := []
  /-- The enclosing procedure. -/
  scope : Text := []
  arch : Text := []
  code : Option (List UInt8) := none
  /-- The name of the result type. -/
  type : Text := []
  /-- Whether the code computes the value rather than its address. -/
  isValue : Bool := false
  deriving Repr, DecidableEq

/-- Why there is no program, or none to trust. -/
inductive ProgramError where
  | notCompiled (text : Text) (diagnostics : List Diagnostic)
  | malformed (cause : Text)
  | unsupportedVersion (version : UInt8)
  | hashMismatch (declared computed : List UInt8)
  | compileFailed (message : Text)
  | codeMismatch (source : Text)

def ProgramError.message (e : ProgramError) : Text :=
  let detail : Text :=
    match e with
    | notCompiled t ds =>
      Quoted.quote t ++ " did not compile: " ++ (Diagnostic.summary? ds).getD []
    | malformed cause => "unmarshal program: " ++ cause
    | unsupportedVersion v => "unsupported program version " ++ Text.decimal v.toNat
    | hashMismatch declared computed =>
      "hash mismatch: declared " ++ Hex.encode declared ++ ", computed " ++ Hex.encode computed
    | compileFailed message => "compile failed: " ++ message
    | codeMismatch source => "code mismatch for " ++ Quoted.quote source
  "wire: " ++ detail

namespace Program

def currentVersion : UInt8 := 1

/-- The program of an expression that compiled: its value code, or else the code of its address. -/
def ofCompiled (c : Compiled) (scope : Text) (arch : Arch) (type : Text) :
    Except ProgramError Program :=
  if c.ok then
    .ok
      { version := currentVersion, hash := Fingerprint.inScope c.text scope, source := c.text,
        scope, arch := arch.name, code := c.valueCode.or c.code, type,
        isValue := c.valueCode.isSome }
  else .error (.notCompiled c.text c.diagnostics)

abbrev recordType : RecordType where
  name := "wire.Program"
  fields :=
    [⟨1, .byte, false⟩, ⟨2, .block 32, false⟩, ⟨3, .text, false⟩, ⟨4, .text, true⟩,
      ⟨5, .text, true⟩, ⟨6, .bytes, false⟩, ⟨7, .text, true⟩, ⟨8, .flag, true⟩]

def values (p : Program) : RecordField.Values recordType.fields :=
  (p.version, p.hash, p.source, p.scope, p.arch, p.code, p.type, p.isValue, ())

def ofValues : RecordField.Values recordType.fields → Program
  | (version, hash, source, scope, arch, code, type, isValue, ()) =>
    { version, hash, source, scope, arch, code, type, isValue }

variable (coder : RecordCoder)

def marshal (p : Program) : Except Text (List UInt8) := coder.marshal recordType p.values

/-- Reads a stored program of the current version. -/
def unmarshal (data : List UInt8) : Except ProgramError Program := do
  let p := ofValues (← (coder.unmarshal recordType data).mapError .malformed)
  if p.version = currentVersion then return p else throw (.unsupportedVersion p.version)

def checkHash (p : Program) : Except ProgramError Unit :=
  let computed := Fingerprint.inScope p.source p.scope
  if p.hash = computed then .ok () else .error (.hashMismatch p.hash computed)

def checkCode (p : Program) (c : Compiled) : Except ProgramError Unit :=
  let code := if p.isValue then c.valueCode else c.code
  if code.getD [] = p.code.getD [] then .ok () else .error (.codeMismatch p.source)

/-- Checks a program against a compiler. -/
def verify (p : Program) (compile : Text → Except Text Compiled) : Except ProgramError Unit := do
  p.checkHash
  let c ← (compile p.source).mapError .compileFailed
  p.checkCode c

end Program

/-- A compilation, refused with its diagnostics when one of them is an error. -/
def Compiled.checked (c : Compiled) : Except Text Compiled :=
  match Diagnostic.summary? c.diagnostics with
  | none => .ok c
  | some message => .error message

end WatchExpr
