import WatchExpr.Text.Hex
import WatchExpr.Expression.TypeExpr

namespace WatchExpr

structure MemberDecl where
  name : Text := []
  type : Text := []
  offset : UInt64 := 0
  deriving Repr, DecidableEq

/-- A declared type: struct, class, union, enum or alias. -/
structure TypeDecl where
  name : Text := []
  kind : Text := []
  size : UInt64 := 0
  /-- The underlying type of an enum or the target of an alias. -/
  base : Text := []
  members : List MemberDecl := []
  deriving Repr, DecidableEq

structure SymbolDecl where
  scope : Text := []
  name : Text := []
  type : Text := []
  location : Text := []
  register : Text := []
  offset : Int64 := 0
  /-- Code in hexadecimal. -/
  code : Text := []
  deriving Repr, DecidableEq

/-- The declarations of one scope; types are written as type expressions. -/
structure DebugInfo where
  arch : Text := []
  procedure : Text := []
  types : List TypeDecl := []
  symbols : List SymbolDecl := []
  deriving Repr, DecidableEq

/-- The types and symbols visible at one place of the program. Of symbols with one name in one of
the lists the first counts. -/
structure DebugScope where
  arch : Arch
  types : TypeTable
  procedure : Text := []
  locals : List (Text × Symbol) := []
  globals : List (Text × Symbol) := []
  threadLocals : List (Text × Symbol) := []
  procedures : List (Text × Symbol) := []

inductive SymbolScope where
  | procLocal
  | global
  | threadLocal
  | procedure
  deriving Repr, DecidableEq

namespace DebugScope

def empty (arch : Arch) : DebugScope := { arch, types := TypeTable.empty arch.pointerSize }

/-- Adds a symbol, hiding an earlier one of the same name. -/
def add (s : DebugScope) (scope : SymbolScope) (sym : Symbol) : DebugScope :=
  match scope with
  | .procLocal => { s with locals := (sym.name, sym) :: s.locals }
  | .global => { s with globals := (sym.name, sym) :: s.globals }
  | .threadLocal => { s with threadLocals := (sym.name, sym) :: s.threadLocals }
  | .procedure => { s with procedures := (sym.name, sym) :: s.procedures }

def resolver (s : DebugScope) : Resolver where
  localSymbol? name := s.locals.lookup name
  globalSymbol? name := s.globals.lookup name
  threadLocal? name := s.threadLocals.lookup name
  procedure? name := s.procedures.lookup name
  procedureName := s.procedure

def context (s : DebugScope) (maxDepth : Int := 0) : Context :=
  { types := s.types, resolver := some s.resolver, arch := s.arch, maxDepth }

/-- Every symbol and type name, in byte order. -/
def names (s : DebugScope) : List Text :=
  let symbols := [s.locals, s.threadLocals, s.procedures, s.globals].flatMap (·.map Prod.fst)
  Text.sort (symbols ++ s.types.typeNames).eraseDups

end DebugScope

/-- Why declarations cannot be built into a scope. -/
inductive BuildError where
  | unknownArch (name : Text)
  | enumType (name : Text) (cause : TypeNameError)
  | enumBase (name : Text) (cause : TypeError)
  | aliasType (name : Text) (cause : TypeNameError)
  | unknownKind (name kind : Text)
  | memberType (record member : Text) (cause : TypeNameError)
  | memberPastEnd (record member : Text)
  | record (name : Text) (cause : TypeError)
  | namelessSymbol
  | symbolType (name : Text) (cause : TypeNameError)
  | typelessSymbol (name : Text)
  | unknownScope (name scope : Text)
  | unknownLocation (name location : Text)
  | badCode (name : Text) (cause : Hex.Error)
  | noCode (name : Text) (location : Location)
  | unknownRegister (name register : Text) (arch : Arch)
  deriving Repr, DecidableEq

def BuildError.message (e : BuildError) : Text :=
  let detail : Text :=
    match e with
    | unknownArch n => Arch.unknownMessage n
    | enumType n c => "enum " ++ n ++ ": " ++ c.message
    | enumBase n c => "enum " ++ n ++ ": " ++ c.message
    | aliasType n c => "alias " ++ n ++ ": " ++ c.message
    | unknownKind n k => "type " ++ n ++ ": unknown kind " ++ Quoted.quote k
    | memberType r m c => r ++ "." ++ m ++ ": " ++ c.message
    | memberPastEnd r m => r ++ "." ++ m ++ " extends past the end of the record"
    | record n c => n ++ ": " ++ c.message
    | namelessSymbol => "symbol without a name"
    | symbolType n c => "symbol " ++ n ++ ": " ++ c.message
    | typelessSymbol n => "symbol " ++ n ++ " has no type"
    | unknownScope n s => "symbol " ++ n ++ ": unknown scope " ++ Quoted.quote s
    | unknownLocation n l => "local " ++ n ++ ": unknown location " ++ Quoted.quote l
    | badCode n c => "local " ++ n ++ ": bad bytecode: " ++ c.message
    | noCode n l => "local " ++ n ++ ": location " ++ l.name ++ " needs code"
    | unknownRegister n r a =>
      "local " ++ n ++ ": unknown register " ++ Quoted.quote r ++ " for " ++ a.name
  "debuginfo: " ++ detail

namespace DebugInfo

def recordKind? (kind : Text) : Option RecordKind :=
  if kind = ("struct" : Text) then some .struct
  else if kind = ("class" : Text) then some .classType
  else if kind = ("union" : Text) then some .union
  else none

def forwardOf : RecordKind → ForwardKind
  | .struct => .struct
  | .classType => .classType
  | .union => .union

/-- Types under construction: the table and the announced records, the latest first. -/
structure Pending where
  types : TypeTable
  forwards : List (Text × TypeKey) := []

namespace Pending

/-- The key of a written type; an announced record stands in for one that is not defined yet. -/
def parse (p : Pending) (text : Text) : Except TypeNameError (TypeKey × Pending) := do
  let visible := { p.types with names := p.types.names ++ p.forwards }
  let (k, types) ← visible.parseName text
  return (k, { p with types := { types with names := p.types.names } })

def announce (p : Pending) (d : TypeDecl) : Pending :=
  match recordKind? d.kind with
  | none => p
  | some kind =>
    let (k, types) := p.types.append { kind := .incomplete (forwardOf kind), name := d.name }
    { types, forwards := (d.name, k) :: p.forwards }

/-- Defines an enum or alias; records are left for later. -/
def defineName (p : Pending) (d : TypeDecl) : Except BuildError Pending :=
  if (recordKind? d.kind).isSome then return p
  else if d.kind = ("enum" : Text) then do
    let base : Text := if d.base.isEmpty then "int" else d.base
    let (k, p) ← (p.parse base).mapError (.enumType d.name)
    let (_, types) ← (p.types.defineEnum d.name k).mapError (.enumBase d.name)
    return { p with types }
  else if d.kind = ("alias" : Text) || d.kind = ("typedef" : Text) then do
    let (k, p) ← (p.parse d.base).mapError (.aliasType d.name)
    return { p with types := (p.types.defineAlias d.name k).2 }
  else throw (.unknownKind d.name d.kind)

/-- The members of a record; each has to end within the declared size. -/
def members (p : Pending) (d : TypeDecl) : Except BuildError (List Member × Pending) :=
  d.members.foldlM (fun (ms, p) m => do
    let (type, p) ← (p.parse m.type).mapError (.memberType d.name m.name)
    if m.offset + p.types.byteSize type > d.size then throw (.memberPastEnd d.name m.name)
    return (ms ++ [⟨m.name, type, m.offset⟩], p)) ([], p)

def defineRecord (p : Pending) (d : TypeDecl) : Except BuildError Pending :=
  match recordKind? d.kind with
  | none => return p
  | some kind => do
    let (ms, p) ← p.members d
    let (k, types) := p.types.add
      { kind := .record kind, name := d.name, size := d.size, members := ms }
    match p.forwards.lookup d.name with
    | none => return { p with types }
    | some forward =>
      let types ← (types.complete forward k).mapError (.record d.name)
      return { p with types }

end Pending

/-- Defines all types: announcements first, then enums and aliases, then records. -/
def defineTypes (types : TypeTable) (decls : List TypeDecl) : Except BuildError Pending := do
  let announced := decls.foldl Pending.announce { types }
  let named ← decls.foldlM Pending.defineName announced
  decls.foldlM Pending.defineRecord named

/-- Code that computes the frame base plus an offset. -/
def frameOffset (offset : Int64) : List UInt8 :=
  if 0 ≤ offset ∧ offset ≤ 0xffffffff then Code.emitWith [] (.base .frame) offset.toUInt64
  else
    Code.emitGroup (Code.emitConst (Code.emitWith [] (.base .frame) 0) offset.toUInt64)
      (.binary .add) .u

def locate (arch : Arch) (sym : Symbol) (d : SymbolDecl) : Except BuildError Symbol :=
  if d.location = ("frame" : Text) then
    return { sym with location := .addressCode, code := frameOffset d.offset }
  else
    match Location.ofName? d.location with
    | none => throw (.unknownLocation d.name d.location)
    | some location =>
      match location with
      | .addressCode | .valueCode =>
        match Hex.decode (d.code.filter (· != 0x20)) with
        | .error e => throw (.badCode d.name e)
        | .ok code =>
          if code.isEmpty then throw (.noCode d.name location)
          else return { sym with location, code }
      | .registerOffset | .registerOffsetStored | .register =>
        match arch.register? d.register with
        | none => throw (.unknownRegister d.name d.register arch)
        | some r => return { sym with location, register := r.code.toUInt8 }
      | _ => return { sym with location }

def symbolType (p : Pending) (d : SymbolDecl) : Except BuildError (TypeKey × Pending) :=
  if !d.type.isEmpty then (p.parse d.type).mapError (.symbolType d.name)
  else if d.scope = ("procedure" : Text) then
    let (k, types) := p.types.defineFunction (.basic .void) []
    return (k, { p with types })
  else throw (.typelessSymbol d.name)

def addSymbol (s : DebugScope) (forwards : List (Text × TypeKey)) (d : SymbolDecl) :
    Except BuildError DebugScope := do
  if d.name.isEmpty then throw .namelessSymbol
  let (type, p) ← symbolType ⟨s.types, forwards⟩ d
  let s := { s with types := p.types }
  let sym : Symbol := { name := d.name, type, offset := d.offset }
  let scope := Text.foldCase d.scope
  if scope.isEmpty || scope = ("local" : Text) then
    return s.add .procLocal (← locate s.arch sym d)
  else if scope = ("global" : Text) then return s.add .global sym
  else if scope = ("tls" : Text) then return s.add .threadLocal sym
  else if scope = ("procedure" : Text) then return s.add .procedure sym
  else throw (.unknownScope d.name d.scope)

def build (info : DebugInfo) : Except BuildError DebugScope := do
  let some arch := Arch.ofName? info.arch | throw (.unknownArch info.arch)
  let p ← defineTypes (TypeTable.empty arch.pointerSize) info.types
  let scope := { DebugScope.empty arch with types := p.types, procedure := info.procedure }
  info.symbols.foldlM (fun s d => addSymbol s p.forwards d) scope

end DebugInfo

end WatchExpr
