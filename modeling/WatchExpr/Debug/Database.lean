import WatchExpr.Debug.Info

namespace WatchExpr

/-- A row of the types table; sizes are stored as signed words. -/
structure TypeRow where
  name : Text
  kind : Text
  size : Int64
  base : Text
  deriving Repr, DecidableEq

/-- A row of the members table. The ordinal is the place of the member in its type. -/
structure MemberRow where
  typeName : Text
  ordinal : Nat
  name : Text
  type : Text
  offset : Int64
  deriving Repr, DecidableEq

structure SymbolRow where
  scope : Text
  name : Text
  type : Text
  location : Text
  register : Text
  offset : Int64
  code : List UInt8
  deriving Repr, DecidableEq

/-- The statements that a database engine carries out on a connection. A statement that fails says
why, and what it leaves behind is its own affair. Types and symbols are selected in the order of the
numbers that the engine gives to rows, members by the name of their type and then by ordinal. -/
structure Engine (σ : Type) where
  createTables : EStateM Text σ Unit
  begin : EStateM Text σ Unit
  commit : EStateM Text σ Unit
  rollback : σ → σ
  /-- Sets the value of a name in the table of settings. -/
  replaceSetting : (name value : Text) → EStateM Text σ Unit
  insertType : TypeRow → EStateM Text σ Unit
  insertMember : MemberRow → EStateM Text σ Unit
  insertSymbol : SymbolRow → EStateM Text σ Unit
  selectSetting : (name : Text) → EStateM Text σ (Option Text)
  selectTypes : EStateM Text σ (List TypeRow)
  selectMembers : EStateM Text σ (List MemberRow)
  selectSymbols : EStateM Text σ (List SymbolRow)

/-- Why a database cannot be written or read; causes are the words of the engine. -/
inductive DatabaseError where
  | creating (cause : Text)
  | starting (cause : Text)
  | writingSetting (cause : Text)
  | writingType (name cause : Text)
  | writingMember (typeName name cause : Text)
  | badCode (symbol : Text) (cause : Hex.Error)
  | writingSymbol (name cause : Text)
  | committing (cause : Text)
  | readingSetting (cause : Text)
  | readingTypes (cause : Text)
  | readingMembers (cause : Text)
  | orphanMember (member typeName : Text)
  | readingSymbols (cause : Text)
  deriving Repr, DecidableEq

def DatabaseError.message : DatabaseError → Text
  | creating cause => "debuginfo: creating tables: " ++ cause
  | starting cause => "debuginfo: " ++ cause
  | writingSetting cause => "debuginfo: writing meta: " ++ cause
  | writingType name cause => "debuginfo: writing type " ++ name ++ ": " ++ cause
  | writingMember typeName name cause =>
    "debuginfo: writing member " ++ typeName ++ "." ++ name ++ ": " ++ cause
  | badCode symbol cause => "debuginfo: symbol " ++ symbol ++ ": bad bytecode: " ++ cause.message
  | writingSymbol name cause => "debuginfo: writing symbol " ++ name ++ ": " ++ cause
  | committing cause => cause
  | readingSetting cause => "debuginfo: reading meta: " ++ cause
  | readingTypes cause => "debuginfo: reading types: " ++ cause
  | readingMembers cause => "debuginfo: reading members: " ++ cause
  | orphanMember member typeName =>
    "debuginfo: member " ++ member ++ " of unknown type " ++ typeName
  | readingSymbols cause => "debuginfo: reading symbols: " ++ cause

namespace Engine

def typeRow (d : TypeDecl) : TypeRow := ⟨d.name, d.kind, d.size.toInt64, d.base⟩

def memberRows (d : TypeDecl) : List MemberRow :=
  d.members.mapIdx fun i m => ⟨d.name, i, m.name, m.type, m.offset.toInt64⟩

def symbolRow (d : SymbolDecl) (code : List UInt8) : SymbolRow :=
  ⟨d.scope, d.name, d.type, d.location, d.register, d.offset, code⟩

def readType (row : TypeRow) : TypeDecl :=
  { name := row.name, kind := row.kind, size := row.size.toUInt64, base := row.base }

def readMember (row : MemberRow) : MemberDecl := ⟨row.name, row.type, row.offset.toUInt64⟩

def readSymbol (row : SymbolRow) : SymbolDecl :=
  ⟨row.scope, row.name, row.type, row.location, row.register, row.offset, Hex.encode row.code⟩

/-- Gives a member to the last type of a name. -/
def addMember? (name : Text) (m : MemberDecl) : List TypeDecl → Option (List TypeDecl)
  | [] => none
  | d :: ds =>
    match addMember? name m ds with
    | some ds' => some (d :: ds')
    | none => if d.name = name then some ({ d with members := d.members ++ [m] } :: ds) else none

def attachMember (types : List TypeDecl) (row : MemberRow) : Except DatabaseError (List TypeDecl) :=
  match addMember? row.typeName (readMember row) types with
  | some types' => .ok types'
  | none => .error (.orphanMember row.name row.typeName)

section
variable {σ : Type} (engine : Engine σ)

def writeMember (row : MemberRow) : EStateM DatabaseError σ Unit :=
  (engine.insertMember row).adaptExcept (.writingMember row.typeName row.name)

def writeType (d : TypeDecl) : EStateM DatabaseError σ Unit := do
  (engine.insertType (typeRow d)).adaptExcept (.writingType d.name)
  (memberRows d).forM (writeMember engine)

def writeSymbol (d : SymbolDecl) : EStateM DatabaseError σ Unit :=
  match Hex.decode d.code with
  | .error e => throw (.badCode d.name e)
  | .ok code => (engine.insertSymbol (symbolRow d code)).adaptExcept (.writingSymbol d.name)

/-- Writes all rows; it makes no difference which of the two settings comes first. -/
def writeRows (info : DebugInfo) : EStateM DatabaseError σ Unit := do
  (engine.replaceSetting "arch" info.arch).adaptExcept .writingSetting
  (engine.replaceSetting "procedure" info.procedure).adaptExcept .writingSetting
  info.types.forM (writeType engine)
  info.symbols.forM (writeSymbol engine)

/-- Stores declarations in one transaction, and makes the tables first. -/
def write (info : DebugInfo) : EStateM DatabaseError σ Unit := do
  engine.createTables.adaptExcept .creating
  engine.begin.adaptExcept .starting
  try
    writeRows engine info
  catch e =>
    modify engine.rollback
    throw e
  engine.commit.adaptExcept .committing

/-- The stored declarations. A setting that is not there is empty. -/
def read : EStateM DatabaseError σ DebugInfo := do
  let arch ← (engine.selectSetting "arch").adaptExcept .readingSetting
  let procedure ← (engine.selectSetting "procedure").adaptExcept .readingSetting
  let typeRows ← engine.selectTypes.adaptExcept .readingTypes
  let memberRows ← engine.selectMembers.adaptExcept .readingMembers
  match memberRows.foldlM attachMember (typeRows.map readType) with
  | .error e => throw e
  | .ok types =>
    let symbolRows ← engine.selectSymbols.adaptExcept .readingSymbols
    return { arch := arch.getD [], procedure := procedure.getD [], types
             symbols := symbolRows.map readSymbol }

end

end Engine

end WatchExpr
