import WatchExpr.Debug.Database

namespace WatchExpr

/-- Tables in memory, each in the order of insertion. -/
structure Tables where
  settings : List (Text × Text) := []
  types : List TypeRow := []
  members : List MemberRow := []
  symbols : List SymbolRow := []
  deriving Repr, DecidableEq

/-- A database in memory, whose tables are absent until they are made. -/
abbrev Database := Option Tables

/-- A connection to a database, with what a rollback goes back to. -/
structure Connection where
  database : Database := none
  saved : Database := none
  deriving Repr, DecidableEq

namespace Connection

/-- A statement on the tables, which have to be there. -/
def onTables {α : Type} (table : Text) (f : Tables → Except Text (α × Tables)) :
    EStateM Text Connection α := fun s =>
  match s.database with
  | none => .error ("SQL logic error: no such table: " ++ table ++ " (1)") s
  | some t =>
    match f t with
    | .error e => .error e s
    | .ok (a, t) => .ok a { s with database := some t }

def notUnique (columns code : Text) : Text :=
  "constraint failed: UNIQUE constraint failed: " ++ columns ++ " (" ++ code ++ ")"

def replaceSetting (name value : Text) : EStateM Text Connection Unit :=
  onTables "meta" fun t => .ok ((), { t with settings := (name, value) :: t.settings })

def insertType (row : TypeRow) : EStateM Text Connection Unit :=
  onTables "types" fun t =>
    if t.types.any (·.name = row.name) then .error (notUnique "types.name" "2067")
    else .ok ((), { t with types := t.types ++ [row] })

def insertMember (row : MemberRow) : EStateM Text Connection Unit :=
  onTables "members" fun t =>
    if t.members.any fun m => m.typeName = row.typeName ∧ m.ordinal = row.ordinal then
      .error (notUnique "members.type_name, members.ordinal" "1555")
    else .ok ((), { t with members := t.members ++ [row] })

def insertSymbol (row : SymbolRow) : EStateM Text Connection Unit :=
  onTables "symbols" fun t => .ok ((), { t with symbols := t.symbols ++ [row] })

def selectSetting (name : Text) : EStateM Text Connection (Option Text) :=
  onTables "meta" fun t => .ok (t.settings.lookup name, t)

def selectTypes : EStateM Text Connection (List TypeRow) :=
  onTables "types" fun t => .ok (t.types, t)

/-- By type name, then by ordinal. -/
def memberLe (a b : MemberRow) : Bool :=
  if a.typeName = b.typeName then a.ordinal ≤ b.ordinal else Text.le a.typeName b.typeName

def selectMembers : EStateM Text Connection (List MemberRow) :=
  onTables "members" fun t => .ok (t.members.mergeSort memberLe, t)

def selectSymbols : EStateM Text Connection (List SymbolRow) :=
  onTables "symbols" fun t => .ok (t.symbols, t)

def engine : Engine Connection where
  createTables := modify fun s => { s with database := some (s.database.getD {}) }
  begin := modify fun s => { s with saved := s.database }
  commit := pure ()
  rollback s := { s with database := s.saved }
  replaceSetting := replaceSetting
  insertType := insertType
  insertMember := insertMember
  insertSymbol := insertSymbol
  selectSetting := selectSetting
  selectTypes := selectTypes
  selectMembers := selectMembers
  selectSymbols := selectSymbols

end Connection

namespace Database

def write (db : Database) (info : DebugInfo) : Except DatabaseError Unit × Database :=
  match Connection.engine.write info { database := db } with
  | .ok _ s => (.ok (), s.database)
  | .error e s => (.error e, s.database)

def read (db : Database) : Except DatabaseError DebugInfo :=
  match Connection.engine.read { database := db } with
  | .ok info _ => .ok info
  | .error e _ => .error e

end Database

end WatchExpr
