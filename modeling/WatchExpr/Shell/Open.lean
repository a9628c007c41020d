import WatchExpr.Config.Settings
import WatchExpr.Debug.Fixture
import WatchExpr.Debug.Tables
import WatchExpr.Evaluation.Session

namespace WatchExpr

structure Shell where
  session : Session
  snapshot : Snapshot := {}
  /-- Whether every expression is followed by a listing of its code. -/
  listings : Bool := false

/-- Where a shell comes from; paths are for messages. -/
structure Sources where
  fixture : Option (Text × FixtureFile) := none
  database : Option (Text × Database) := none
  arch : Text := []

inductive OpenError where
  | badFixture (cause : FixtureError)
  | badDatabase (cause : DatabaseError)
  | badScope (cause : BuildError)
  | archConflict (path : Text) (database fixture : Arch)
  | unknownArch (name : Text)
  | archMismatch (asked loaded : Arch)
  deriving Repr, DecidableEq

def OpenError.message : OpenError → Text
  | badFixture cause => cause.message
  | badDatabase cause => cause.message
  | badScope cause => cause.message
  | archConflict path database fixture =>
    path ++ " is " ++ database.name ++ " but the fixture is " ++ fixture.name
  | unknownArch name => Arch.unknownMessage name
  | archMismatch asked loaded =>
    "-arch " ++ asked.name ++ " does not match the loaded " ++ loaded.name ++ " target"

namespace Shell

/-- Reads the scope of a database; its architecture has to be that of the recorded stop. -/
def databaseScope (fixture : Option Fixture) (path : Text) (db : Database) :
    Except OpenError DebugScope := do
  let info ← db.read.mapError .badDatabase
  let scope ← info.build.mapError .badScope
  match fixture with
  | some f => if f.scope.arch ≠ scope.arch then throw (.archConflict path scope.arch f.scope.arch)
  | none => pure ()
  return scope

def parseArch (name : Text) : Except OpenError Arch :=
  match Arch.ofName? name with
  | some a => .ok a
  | none => .error (.unknownArch name)

/-- The scope of a shell: that of the database, else that of the recorded stop, else an empty one
for the architecture asked for or set. -/
def scopeOf (settings : Settings) (sources : Sources) (fixture : Option Fixture) :
    Except OpenError DebugScope := do
  let loaded ←
    match sources.database with
    | some (path, db) => pure (some (← databaseScope fixture path db))
    | none => pure (fixture.map (·.scope))
  match loaded with
  | none =>
    let name := if sources.arch.isEmpty then settings.arch else sources.arch
    return DebugScope.empty (← parseArch name)
  | some scope =>
    if !sources.arch.isEmpty then
      let asked ← parseArch sources.arch
      if asked ≠ scope.arch then throw (.archMismatch asked scope.arch)
    return scope

/-- Opens a shell. Without a recorded stop the target has no bases, so only expressions that read
nothing have values. -/
def ofSources (settings : Settings) (sources : Sources) : Except OpenError Shell := do
  let fixture ← sources.fixture.mapM fun (path, file) => (file.load path).mapError .badFixture
  let scope ← scopeOf settings sources fixture
  let snapshot := fixture.elim {} (·.snapshot)
  let machine : Machine :=
    { target := some snapshot.target, layout := scope.arch
      capacity := stackCapacity settings.stackCapacity }
  return { session := { scope, machine, maxDepth := settings.maxDepth }, snapshot }

def describe (s : Shell) : Text :=
  let scope := s.session.scope
  let procedure : Text := if scope.procedure.isEmpty then "<no procedure>" else scope.procedure
  scope.arch.name ++ " in " ++ procedure ++ ", " ++ Text.decimal s.snapshot.regions.length
    ++ " regions"

end Shell

end WatchExpr
