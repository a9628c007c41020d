import WatchExpr.Config.Toml.Document
import WatchExpr.Text.Basic

namespace WatchExpr.Path

def separator : UInt8 := 0x2f

def isAbsolute (p : Text) : Bool := p.head? = some separator

/-- One step of normalization: `.` and empty names vanish, `..` takes back the name before it. At
the root there is nothing to take back; a relative path keeps its leading `..` names. -/
def addName (rooted : Bool) (names : List Text) (name : Text) : List Text :=
  if name.isEmpty || name = ("." : Text) then names
  else if name = (".." : Text) then
    match names.getLast? with
    | none => if rooted then [] else [name]
    | some last => if last = (".." : Text) then names ++ [name] else names.dropLast
  else names ++ [name]

/-- The shortest path with the same meaning. -/
def clean (p : Text) : Text :=
  let rooted := isAbsolute p
  let names := (p.splitOn separator).foldl (addName rooted) []
  let body := Text.join [separator] names
  if rooted then separator :: body else if body.isEmpty then "." else body

/-- A path below a directory, normalized. -/
def join (dir p : Text) : Text := clean (dir ++ separator :: p)

def lastName (p : Text) : Text := ((p.splitOn separator).getLast?).getD []

/-- The last name from its last dot on, empty without a dot. -/
def extension (p : Text) : Text :=
  let name := lastName p
  if name.contains 0x2e then 0x2e :: (name.reverse.takeWhile (· != 0x2e)).reverse else []

end WatchExpr.Path

namespace WatchExpr

structure Settings where
  arch : Text := []
  stackCapacity : Int := 0
  maxDepth : Int := 0
  trace : Bool := false
  verbosity : Int := 0
  logFile : Text := []
  fixture : Text := []
  database : Text := []
  address : Text := []
  grpcAddress : Text := []
  workers : Int := 0
  /-- The directory of the configuration file, empty without one. -/
  dir : Text := []
  deriving Repr, DecidableEq

/-- Why a configuration text gives no settings. -/
inductive SettingsError where
  | syntaxError (cause : Toml.SyntaxError)
  /-- A value of another type than the setting. -/
  | wrongType (path : List Text)
  /-- Settings out of range, in alphabetical order. -/
  | outOfRange (names : List Text)
  deriving Repr, DecidableEq

namespace Settings

def fileName : Text := "dbgeval.toml"

/-- Gives every setting that is zero or empty its default. -/
def withDefaults (s : Settings) : Settings :=
  { s with
    stackCapacity := if s.stackCapacity = 0 then 1024 else s.stackCapacity
    maxDepth := if s.maxDepth = 0 then 256 else s.maxDepth
    address := if s.address.isEmpty then "localhost:7171" else s.address
    grpcAddress := if s.grpcAddress.isEmpty then "localhost:7172" else s.grpcAddress
    workers := if s.workers = 0 then 4 else s.workers }

def default : Settings := withDefaults {}

/-- The accepted names of architectures; the empty name leaves it to the target. -/
def archNames : List Text :=
  ["", "none", "x64", "amd64", "x86_64", "x86-64", "x86", "i386", "386"]

/-- The settings out of range, in alphabetical order. -/
def violations (s : Settings) : List Text :=
  let between (low high n : Int) : Bool := low ≤ n && n ≤ high
  let checks : List (Text × Bool) :=
    [("evaluator.arch", archNames.contains s.arch),
      ("evaluator.max-depth", between 1 65536 s.maxDepth),
      ("evaluator.stack-capacity", between 1 1048576 s.stackCapacity),
      ("log.verbosity", between (-4) 2 s.verbosity),
      ("server.addr", !s.address.isEmpty),
      ("server.grpc-addr", !s.grpcAddress.isEmpty),
      ("server.workers", between 1 256 s.workers)]
  (checks.filter fun c => !c.2).map Prod.fst

/-- How a value is stored in a setting; absent for a value of another type. -/
abbrev Store := Toml.Value → Settings → Option Settings

def storeInteger (f : Int → Settings → Settings) : Store
  | .scalar (.integer n), s => some (f n s)
  | _, _ => none

def storeText (f : Text → Settings → Settings) : Store
  | .scalar (.text t), s => some (f t s)
  | _, _ => none

def storeFlag (f : Bool → Settings → Settings) : Store
  | .scalar (.flag b), s => some (f b s)
  | _, _ => none

def stores : List (Text × List (Text × Store)) :=
  [("evaluator",
      [("arch", storeText fun t s => { s with arch := t }),
        ("stack-capacity", storeInteger fun n s => { s with stackCapacity := n }),
        ("max-depth", storeInteger fun n s => { s with maxDepth := n }),
        ("trace", storeFlag fun b s => { s with trace := b })]),
    ("log",
      [("verbosity", storeInteger fun n s => { s with verbosity := n }),
        ("file", storeText fun t s => { s with logFile := t })]),
    ("target",
      [("fixture", storeText fun t s => { s with fixture := t }),
        ("database", storeText fun t s => { s with database := t })]),
    ("server",
      [("addr", storeText fun t s => { s with address := t }),
        ("grpc-addr", storeText fun t s => { s with grpcAddress := t }),
        ("workers", storeInteger fun n s => { s with workers := n })])]

/-- Stores the value of a key in a table; keys match in either case, and unknown ones are passed
over. -/
def setKey (table : Text) (keys : List (Text × Store)) (s : Settings) (entry : Text × Toml.Value) :
    Except SettingsError Settings :=
  match keys.lookup (Text.caseKey entry.1) with
  | none => .ok s
  | some store =>
    match store entry.2 s with
    | some s => .ok s
    | none => .error (.wrongType [table, entry.1])

def setTable (s : Settings) (entry : Text × Toml.Value) : Except SettingsError Settings :=
  match stores.lookup (Text.caseKey entry.1), entry.2 with
  | none, _ => .ok s
  | some keys, .table entries => entries.foldlM (setKey entry.1 keys) s
  | some _, _ => .error (.wrongType [entry.1])

def read (dir text : Text) : Except SettingsError Settings := do
  let root ← (Toml.read text).mapError .syntaxError
  let s ← root.foldlM setTable { dir }
  let s := s.withDefaults
  if s.violations.isEmpty then return s else throw (.outOfRange s.violations)

/-- A path relative to the configuration file; empty and absolute ones stay as they are. -/
def resolve (s : Settings) (p : Text) : Text :=
  if p.isEmpty || Path.isAbsolute p || s.dir.isEmpty then p else Path.join s.dir p

def fixturePath (s : Settings) : Text := s.resolve s.fixture

def databasePath (s : Settings) : Text := s.resolve s.database

/-- The log file; none means the standard error stream. -/
def logPath? (s : Settings) : Option Text :=
  if s.logFile.isEmpty then none else some (s.resolve s.logFile)

end Settings

end WatchExpr
