import WatchExpr.Wire.Message
import WatchExpr.Machine.Listing
import WatchExpr.Shell.Open
import WatchExpr.Text.Utf8
import WatchExpr.Wire.Program

namespace WatchExpr

/-- Text written to the output and to the error stream. -/
structure Transcript where
  out : Text := []
  err : Text := []
  deriving Repr, DecidableEq

instance : Append Transcript := ⟨fun a b => ⟨a.out ++ b.out, a.err ++ b.err⟩⟩

/-- A diagnostic with a caret under its column; tabs keep their width. -/
def Diagnostic.pointed (input : Text) (d : Diagnostic) : Text :=
  let margin := (input.take d.offset).map fun c => if c == 0x09 then c else 0x20
  d.severity ++ ": " ++ d.message ++ "\n  " ++ input ++ "\n  " ++ margin ++ "^\n"

/-- Why a stored program cannot be run. -/
inductive RunError where
  | unreadable (path : Text)
  | program (cause : ProgramError)
  | otherArch (path programArch : Text) (arch : Arch)
  | noValue (path source : Text)
  | fault (source : Text) (cause : Fault)

def RunError.message : RunError → Text
  | unreadable path =>
    "cannot read " ++ path ++ ": open " ++ path ++ ": no such file or directory"
  | program cause => cause.message
  | otherArch path programArch arch =>
    path ++ " targets " ++ programArch ++ ", session is " ++ arch.name
  | noValue path source =>
    path ++ ": " ++ Quoted.quote source ++ ": expression has no scalar value"
  | fault source cause => source ++ ": bytecode: " ++ cause.message

namespace Shell

/-- Evaluates an expression and prints its value; tells whether it has one. -/
def evaluate (s : Shell) (input : Text) : (Bool × Transcript) × Shell :=
  let (e, session) := s.session.evaluate input
  let types := session.scope.types
  let c := e.compiled
  let complaints := c.diagnostics.flatMap (·.pointed input)
  let result : Transcript :=
    match e.value with
    | .ok v => { out := types.describeValue e.type v ++ "\n" }
    | .error err =>
      if c.ok then { err := "error: " ++ err.message ++ " (" ++ types.describe c.type ++ ")\n" }
      else {}
  let listing : Text :=
    if s.listings && c.ok then Code.listing input ((c.valueCode.or c.code).getD []) else []
  ((e.message?.isNone, { err := complaints } ++ result ++ { out := listing }), { s with session })

/-- Compiles an expression to a stored program. -/
def emit (s : Shell) (input : Text) : Except Text (List UInt8) × Shell :=
  let (c, session) := s.session.compile input
  let scope := session.scope
  let p := Program.ofCompiled c scope.procedure scope.arch (scope.types.describe c.type)
  (p.mapError (·.message) >>= (·.marshal Cbor.recordCoder), { s with session })

/-- Runs the value code of a checked program. -/
def execute (s : Shell) (path : Text) (p : Program) (c : Compiled) : Except RunError Text := do
  if !p.isValue then throw (.noValue path p.source)
  let v ← (s.session.machine.execute (p.code.getD [])).result.mapError (.fault p.source)
  return s.session.scope.types.formatValue c.type v ++ " (" ++ p.type ++ ")\n"

/-- Runs a stored program, provided that it still compiles to the same code here. -/
def runProgram (s : Shell) (path : Text) (data : Option (List UInt8)) :
    Except RunError Text × Shell :=
  match data with
  | none => (.error (.unreadable path), s)
  | some data =>
    let arch := s.session.scope.arch
    let loaded : Except RunError Program := do
      let p ← (Program.decode data).mapError .program
      if p.arch ≠ arch.name then throw (.otherArch path p.arch arch)
      p.checkHash.mapError .program
      return p
    match loaded with
    | .error e => (.error e, s)
    | .ok p =>
      let (c, session) := s.session.compile p.source
      let s := { s with session }
      let result : Except RunError Text := do
        let c ← c.checked.mapError fun message => .program (.compileFailed message)
        (p.checkCode c).mapError .program
        s.execute path p c
      (result, s)

def help : Text :=
  Text.join "\n"
    ["REPL Commands:",
      "  :help, :h, :?     Show this help",
      "  :info             Show the current stop location",
      "  :names [prefix]   List symbols and types",
      "  :disasm           Toggle bytecode listings",
      "  :stats            Show compile cache statistics",
      "  exit, quit        Exit REPL", ""]

/-- Carries out a command that begins with a colon. -/
def command (s : Shell) (line : Text) : Text × Shell :=
  let name := line.takeWhile (· != 0x20)
  let argument := Text.trim (line.drop name.length)
  if name = (":help" : Text) || name = (":h" : Text) || name = (":?" : Text) then (help, s)
  else if name = (":info" : Text) then (s.describe ++ "\n", s)
  else if name = (":names" : Text) then
    ((s.session.scope.names.filter (·.startsWith argument)).flatMap (· ++ [0x0a]), s)
  else if name = (":disasm" : Text) then
    let s := { s with listings := !s.listings }
    ("Listings " ++ (if s.listings then "on" else "off") ++ "\n", s)
  else if name = (":stats" : Text) then
    (Text.decimal s.session.hits ++ " hits, " ++ Text.decimal s.session.misses ++ " misses\n", s)
  else ("Unknown command: " ++ line ++ " (type :help for commands)\n", s)

/-- A line of this length or more ends the input. -/
def maxLine : Nat := 65536

def inputLines (t : Text) : List Text :=
  let pieces := t.splitOn 0x0a
  let pieces := if pieces.getLast? = some [] then pieces.dropLast else pieces
  pieces.takeWhile (·.length < maxLine)

/-- What one line of input shows; none when it asks to leave. -/
def answerLine (s : Shell) (line : Text) : Option (Transcript × Shell) :=
  let line := line.trim
  if line.isEmpty then some ({}, s)
  else if line = ("exit" : Text) || line = ("quit" : Text) then none
  else if line.head? = some 0x3a then
    let (out, s) := s.command line
    some ({ out }, s)
  else
    let ((_, shown), s) := s.evaluate line
    some (shown, s)

/-- Stands before each line of input. -/
def promptMark : Text := ">> "

/-- Answers lines until the input ends or one asks to leave. -/
def interact (prompt : Bool) : List Text → Shell → Transcript × Shell
  | [], s => ({ out := if prompt then promptMark ++ [0x0a] else [] }, s)
  | line :: rest, s =>
    let mark : Transcript := { out := if prompt then promptMark else [] }
    match s.answerLine line with
    | none => (mark, s)
    | some (shown, s) =>
      let (t, s) := interact prompt rest s
      (mark ++ shown ++ t, s)

/-- Greets at the start of an interactive session. -/
def banner (s : Shell) : Text :=
  "dbgeval REPL, " ++ s.describe ++ " (type 'exit' to quit, ':help' for commands)\n\n"

/-- An interactive session over an input, with a banner when it prompts. -/
def repl (prompt : Bool) (input : Text) (s : Shell) : Transcript × Shell :=
  let (t, after) := interact prompt (inputLines input) s
  ({ out := if prompt then s.banner else [] } ++ t, after)

end Shell

end WatchExpr
