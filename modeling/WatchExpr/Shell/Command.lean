import WatchExpr.Shell.Transcript

namespace WatchExpr

abbrev Files := List (Text × List UInt8)

structure Invocation where
  expressions : List Text := []
  /-- Where to store the program of the one expression. -/
  emitTo : Option Text := none
  /-- The stored program to run. -/
  runFrom : Option Text := none
  interactive : Bool := false
  input : Text := []

structure Completed where
  exitCode : Nat := 0
  transcript : Transcript := {}
  shell : Shell
  files : Files

namespace Shell

def complaint (message : Text) : Transcript := { err := "Error: " ++ message ++ "\n" }

/-- Evaluates expressions in turn; the exit code tells whether all have values. -/
def evaluateAll (s : Shell) (expressions : List Text) : (Nat × Transcript) × Shell :=
  expressions.foldl (fun ((code, t), s) e =>
    let ((ok, shown), s) := s.evaluate e
    ((if ok then code else 1, t ++ shown), s)) ((0, {}), s)

/-- Stores the program of exactly one expression. -/
def store (s : Shell) (files : Files) (path : Text) (expressions : List Text) : Completed :=
  match expressions with
  | [e] =>
    match s.emit e with
    | (.ok data, shell) => { shell, files := (path, data) :: files }
    | (.error err, shell) => { exitCode := 1, transcript := complaint err, shell, files }
  | _ =>
    { exitCode := 2, transcript := complaint "-emit takes exactly one expression", shell := s
      files }

/-- Carries out an invocation. Storing wins over running, and running over evaluating; without
expressions the input is read interactively. -/
def perform (s : Shell) (files : Files) (i : Invocation) : Completed :=
  match i.emitTo, i.runFrom with
  | some path, _ => s.store files path i.expressions
  | none, some path =>
    match s.runProgram path (files.lookup path) with
    | (.ok out, shell) => { transcript := { out }, shell, files }
    | (.error e, shell) => { exitCode := 1, transcript := complaint e.message, shell, files }
  | none, none =>
    let ((exitCode, t), shell) := s.evaluateAll i.expressions
    if i.interactive || i.expressions.isEmpty then
      let (more, shell) := shell.repl false i.input
      { exitCode, transcript := t ++ more, shell, files }
    else { exitCode, transcript := t, shell, files }

end Shell

end WatchExpr
