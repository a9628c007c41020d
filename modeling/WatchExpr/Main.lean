import WatchExpr.Shell.Command
import WatchExpr.Shell.Options

open WatchExpr

namespace WatchExpr.CommandLine

def nameOf (t : Text) : String := (String.fromUTF8? ⟨t.toArray⟩).getD ""

def writeOut (t : Transcript) : IO Unit := do
  (← IO.getStdout).write ⟨t.out.toArray⟩
  (← IO.getStderr).write ⟨t.err.toArray⟩
  (← IO.getStdout).flush

def ancestors (dir : Text) : List Text :=
  let names := (dir.splitOn Path.separator).filter (! ·.isEmpty)
  (List.range (names.length + 1)).reverse.map fun n =>
    Path.separator :: Text.join [Path.separator] (names.take n)

def readFile? (path : Text) : IO (Option (List UInt8)) := do
  try
    return some (← IO.FS.readBinFile (nameOf path)).data.toList
  catch _ => return none

/-- The settings of the named configuration file, or of the nearest one, or the defaults. -/
def loadSettings (config : Text) : IO (Except Text Settings) := do
  let wrong (path : Text) (e : SettingsError) : Text :=
    match e with
    | .syntaxError cause => "parse error in " ++ path ++ ": " ++ cause.message
    | .wrongType names => "parse error in " ++ path ++ ": incompatible type of "
        ++ Text.join "." names
    | .outOfRange names => path ++ ": manifest: invalid config: " ++ Text.join ", " names
  let here := Text.ofString (← IO.currentDir).toString
  if !config.isEmpty then
    let path := if Path.isAbsolute config then config else Path.join here config
    match ← readFile? path with
    | none => return .error ("cannot read " ++ config)
    | some text =>
      let dir := Path.clean (path.take (path.length - (Path.lastName path).length))
      return (Settings.read dir text).mapError (wrong config)
  for dir in ancestors here do
    let path := Path.join dir Settings.fileName
    if let some text ← readFile? path then
      return (Settings.read dir text).mapError (wrong path)
  return .ok Settings.default

/-- Reads and answers lines until the input ends or one asks to leave. -/
partial def loop (s : Shell) : IO Unit := do
  let line ← (← IO.getStdin).getLine
  if line.isEmpty then return
  match s.answerLine line with
  | none => return
  | some (t, s) =>
    writeOut t
    loop s

/-- Carries out an invocation; files are read before it and written after it. -/
def run (s : Shell) (o : Options) : IO UInt32 := do
  let files ←
    match o.runFrom with
    | none => pure []
    | some path => do
      match ← readFile? path with
      | some data => pure [(path, data)]
      | none => pure []
  if o.emitTo.isNone && o.runFrom.isNone then
    let ((code, t), s) := s.evaluateAll o.expressions
    writeOut t
    if o.interactive || o.expressions.isEmpty then loop s
    return code.toUInt32
  let done := s.perform files
    { expressions := o.expressions, emitTo := o.emitTo, runFrom := o.runFrom }
  writeOut done.transcript
  if let some path := o.emitTo then
    if let some data := done.files.lookup path then
      if done.exitCode = 0 then IO.FS.writeBinFile (nameOf path) ⟨data.toArray⟩
  return done.exitCode.toUInt32

end WatchExpr.CommandLine

open WatchExpr.CommandLine

def main (args : List String) : IO UInt32 := do
  match Options.parse {} (args.map Text.ofString) with
  | .error e =>
    writeOut { err := e.message ++ "\n" }
    return 2
  | .ok o =>
    match ← loadSettings o.config with
    | .error message =>
      writeOut (Shell.complaint message)
      return 1
    | .ok settings =>
      match Shell.ofSources settings { arch := o.arch } with
      | .error e =>
        writeOut (Shell.complaint e.message)
        return 1
      | .ok s => run { s with listings := o.listings } o
