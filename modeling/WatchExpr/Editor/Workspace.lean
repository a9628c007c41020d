import WatchExpr.Evaluation.Session
import WatchExpr.Text.Utf8

namespace WatchExpr.Document

def carriageReturn : UInt8 := 0x0d

def lines (t : Text) : List Text :=
  (t.splitOn 0x0a).map fun line =>
    if line.getLast? = some carriageReturn then line.dropLast else line

/-- Whether a line holds no expression: only white space, or a comment. -/
def isBlank (line : Text) : Bool :=
  match line.trim with
  | [] => true
  | c :: _ => c == 0x23

/-- Whether a byte, read as a Latin-1 character, is a letter, a digit or an underscore. -/
def isNameByte (c : UInt8) : Bool :=
  Byte.isAlnum c || c == 0x5f || c == 0xaa || c == 0xb5 || c == 0xba
    || (0xc0 ≤ c && c != 0xd7 && c != 0xf7)

/-- The end of a text that satisfies a test throughout. -/
def trailing (p : UInt8 → Bool) (t : Text) : Text := (t.reverse.takeWhile p).reverse

/-- The name fragment before a position, with the separators of its namespaces. -/
def fragmentBefore (t : Text) (line column : Nat) : Text :=
  match (lines t)[line]? with
  | none => []
  | some l =>
    (trailing (fun c => isNameByte c || c == 0x3a) (l.take column)).dropWhile (· == 0x3a)

def wordAt (t : Text) (line column : Nat) : Text :=
  match (lines t)[line]? with
  | none => []
  | some l => trailing isNameByte (l.take column) ++ (l.drop column).takeWhile isNameByte

end WatchExpr.Document

namespace WatchExpr

/-- A diagnostic in a document. Columns count bytes. -/
structure Marker where
  line : Nat
  start : Nat
  stop : Nat
  isError : Bool
  message : Text
  deriving Repr, DecidableEq

structure Completion where
  label : Text
  isType : Bool
  deriving Repr, DecidableEq

/-- Open documents in one session. After shutdown nothing is compiled or evaluated any more. -/
structure Workspace where
  session : Session
  documents : List (Text × Text) := []
  running : Bool := true

namespace Marker

def severity (m : Marker) : Nat := if m.isError then 1 else 2

end Marker

namespace Completion

/-- The number of the item kind in the editor protocol: struct or variable. -/
def kind (c : Completion) : Nat := if c.isType then 22 else 6

def detail (c : Completion) : Text := if c.isType then "type" else "symbol"

end Completion

namespace Workspace

def name : Text := "dbgeval-lsp"

def version : Text := "0.1.0"

/-- Characters after which an editor asks for completion. -/
def triggers : List Text := [".", ">", ":"]

/-- The number for documents that are always sent whole. -/
def syncKind : Nat := 1

def maxCompletions : Nat := 100

/-- A diagnostic of a line, cut to the columns of the line. -/
def marker (line : Nat) (text : Text) (d : Diagnostic) : Marker :=
  let start := min d.offset text.length
  { line, start, stop := min (start + 1) text.length, isError := d.isError, message := d.message }

/-- Compiles every line that holds an expression. -/
def diagnose (s : Session) (text : Text) : List Marker × Session :=
  (Document.lines text).zipIdx.foldl (fun (ms, s) (line, i) =>
    if Document.isBlank line then (ms, s)
    else
      let (c, s) := s.compile line
      (ms ++ c.diagnostics.map (marker i line), s)) ([], s)

/-- The diagnostics to publish for a text; none after shutdown. -/
def publish (w : Workspace) (text : Text) : Option (List Marker) × Workspace :=
  if w.running then
    let (ms, session) := diagnose w.session text
    (some ms, { w with session })
  else (none, w)

def document? (w : Workspace) (uri : Text) : Option Text := w.documents.lookup uri

def setDocument (w : Workspace) (uri text : Text) : Workspace :=
  { w with documents := (uri, text) :: w.documents }

def openDocument (w : Workspace) (uri text : Text) : Option (List Marker) × Workspace :=
  (w.setDocument uri text).publish text

def closeDocument (w : Workspace) (uri : Text) : List Marker × Workspace :=
  ([], { w with documents := w.documents.filter (·.1 ≠ uri) })

def shutdown (w : Workspace) : Workspace := { w with running := false }

def completions (scope : DebugScope) (fragment : Text) : List Completion :=
  let types := scope.types.typeNames
  ((scope.names.filter (·.startsWith fragment)).take maxCompletions).map fun label =>
    { label, isType := types.contains label }

/-- Completion at a position; nothing is offered where no name begins. -/
def complete (w : Workspace) (uri : Text) (line column : Nat) : Option (List Completion) := do
  let text ← w.document? uri
  let fragment := Document.fragmentBefore text line column
  if fragment.isEmpty then none else return completions w.session.scope fragment

def describeType (types : TypeTable) (name : Text) (k : TypeKey) : Text :=
  let heading : Text :=
    "**" ++ name ++ "**: `" ++ types.describe k ++ "`, " ++ Text.decimal (types.byteSize k).toNat
      ++ " bytes"
  let field (m : Member) : Text :=
    "\n- `" ++ types.describe m.type ++ "` " ++ m.name ++ " at +" ++ Text.decimal m.offset.toNat
  heading ++ (types.members k).flatMap field

/-- What an evaluation gave: the value, or the type and the complaint. -/
def describeEvaluation (types : TypeTable) (e : Evaluation) : Text :=
  match e.value with
  | .ok v => "`" ++ types.describeValue e.type v ++ "`"
  | .error err =>
    if e.compiled.ok then "`" ++ types.describe e.type ++ "`\n\n" ++ err.message else err.message

/-- What is under the cursor: the layout of a named type, or else the value of the whole line, with
the memory that was read. -/
def hover (w : Workspace) (uri : Text) (line column : Nat) :
    (Option Text × List MemoryRead) × Workspace :=
  match w.document? uri with
  | none => ((none, []), w)
  | some text =>
    let word := Document.wordAt text line column
    let types := w.session.scope.types
    match if word.isEmpty then none else types.lookup? word with
    | some k => ((some (describeType types word k), []), w)
    | none =>
      match (Document.lines text)[line]? with
      | none => ((none, []), w)
      | some l =>
        if Document.isBlank l || !w.running then ((none, []), w)
        else
          let (e, session) := w.session.evaluate l
          ((some (describeEvaluation session.scope.types e), e.reads), { w with session })

end Workspace

end WatchExpr
