import WatchExpr.Config.Toml.Basic
import WatchExpr.Config.Toml.Scalar

namespace WatchExpr.Toml

def isBareKeyByte (c : UInt8) : Bool := Byte.isAlnum c || c == 0x5f || c == 0x2d

/-- One name of a key. A name without quotes is not empty; `stray` tells what is wrong with
something else in its place. -/
def readName (stray : Text → Cause) (t : Text) : Except Cause (Text × Text) :=
  match t with
  | [] | 0x3d :: _ | 0x2e :: _ => .error .noKey
  | c :: rest =>
    if c == 0x22 || c == 0x27 then readLineString c rest
    else
      let name := t.takeWhile isBareKeyByte
      if name.isEmpty then .error (stray t) else .ok (name, t.drop name.length)

/-- The names of a key, with dots between them, and what follows. -/
def readKey (stray : Text → Cause) : (fuel : Nat) → Text → Except Cause (List Text × Text)
  | 0, _ => .error .noKey
  | fuel + 1, t => do
    let (name, rest) ← readName stray (skipBlank t)
    match skipBlank rest with
    | 0x2e :: rest =>
      let (names, rest) ← readKey stray fuel rest
      return (name :: names, rest)
    | rest => return ([name], rest)

def readKeyEquals (t : Text) : Except Cause (List Text × Text) := do
  let (key, rest) ← readKey .noEquals (t.length + 1) t
  match rest with
  | 0x3d :: rest => return (key, rest)
  | rest => throw (.noEquals rest)

mutual

/-- A value and what follows it. A level of nesting takes a byte and costs two units of fuel. -/
def readValue : (fuel : Nat) → Text → Except Cause (Literal × Text)
  | 0, _ => .error .badValue
  | fuel + 1, t =>
    match t with
    | 0x5b :: rest => do
      let (items, rest) ← readArray fuel rest
      return (.array items, rest)
    | 0x7b :: rest => do
      let (entries, rest) ← readRecord fuel rest
      return (.record entries, rest)
    | c :: rest =>
      if c == 0x22 || c == 0x27 then do
        let (s, rest) ← readString c rest
        return (.scalar (.text s), rest)
      else do
        let word := takeWord t
        return (.scalar (← wordValue word), t.drop word.length)
    | [] => .error .badValue

def readArray : (fuel : Nat) → Text → Except Cause (List Literal × Text)
  | 0, _ => .error .badValue
  | fuel + 1, t =>
    match skipFiller false t with
    | 0x5d :: rest => .ok ([], rest)
    | t => do
      let (x, rest) ← readValue fuel t
      match skipFiller false rest with
      | 0x5d :: rest => return ([x], rest)
      | 0x2c :: rest =>
        let (xs, rest) ← readArray fuel rest
        return (x :: xs, rest)
      | _ => throw .noComma

def readRecord : (fuel : Nat) → Text → Except Cause (List (List Text × Literal) × Text)
  | 0, _ => .error .badValue
  | fuel + 1, t =>
    match skipFiller false t with
    | 0x7d :: rest => .ok ([], rest)
    | t => do
      let (key, rest) ← readKeyEquals t
      let (x, rest) ← readValue fuel (skipBlank rest)
      match skipFiller false rest with
      | 0x7d :: rest => return ([(key, x)], rest)
      | 0x2c :: rest =>
        let (entries, rest) ← readRecord fuel rest
        return ((key, x) :: entries, rest)
      | _ => throw .noComma

end

def readTableName (t : Text) : Except Cause (List Text × Text) := do
  let (path, rest) ← readKey (fun _ => .noBracket) (t.length + 1) t
  match rest with
  | 0x5d :: rest => return (path, rest)
  | _ => throw .noBracket

def readStatement (t : Text) : Except Cause (Statement × Text) :=
  match t with
  | 0x5b :: 0x5b :: rest => do
    let (path, rest) ← readTableName rest
    match rest with
    | 0x5d :: rest => return (.element path, rest)
    | _ => throw .noBracket
  | 0x5b :: rest => do
    let (path, rest) ← readTableName rest
    return (.table path, rest)
  | _ => do
    let (key, rest) ← readKeyEquals t
    let (value, rest) ← readValue (2 * rest.length + 2) (skipBlank rest)
    return (.entry key value, rest)

/-- Checks that nothing but white space and a comment follows on the line. -/
def checkLineEnd (t : Text) : Except Cause Unit :=
  match skipBlank t with
  | [] => .ok ()
  | c :: rest => if c == 0x23 || isLineEnd c then .ok () else .error (.trailing (c :: rest))

/-- Whether a byte may stand nowhere: control characters other than tabs and line ends. -/
def isControl (c : UInt8) : Bool := (c < 0x20 && c != 0x09 && !isLineEnd c) || c == 0x7f

/-- Whether a carriage return stands without a line feed behind it. -/
def hasLoneReturn : Text → Bool
  | [] => false
  | 0x0d :: rest => rest.head? != some 0x0a || hasLoneReturn rest
  | _ :: rest => hasLoneReturn rest

def dropEncodingMark : Text → Text
  | 0xef :: 0xbb :: 0xbf :: rest => rest
  | 0xff :: 0xfe :: rest => rest
  | 0xfe :: 0xff :: rest => rest
  | t => t

def checkCharacters (t : Text) : Except Cause Unit :=
  if !Utf8.isValid t then .error .badEncoding
  else if t.any isControl || hasLoneReturn t then .error .controlCharacter
  else .ok ()

inductive Value where
  | scalar (s : Scalar)
  | array (items : List Value)
  | table (entries : List (Text × Value))
  /-- An array of tables, one statement each; the last one is open. -/
  | tables (items : List (List (Text × Value)))

/-- Values by name, in the order of their definition. -/
abbrev Table := List (Text × Value)

namespace Table

/-- Gives a name a value, in its old place if it has one. -/
def set (t : Table) (name : Text) (v : Value) : Table :=
  if t.any (·.1 == name) then t.map fun e => if e.1 == name then (name, v) else e
  else t ++ [(name, v)]

/-- The table at a path; of an array of tables it is the last one. -/
def at? : List Text → Table → Option Table
  | [], t => some t
  | name :: path, t =>
    match t.lookup name with
    | some (.table u) => at? path u
    | some (.tables us) => us.getLast?.bind (at? path)
    | _ => none

def modifyAt (f : Table → Table) : List Text → Table → Table
  | [], t => f t
  | name :: path, t =>
    match t.lookup name with
    | some (.table u) => t.set name (.table (modifyAt f path u))
    | some (.tables us) =>
      t.set name (.tables (us.dropLast ++ us.getLast?.toList.map (modifyAt f path)))
    | _ => t

end Table

/-- What the statements so far define. -/
structure Document where
  root : Table := []
  /-- The paths of implicit tables. -/
  implicit : List (List Text) := []
  /-- The paths of arrays. -/
  arrays : List (List Text) := []

namespace Document

def tableAt (d : Document) (path : List Text) : Except Cause Table :=
  match d.root.at? path with
  | some t => .ok t
  | none => .error (.duplicate path)

def store (d : Document) (path : List Text) (name : Text) (v : Value) : Document :=
  { d with root := d.root.modifyAt (·.set name v) path }

def markImplicit (d : Document) (path : List Text) : Document :=
  { d with implicit := path :: d.implicit }

def clearImplicit (d : Document) (path : List Text) : Document :=
  { d with implicit := d.implicit.filter (· != path) }

def noteArray (d : Document) (path : List Text) (isArray : Bool) : Document :=
  let others := d.arrays.filter (· != path)
  { d with arrays := if isArray then path :: others else others }

/-- Defines a name in the table at a path. -/
def put (d : Document) (path : List Text) (name : Text) (v : Value) : Except Cause Document := do
  let t ← d.tableAt path
  let full := path ++ [name]
  if (t.lookup name).isNone then return d.store path name v
  else if d.arrays.contains full then return (d.clearImplicit full).store path name v
  else if d.implicit.contains full then return d.clearImplicit full
  else throw (.duplicate full)

/-- Makes the missing tables on the way from one path along further names, all implicit. -/
def announce (d : Document) (path : List Text) : List Text → Except Cause Document
  | [] => .ok d
  | name :: names => do
    let t ← d.tableAt path
    let next := path ++ [name]
    let d := if (t.lookup name).isSome then d else (d.store path name (.table [])).markImplicit next
    announce d next names

/-- Opens the table at a path, or one more element of the array of tables there. -/
def enter (d : Document) (path : List Text) (isElement : Bool) : Except Cause Document := do
  let above := path.dropLast
  let name := path.getLast?.getD []
  let d ← d.announce [] above
  if isElement then
    match (← d.tableAt above).lookup name with
    | none => return d.store above name (.tables [[]])
    | some (.tables us) => return d.store above name (.tables (us ++ [[]]))
    | some _ => throw (.duplicate path)
  else d.put above name (.table [])

/-- Opens the tables that a key with several names passes through. -/
def enterAll (d : Document) (path : List Text) : List Text → Except Cause Document
  | [] => .ok d
  | name :: names => do
    let next := path ++ [name]
    let d ← (d.markImplicit next).enter next false
    d.enterAll next names

/-- Enters a value under a key with several names; a value in the way is replaced. -/
def nest (t : Table) : List Text → Value → Table
  | [], _ => t
  | [name], v => t.set name v
  | name :: names, v =>
    let inner : Table :=
      match t.lookup name with
      | some (.table u) => u
      | _ => []
    t.set name (.table (nest inner names v))

end Document

def Literal.isArray : Literal → Bool
  | .array _ => true
  | _ => false

mutual

/-- Gives the value of a literal at a path; what its records define is entered there. -/
def Document.define (d : Document) (path : List Text) (isElement : Bool) :
    Literal → Except Cause (Document × Value)
  | .scalar s => .ok (d, .scalar s)
  | .array items => do
    let (d, vs) ← (d.noteArray path true).defineItems path items
    return (d, .array vs)
  | .record entries => do
    let d ← (d.markImplicit path).enter path isElement
    let (d, t) ← d.defineEntries path [] entries
    return (d, .table t)

def Document.defineItems (d : Document) (path : List Text) :
    List Literal → Except Cause (Document × List Value)
  | [] => .ok (d, [])
  | x :: rest => do
    let (d, v) ← d.define path true x
    let (d, vs) ← d.defineItems path rest
    return (d, v :: vs)

/-- Defines the entries of a record in the table at a path, and collects them. -/
def Document.defineEntries (d : Document) (path : List Text) (t : Table) :
    List (List Text × Literal) → Except Cause (Document × Table)
  | [] => .ok (d, t)
  | (key, x) :: rest => do
    let above := path ++ key.dropLast
    let name := key.getLast?.getD []
    let d ← d.enterAll path key.dropLast
    let (d, v) ← d.define (above ++ [name]) false x
    let d ← d.put above name v
    (d.noteArray (above ++ [name]) x.isArray).defineEntries path (Document.nest t key v) rest

end

/-- Carries out a statement; gives the table of the entries that follow. -/
def Document.apply (d : Document) (current : List Text) :
    Statement → Except Cause (Document × List Text)
  | .table path => do return ((← d.enter path false).noteArray path false, path)
  | .element path => do return ((← d.enter path true).noteArray path false, path)
  | .entry key x => do
    let (d, _) ← d.defineEntries current [] [(key, x)]
    return (d, current)

/-- Carries out the statements of a text. Each takes at least one byte, so as much fuel as there are
bytes is enough. An error is reported at the line of its statement, the last of the text being
`lines`. -/
def run (lines : Nat) : (fuel : Nat) → Document → (current : List Text) → Text →
    Except SyntaxError Document
  | 0, d, _, _ => .ok d
  | fuel + 1, d, current, t =>
    match skipFiller false t with
    | [] => .ok d
    | t => do
      let line := lines - t.count 0x0a
      let step : Except Cause (Document × List Text × Text) := do
        let (s, rest) ← readStatement t
        checkLineEnd rest
        let (d, current) ← d.apply current s
        return (d, current, rest)
      let (d, current, rest) ← step.mapError (⟨line, ·⟩)
      run lines fuel d current rest

/-- The tables and values of a configuration text. -/
def read (t : Text) : Except SyntaxError Table := do
  let t := dropEncodingMark t
  (checkCharacters t).mapError (⟨1, ·⟩)
  return (← run (t.count 0x0a + 1) t.length {} [] t).root

end WatchExpr.Toml
