import WatchExpr.Cbor.Reading
import WatchExpr.Decimal.Reading
import WatchExpr.Wire.Record

namespace WatchExpr.Cbor

/-- Names the field in which an item was refused. -/
def Error.inField (record : Text) (number : Nat) : Error → Error
  | .mismatch found type _ detail =>
    .mismatch found type (some (record ++ "." ++ Text.decimal number)) detail
  | e => e

namespace Item

/-- The mark that announces the format itself. -/
def selfDescribed : UInt64 := 55799

def isNumber : Item → Bool
  | unsigned _ | negative _ | float _ => true
  | _ => false

/-- The item under its tags. Tags of known meaning need content of the right kind; big numbers
keep theirs. -/
def untag : Item → Except Error Item
  | tag n content =>
    if n = 0 ∧ content.major ≠ .text then
      .error (.badTag "0 must be followed by text string" content.major)
    else if n = 1 ∧ !content.isNumber then
      .error (.badTag "1 must be followed by integer or floating-point number" content.major)
    else if n = 2 ∨ n = 3 then
      match content with
      | bytes b => .ok (.tag n (.bytes b))
      | _ => .error (.badTag "2 or 3 must be followed by byte string" content.major)
    else content.untag
  | x => .ok x

def isNull : Item → Bool
  | simple n => n = 22 ∨ n = 23
  | _ => false

/-- The refusal of an item where a type was asked for. -/
def refuse {α : Type} (x : Item) (type : Text) (detail : Text := []) : Except Error α :=
  .error (.mismatch x.major type none detail)

def bigNumber (b : List UInt8) : Nat := b.foldl (fun n d => n * 256 + d.toNat) 0

/-- The number of an item that holds one, negative ones included. -/
def number? : Item → Option Int
  | unsigned n => some n.toNat
  | negative n => some (-1 - (n.toNat : Int))
  | simple n => if n < 20 ∨ 24 ≤ n then some n.toNat else none
  | tag 2 (bytes b) => some (bigNumber b)
  | tag 3 (bytes b) => some (-1 - (bigNumber b : Int))
  | _ => none

/-- The item under its tags, for any type: text is valid UTF-8, chunk by chunk, and a negative
number fits a signed word. -/
def content (type : Text) (x : Item) : Except Error Item := do
  let x ← x.untag
  match x with
  | text chunks => if chunks.all Utf8.isValid then return x else throw .badText
  | negative n =>
    if n < 0x8000000000000000 then return x
    else x.refuse type (Text.integer (-1 - (n.toNat : Int)) ++ " overflows Go's int64")
  | _ => return x

/-- The item under its tags, for a type that holds no sequence: big numbers fit a word too, an
unsigned one when they are positive. -/
def scalar (type : Text) (x : Item) : Except Error Item := do
  let x ← x.content type
  match x with
  | tag _ _ =>
    match x.number? with
    | some n =>
      if -0x8000000000000000 ≤ n ∧ n < 0x10000000000000000 then return x
      else x.refuse type (Text.integer n ++ " overflows " ++ type)
    | none => return x
  | _ => return x

def toNumber (type : Text) (low high : Int) (x : Item) : Except Error Int := do
  let x ← x.scalar type
  if x.isNull then return 0
  match x.number? with
  | none => x.refuse type
  | some n =>
    if low ≤ n ∧ n ≤ high then return n
    else if low = 0 ∧ n < 0 then x.refuse type
    else x.refuse type (Text.integer n ++ " overflows " ++ type)

def toByte (x : Item) : Except Error UInt8 := return UInt8.ofInt (← x.toNumber "uint8" 0 255)

def toInt (x : Item) : Except Error Int := x.toNumber "int" (-0x8000000000000000) 0x7fffffffffffffff

def toBool (x : Item) : Except Error Bool := do
  let x ← x.scalar "bool"
  match x with
  | simple 20 => return false
  | simple 21 => return true
  | _ => if x.isNull then return false else x.refuse "bool"

def toText (x : Item) : Except Error Text := do
  let x ← x.scalar "string"
  match x with
  | text chunks => return chunks.flatten
  | _ => if x.isNull then return [] else x.refuse "string"

/-- At most `limit` bytes, as a byte string or an array of numbers, of which further ones are not
looked at; absent for null. -/
def toBytesWithin? (limit : Option Nat) (type : Text) (x : Item) :
    Except Error (Option (List UInt8)) := do
  let x ← x.content type
  match x with
  | bytes b | tag _ (bytes b) => return some (limit.elim b b.take)
  | array items => return some (← (limit.elim items items.take).mapM toByte)
  | _ => if x.isNull then return none else x.refuse type

/-- Bytes, as a byte string or an array of numbers; absent for null. -/
def toBytes? (type : Text) (x : Item) : Except Error (Option (List UInt8)) :=
  x.toBytesWithin? none type

/-- A fixed number of bytes; missing ones are zero and further ones are dropped. -/
def toBlock (size : Nat) (x : Item) : Except Error (List UInt8) := do
  let b := (← x.toBytesWithin? (some size) ("[" ++ Text.decimal size ++ "]uint8")).getD []
  return b ++ List.replicate (size - b.length) 0

/-- An array, none of its items read yet. -/
def toItems (type : Text) (x : Item) : Except Error (List Item) := do
  let x ← x.content type
  match x with
  | array items => return items
  | _ => if x.isNull then return [] else x.refuse type

def fieldNumber? (key : Item) : Except Error (Option Nat) :=
  match key with
  | unsigned n => return some n.toNat
  | negative n =>
    if n < 0x8000000000000000 then return none
    else key.refuse "int64" ("-1-" ++ Text.decimal n.toNat ++ " overflows Go's int64")
  | text chunks =>
    if chunks.all Utf8.isValid then
      return (Decimal.readNat? 10 chunks.flatten).filter (Text.decimal · = chunks.flatten)
    else throw .badText
  | _ =>
    key.refuse "string" ("map key is of type " ++ key.major.name
      ++ " and cannot be used to match struct field name")

def fill {α : Type} (record : Text) (set : Nat → Item → α → Except Error α) :
    (seen : List Nat) → List (Item × Item) → α → Except Error α
  | _, [], r => .ok r
  | seen, (key, x) :: rest, r => do
    match ← key.fieldNumber? with
    | none => fill record set seen rest r
    | some n =>
      if seen.contains n then fill record set seen rest r
      else fill record set (n :: seen) rest (← (set n x r).mapError (Error.inField record n))

def toRecord {α : Type} (record : Text) (zero : α) (set : Nat → Item → α → Except Error α)
    (x : Item) : Except Error α := do
  let x ← x.scalar record
  match x with
  | map entries => fill record set [] entries zero
  | array _ => x.refuse record "cannot decode CBOR array to struct without toarray option"
  | _ => if x.isNull then return zero else x.refuse record

/-- The map of a record: its fields in order, absent ones left out. -/
def ofFields (fields : List (Nat × Option Item)) : Item :=
  .map (fields.filterMap fun (n, x?) => x?.map fun x => (.unsigned n.toUInt64, x))

/-- A field that is left out when its text is empty. -/
def ofText? (t : Text) : Option Item := if t.isEmpty then none else some (ofText t)

/-- A field that is left out unless it is set. -/
def ofFlag? (b : Bool) : Option Item := if b then some (ofBool b) else none

def ofField : FieldItem → Item
  | .unsigned n => .unsigned n
  | .bytes b => .bytes b
  | .text t => .ofText t
  | .flag b => .ofBool b
  | .null => .null

def ofItems (items : List (Nat × FieldItem)) : Item :=
  .map (items.map fun (n, x) => (.unsigned n.toUInt64, .ofField x))

def toField (x : Item) : (t : FieldType) → Except Error t.Value
  | .byte => x.toByte
  | .block size => x.toBlock size
  | .text => x.toText
  | .bytes => x.toBytes? "[]uint8"
  | .flag => x.toBool

/-- Sets the field with a number; other numbers are passed over. -/
def setField (number : Nat) (x : Item) :
    (fs : List RecordField) → RecordField.Values fs → Except Error (RecordField.Values fs)
  | [], vs => .ok vs
  | f :: fs, (v, vs) =>
    if f.number = number then return (← x.toField f.type, vs)
    else return (v, ← setField number x fs vs)

end Item

/-- Records as maps in the concise representation. -/
def recordCoder : RecordCoder where
  marshal r vs := .ok (Item.ofItems (RecordField.items r.fields vs)).write
  unmarshal r data :=
    (read data >>= (·.toRecord r.name (RecordField.zeros r.fields) fun n x =>
      x.setField n r.fields)).mapError Error.message

end WatchExpr.Cbor
