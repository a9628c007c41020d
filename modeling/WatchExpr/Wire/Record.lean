import WatchExpr.Text.Basic

namespace WatchExpr

inductive FieldType where
  | byte
  /-- A fixed number of bytes. -/
  | block (size : Nat)
  | text
  /-- Bytes, which may be absent. -/
  | bytes
  | flag
  deriving Repr, DecidableEq

/-- The data items that fields are stored as. -/
inductive FieldItem where
  | unsigned (n : UInt64)
  | bytes (b : List UInt8)
  | text (t : Text)
  | flag (b : Bool)
  | null
  deriving Repr, DecidableEq

namespace FieldType

abbrev Value : FieldType → Type
  | byte => UInt8
  | block _ => List UInt8
  | text => Text
  | bytes => Option (List UInt8)
  | flag => Bool

def zero : (t : FieldType) → t.Value
  | byte => (0 : UInt8)
  | block size => List.replicate size (0 : UInt8)
  | text => ([] : Text)
  | bytes => (none : Option (List UInt8))
  | flag => false

/-- The values that a field with the omission mark is left out for. -/
def isEmpty : (t : FieldType) → t.Value → Bool
  | byte, (b : UInt8) => b == 0
  | block _, (b : List UInt8) => b.isEmpty
  | text, (t : Text) => t.isEmpty
  | bytes, (b : Option (List UInt8)) => (b.getD []).isEmpty
  | flag, (b : Bool) => !b

def item : (t : FieldType) → t.Value → FieldItem
  | byte, (b : UInt8) => .unsigned b.toUInt64
  | block _, (b : List UInt8) => .bytes b
  | text, (t : Text) => .text t
  | bytes, (b : Option (List UInt8)) => b.elim .null .bytes
  | flag, (b : Bool) => .flag b

end FieldType

/-- A field of a record, stored under a number. -/
structure RecordField where
  number : Nat
  type : FieldType
  omitEmpty : Bool := false
  deriving Repr, DecidableEq

abbrev RecordField.Values : List RecordField → Type
  | [] => Unit
  | f :: fs => f.type.Value × Values fs

/-- A kind of record, with the name it has in messages. -/
structure RecordType where
  name : Text
  fields : List RecordField
  deriving Repr, DecidableEq

namespace RecordField

def zeros : (fs : List RecordField) → Values fs
  | [] => ()
  | f :: fs => (f.type.zero, zeros fs)

def item? (f : RecordField) (v : f.type.Value) : Option FieldItem :=
  if f.omitEmpty && f.type.isEmpty v then none else some (f.type.item v)

/-- The numbered items of a record: its fields in order, omitted ones left out. -/
def items : (fs : List RecordField) → Values fs → List (Nat × FieldItem)
  | [], _ => []
  | f :: fs, (v, vs) => ((f.item? v).map fun x => (f.number, x)).toList ++ items fs vs

end RecordField

/-- The library that records are stored with. It is handed the description of a record beside the
values, and refuses with a message. -/
structure RecordCoder where
  marshal : (r : RecordType) → RecordField.Values r.fields → Except Text (List UInt8)
  unmarshal : (r : RecordType) → List UInt8 → Except Text (RecordField.Values r.fields)

end WatchExpr
