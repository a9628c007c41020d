import WatchExpr.Text.Basic
import WatchExpr.Machine.Chunk

namespace WatchExpr.Cbor

/-- The eight major types, in the order of their numbers. -/
inductive Major where
  | unsigned
  | negative
  | bytes
  | text
  | array
  | map
  | tag
  | primitive
  deriving Repr, DecidableEq

namespace Major

def number : Major → UInt8
  | unsigned => 0
  | negative => 1
  | bytes => 2
  | text => 3
  | array => 4
  | map => 5
  | tag => 6
  | primitive => 7

/-- The major type in the upper three bits of a byte. -/
def ofByte (b : UInt8) : Major :=
  match (b >>> 5).toNat with
  | 0 => unsigned
  | 1 => negative
  | 2 => bytes
  | 3 => text
  | 4 => array
  | 5 => map
  | 6 => tag
  | _ => primitive

def name : Major → Text
  | unsigned => "positive integer"
  | negative => "negative integer"
  | bytes => "byte string"
  | text => "UTF-8 text string"
  | array => "array"
  | map => "map"
  | tag => "tag"
  | primitive => "primitives"

end Major

inductive Item where
  | unsigned (n : UInt64)
  /-- The number `-1 - n`. -/
  | negative (n : UInt64)
  | bytes (b : List UInt8)
  /-- A text in one or more chunks. -/
  | text (chunks : List Text)
  | array (items : List Item)
  | map (entries : List (Item × Item))
  | tag (number : UInt64) (content : Item)
  /-- A simple value other than a float. -/
  | simple (n : UInt8)
  /-- The two, four or eight bytes of a float. -/
  | float (payload : List UInt8)

namespace Item

def ofText (t : Text) : Item := .text [t]

def ofBool (b : Bool) : Item := .simple (if b then 21 else 20)

def null : Item := .simple 22

def ofInt : Int → Item
  | .ofNat n => .unsigned n.toUInt64
  | .negSucc n => .negative n.toUInt64

def major : Item → Major
  | unsigned _ => .unsigned
  | negative _ => .negative
  | bytes _ => .bytes
  | text _ => .text
  | array _ => .array
  | map _ => .map
  | tag .. => .tag
  | simple _ | float _ => .primitive

end Item

def bigEndian (count : Nat) (n : UInt64) : List UInt8 := (littleEndian count n).reverse

def ofBigEndian (bytes : List UInt8) : UInt64 := ofLittleEndian bytes.reverse

/-- The head of an item: its major type and argument in the fewest bytes. -/
def writeHead (m : Major) (n : UInt64) : List UInt8 :=
  let mark (info : UInt8) := m.number * 32 + info
  if n < 24 then [mark n.toUInt8]
  else if n < 0x100 then mark 24 :: bigEndian 1 n
  else if n < 0x10000 then mark 25 :: bigEndian 2 n
  else if n < 0x100000000 then mark 26 :: bigEndian 4 n
  else mark 27 :: bigEndian 8 n

namespace Item

mutual

def write : Item → List UInt8
  | unsigned n => writeHead .unsigned n
  | negative n => writeHead .negative n
  | bytes b => writeHead .bytes b.length.toUInt64 ++ b
  | text chunks => writeHead .text chunks.flatten.length.toUInt64 ++ chunks.flatten
  | array items => writeHead .array items.length.toUInt64 ++ writeAll items
  | map entries => writeHead .map entries.length.toUInt64 ++ writeEntries entries
  | tag n content => writeHead .tag n ++ content.write
  | simple n => if n < 24 then [0xe0 + n] else [0xf8, n]
  | float payload =>
    (match payload.length with
      | 2 => 0xf9
      | 4 => 0xfa
      | _ => 0xfb) :: payload

def writeAll : List Item → List UInt8
  | [] => []
  | x :: rest => x.write ++ writeAll rest

def writeEntries : List (Item × Item) → List UInt8
  | [] => []
  | (k, v) :: rest => k.write ++ v.write ++ writeEntries rest

end

end Item

end WatchExpr.Cbor
