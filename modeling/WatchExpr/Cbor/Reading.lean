import WatchExpr.Text.Utf8
import WatchExpr.Cbor.Item

namespace WatchExpr.Cbor

/-- Why bytes are no data item, or not the one that was asked for. -/
inductive Error where
  | empty
  | truncated
  /-- Bytes follow the item, from an index on. -/
  | leftover (count index : Nat)
  | badInfo (info : UInt8) (major : Major)
  | strayBreak
  | badSimple (n : UInt8)
  | badChunk (found whole : Major)
  | openChunk (major : Major)
  | lengthOverflow (major : Major) (length : UInt64)
  | tooDeep
  | tooManyElements
  | tooManyPairs
  | badText
  /-- A tag on content of the wrong kind. -/
  | badTag (needs : Text) (found : Major)
  /-- An item of another type than the one to fill. -/
  | mismatch (found : Major) (type : Text) (field : Option Text) (detail : Text)
  deriving Repr, DecidableEq

def maxDepth : Nat := 32

def maxElements : Nat := 131072

def Error.message : Error → Text
  | empty => "EOF"
  | truncated => "unexpected EOF"
  | leftover count index =>
    "cbor: " ++ Text.decimal count ++ " bytes of extraneous data starting at index "
      ++ Text.decimal index
  | badInfo info m =>
    "cbor: invalid additional information " ++ Text.decimal info.toNat ++ " for type " ++ m.name
  | strayBreak => "cbor: unexpected \"break\" code"
  | badSimple n =>
    "cbor: invalid simple value " ++ Text.decimal n.toNat ++ " for type " ++ Major.primitive.name
  | badChunk found whole =>
    "cbor: wrong element type " ++ found.name ++ " for indefinite-length " ++ whole.name
  | openChunk m => "cbor: indefinite-length " ++ m.name ++ " chunk is not definite-length"
  | lengthOverflow m n =>
    let effect : Text :=
      match m with
      | .array | .map => "it would cause integer overflow"
      | _ => "causing integer overflow"
    "cbor: " ++ m.name ++ " length " ++ Text.decimal n.toNat ++ " is too large, " ++ effect
  | tooDeep => "cbor: exceeded max nested level " ++ Text.decimal maxDepth
  | tooManyElements =>
    "cbor: exceeded max number of elements " ++ Text.decimal maxElements ++ " for CBOR array"
  | tooManyPairs =>
    "cbor: exceeded max number of key-value pairs " ++ Text.decimal maxElements ++ " for CBOR map"
  | badText => "cbor: invalid UTF-8 string"
  | badTag needs found => "cbor: tag number " ++ needs ++ ", got " ++ found.name
  | mismatch found type field detail =>
    let place : Text := field.elim "value" (("struct field " : Text) ++ ·)
    let remark : Text := if detail.isEmpty then [] else " (" ++ detail ++ ")"
    "cbor: cannot unmarshal " ++ found.name ++ " into Go " ++ place ++ " of type " ++ type ++ remark

/-- The head of an item. The argument of an open-ended item is absent. -/
structure Head where
  major : Major
  /-- The lower five bits of the first byte. -/
  info : UInt8
  argument : Option UInt64

/-- Takes a number of bytes off the front. -/
def takeBytes (n : Nat) (bytes : List UInt8) : Except Error (List UInt8 × List UInt8) :=
  if n ≤ bytes.length then .ok (bytes.take n, bytes.drop n) else .error .truncated

def readHead : List UInt8 → Except Error (Head × List UInt8)
  | [] => .error .truncated
  | b :: rest => do
    let major := Major.ofByte b
    let info := b &&& 0x1f
    let wide (n : Nat) : Except Error (Head × List UInt8) := do
      let (bs, rest) ← takeBytes n rest
      return (⟨major, info, some (ofBigEndian bs)⟩, rest)
    match info.toNat with
    | 24 =>
      let (h, rest) ← wide 1
      match major, h.argument with
      | .primitive, some n => if n < 32 then throw (.badSimple n.toUInt8) else return (h, rest)
      | _, _ => return (h, rest)
    | 25 => wide 2
    | 26 => wide 4
    | 27 => wide 8
    | 28 | 29 | 30 => throw (.badInfo info major)
    | 31 =>
      match major with
      | .unsigned | .negative | .tag => throw (.badInfo info major)
      | .primitive => throw .strayBreak
      | _ => return (⟨major, info, none⟩, rest)
    | _ => return (⟨major, info, some info.toUInt64⟩, rest)

def checkLength (m : Major) (n : UInt64) : Except Error Nat :=
  if n < 0x8000000000000000 then .ok n.toNat else .error (.lengthOverflow m n)

/-- The chunks of an open-ended string, up to the stop mark. -/
def readChunks (m : Major) : (fuel : Nat) → List UInt8 → Except Error (List Text × List UInt8)
  | 0, _ => .error .truncated
  | _, [] => .error .truncated
  | fuel + 1, b :: rest =>
    if b = 0xff then .ok ([], rest)
    else if Major.ofByte b ≠ m then .error (.badChunk (Major.ofByte b) m)
    else do
      let (h, rest) ← readHead (b :: rest)
      match h.argument with
      | none => throw (.openChunk m)
      | some n =>
        let (chunk, rest) ← takeBytes (← checkLength m n) rest
        let (chunks, rest) ← readChunks m fuel rest
        return (chunk :: chunks, rest)

def readString (h : Head) (rest : List UInt8) : Except Error (List Text × List UInt8) :=
  match h.argument with
  | none => readChunks h.major (rest.length + 1) rest
  | some n => do
    let (b, rest) ← takeBytes (← checkLength h.major n) rest
    return ([b], rest)

/-- Reads a number of items one after the other. -/
def readCounted (item : List UInt8 → Except Error (Item × List UInt8)) :
    (count : Nat) → List UInt8 → Except Error (List Item × List UInt8)
  | 0, bytes => .ok ([], bytes)
  | count + 1, bytes => do
    let (x, rest) ← item bytes
    let (xs, rest) ← readCounted item count rest
    return (x :: xs, rest)

/-- Reads items up to the stop mark; `room` items are admitted and one more is too many. -/
def readOpen (item : List UInt8 → Except Error (Item × List UInt8)) (excess : Error) :
    (fuel room : Nat) → List UInt8 → Except Error (List Item × List UInt8)
  | 0, _, _ => .error .truncated
  | _, _, [] => .error .truncated
  | fuel + 1, room, b :: rest =>
    if b = 0xff then .ok ([], rest)
    else do
      let (x, rest) ← item (b :: rest)
      if room = 0 then throw excess
      let (xs, rest) ← readOpen item excess fuel (room - 1) rest
      return (x :: xs, rest)

/-- The items of an array, or the keys and values of a map in turn. -/
def readItems (item : List UInt8 → Except Error (Item × List UInt8)) (h : Head) (each : Nat)
    (excess : Error) (rest : List UInt8) : Except Error (List Item × List UInt8) := do
  match h.argument with
  | none =>
    -- an element that is too many is noticed when all its items are read
    let (xs, rest) ← readOpen item excess (rest.length + 1) (maxElements * each + (each - 1)) rest
    if xs.length % each ≠ 0 then throw .strayBreak
    return (xs, rest)
  | some n =>
    let n ← checkLength h.major n
    if n > maxElements then throw excess
    readCounted item (n * each) rest

def pairUp : List Item → List (Item × Item)
  | k :: v :: rest => (k, v) :: pairUp rest
  | _ => []

/-- Reads one item inside `depth` others. Every level takes at least one byte, so as much fuel as
there are bytes is enough. -/
def readItem : (fuel depth : Nat) → List UInt8 → Except Error (Item × List UInt8)
  | 0, _, _ => .error .truncated
  | fuel + 1, depth, bytes => do
    let (h, rest) ← readHead bytes
    let n := h.argument.getD 0
    match h.major with
    | .unsigned => return (.unsigned n, rest)
    | .negative => return (.negative n, rest)
    | .bytes =>
      let (chunks, rest) ← readString h rest
      return (.bytes chunks.flatten, rest)
    | .text =>
      let (chunks, rest) ← readString h rest
      return (.text chunks, rest)
    | .array =>
      if maxDepth ≤ depth then throw .tooDeep
      let (xs, rest) ← readItems (readItem fuel (depth + 1)) h 1 .tooManyElements rest
      return (.array xs, rest)
    | .map =>
      if maxDepth ≤ depth then throw .tooDeep
      let (xs, rest) ← readItems (readItem fuel (depth + 1)) h 2 .tooManyPairs rest
      return (.map (pairUp xs), rest)
    | .tag =>
      match rest with
      | [] => throw .truncated
      | b :: _ =>
        -- a tag on a tag is one level deeper, which its head has to be sound to count
        let depth := if Major.ofByte b = .tag then depth + 1 else depth
        if maxDepth < depth then
          let _ ← readHead rest
          throw .tooDeep
        let (content, rest) ← readItem fuel depth rest
        return (.tag n content, rest)
    | .primitive =>
      match h.info.toNat with
      | 25 => return (.float (bigEndian 2 n), rest)
      | 26 => return (.float (bigEndian 4 n), rest)
      | 27 => return (.float (bigEndian 8 n), rest)
      | _ => return (.simple n.toUInt8, rest)

/-- The item that some bytes encode, with nothing left over. -/
def read (bytes : List UInt8) : Except Error Item := do
  if bytes.isEmpty then throw .empty
  let (x, rest) ← readItem bytes.length 0 bytes
  if rest.isEmpty then return x
  else throw (.leftover rest.length (bytes.length - rest.length))

end WatchExpr.Cbor
