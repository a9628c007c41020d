import WatchExpr.Lexical.Lexer
import WatchExpr.Decimal.Reading
import WatchExpr.Expression.Diagnostic

namespace WatchExpr.Literal

/-- The letters that may end an integer. -/
def isIntSuffix (c : UInt8) : Bool := c ∈ Text.ofString "uUlL"

def trimIntSuffix (t : Text) : Text := t.trimRight isIntSuffix

/-- An integer without its suffix: hexadecimal, binary, octal with a leading zero, or decimal. -/
def readInteger? : Text → Option UInt64
  | 0x30 :: c :: rest =>
    if c == 0x78 || c == 0x58 then Decimal.readWord? 16 rest
    else if c == 0x62 || c == 0x42 then Decimal.readWord? 2 rest
    else Decimal.readWord? 8 (c :: rest)
  | t => Decimal.readWord? 10 t

/-- The number of elements in an array type: hexadecimal, binary, octal or decimal, where a mark
without digits is read as an octal number. -/
def readCount? : Text → Option UInt64
  | [0x30] => some 0
  | 0x30 :: c :: d :: rest =>
    if c == 0x78 || c == 0x58 then Decimal.readWord? 16 (d :: rest)
    else if c == 0x62 || c == 0x42 then Decimal.readWord? 2 (d :: rest)
    else if c == 0x6f || c == 0x4f then Decimal.readWord? 8 (d :: rest)
    else Decimal.readWord? 8 (c :: d :: rest)
  | [0x30, c] => Decimal.readWord? 8 [c]
  | t => Decimal.readWord? 10 t

inductive Number where
  | int (value : UInt64)
  /-- The bits of a double; `isSingle` when it was written as a float. -/
  | float (bits : UInt64) (isSingle : Bool)
  deriving Repr, DecidableEq

def endsInF (t : Text) : Bool :=
  match t.getLast? with
  | some c => c == 0x66 || c == 0x46
  | none => false

/-- Whether a literal is a floating-point number: it has a point, or, when not hexadecimal, an
exponent mark or a final f. -/
def isFloat (t : Text) : Bool :=
  t.any (· == 0x2e)
    || (!Lexer.isHexLiteral t && (t.any (fun c => c == 0x65 || c == 0x45) || endsInF t))

def readNumber? (t : Text) : Option Number :=
  if isFloat t then
    if !Lexer.isHexLiteral t && endsInF t then
      (Decimal.single.read? t.dropLast).map fun bits => .float (Slot.widen bits.toUInt64) true
    else
      (Decimal.double.read? (t.trimRight fun c => c == 0x6c || c == 0x4c)).map fun bits =>
        .float bits.toUInt64 false
  else (readInteger? (trimIntSuffix t)).map .int

def simpleEscape? (c : UInt8) : Option UInt8 :=
  match c.toNat with
  | 0x6e => some 0x0a
  | 0x74 => some 0x09
  | 0x72 => some 0x0d
  | 0x61 => some 0x07
  | 0x62 => some 0x08
  | 0x66 => some 0x0c
  | 0x76 => some 0x0b
  | 0x5c => some 0x5c
  | 0x27 => some 0x27
  | 0x22 => some 0x22
  | 0x3f => some 0x3f
  | _ => none

/-- The byte of an escape that starts with a letter, and how many bytes after the letter it takes:
up to two hexadecimal digits after an x, or up to three octal digits in all. -/
def escape? (c : UInt8) (rest : Text) : Option (UInt8 × Nat) :=
  match simpleEscape? c with
  | some b => some (b, 0)
  | none =>
    if c == 0x78 then
      let ds := (rest.take 2).takeWhile Byte.isHexDigit
      (Decimal.readNat? 16 ds).map fun n => (n.toUInt8, ds.length)
    else if Byte.isOctalDigit c then
      let ds := (rest.take 2).takeWhile Byte.isOctalDigit
      (Decimal.readNat? 8 (c :: ds)).map fun n => (n.toUInt8, ds.length)
    else none

/-- The characters between the quotes, absent when an escape is wrong. -/
def characters? : Text → Option (List UInt8)
  | [] => some []
  | c :: rest =>
    if c == 0x5c then
      match rest with
      | [] => none
      | d :: rest' =>
        match escape? d rest' with
        | none => none
        | some (b, taken) => (characters? (rest'.drop taken)).map (b :: ·)
    else (characters? rest).map (c :: ·)
termination_by t => t.length
decreasing_by
  all_goals simp [List.length_drop]
  all_goals omega

/-- Whether the text after an opening quote ends with the first closing quote that no backslash
takes along. -/
def isTerminated (quote : UInt8) : Text → Bool
  | [] => false
  | c :: rest =>
    if c == 0x5c then
      match rest with
      | [] => false
      | _ :: rest' => isTerminated quote rest'
    else if c == quote then rest.isEmpty
    else isTerminated quote rest

/-- A character literal with its quotes: the sign-extended value of its first character, and
whether there are more; or the complaint about it. -/
def readChar (t : Text) : Except Complaint (UInt64 × Bool) :=
  match t with
  | [] => .error .unterminatedChar
  | quote :: rest =>
    if !isTerminated quote rest then .error .unterminatedChar
    else
      match characters? rest.dropLast with
      | none => .error .invalidEscape
      | some [] => .error .emptyChar
      | some (c :: more) => .ok (Slot.signExtend 8 c.toUInt64, !more.isEmpty)

end WatchExpr.Literal
