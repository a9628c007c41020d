import WatchExpr.Text.Printable
import WatchExpr.Text.Utf8

namespace WatchExpr.Hex

def encodeByte (b : UInt8) : Text := [digitByte (b.toNat / 16), digitByte (b.toNat % 16)]

def encode (bytes : List UInt8) : Text := bytes.flatMap encodeByte

/-- The pairs of digits with a space between them. -/
def encodeSpaced (bytes : List UInt8) : Text := Text.join [0x20] (bytes.map encodeByte)

/-- Why a text is no sequence of digit pairs. -/
inductive Error where
  | invalidByte (byte : UInt8)
  | oddLength
  deriving Repr, DecidableEq

def digit? (c : UInt8) : Option Nat := if Byte.isHexDigit c then Byte.digitValue? c else none

/-- Reads pairs of digits in either case. The first byte that is no digit is reported; a text of
digits with one left over has odd length. -/
def decode : Text → Except Error (List UInt8)
  | [] => .ok []
  | [c] =>
    match digit? c with
    | some _ => .error .oddLength
    | none => .error (.invalidByte c)
  | c :: d :: rest =>
    match digit? c, digit? d with
    | none, _ => .error (.invalidByte c)
    | some _, none => .error (.invalidByte d)
    | some hi, some lo => (decode rest).map ((hi * 16 + lo).toUInt8 :: ·)

/-- A byte read as a code point, with the character itself when it is printable. -/
def codePoint (b : UInt8) : Text :=
  let shown : Text := "U+" ++ Text.upperHex 4 b.toNat
  if Printable.isPrintable b.toNat then shown ++ " '" ++ Utf8.encode b.toNat ++ "'" else shown

def Error.message : Error → Text
  | .invalidByte b => "encoding/hex: invalid byte: " ++ codePoint b
  | .oddLength => "encoding/hex: odd length hex string"

end WatchExpr.Hex

namespace WatchExpr.Quoted

/-- The one-letter escapes of control characters. -/
def shortEscape? (code : Nat) : Option UInt8 :=
  match code with
  | 7 => some 0x61
  | 8 => some 0x62
  | 12 => some 0x66
  | 10 => some 0x6e
  | 13 => some 0x72
  | 9 => some 0x74
  | 11 => some 0x76
  | _ => none

private def hexEscape (letter : UInt8) (width n : Nat) : Text :=
  0x5c :: letter :: Text.zeroPad width (Text.hexadecimal n)

/-- The written form of one decoding step. -/
def escapeUnit : Utf8.Unit → Text → Text
  | .stray b, _ => hexEscape 0x78 2 b.toNat
  | .scalar code _, source =>
    if code = 0x22 || code = 0x5c then 0x5c :: source
    else if Printable.isPrintable code then source
    else
      match shortEscape? code with
      | some letter => [0x5c, letter]
      | none =>
        if code < 0x20 || code = 0x7f then hexEscape 0x78 2 code
        else if code < 0x10000 then hexEscape 0x75 4 code
        else hexEscape 0x55 8 code

/-- A text between double quotes. -/
def quote (t : Text) : Text :=
  0x22 :: (Utf8.units t).flatMap (fun (u, source) => escapeUnit u source) ++ [0x22]

end WatchExpr.Quoted
