namespace WatchExpr

/-- A byte string. -/
abbrev Text := List UInt8

def Text.ofString (s : String) : Text := s.toUTF8.data.toList

instance : Coe String Text := ⟨Text.ofString⟩

def ascii (c : Char) : UInt8 := c.toNat.toUInt8

namespace Byte

def isSpace (c : UInt8) : Bool := c == 0x20 || (0x09 ≤ c && c ≤ 0x0d)

def isDigit (c : UInt8) : Bool := 0x30 ≤ c && c ≤ 0x39

def isLower (c : UInt8) : Bool := 0x61 ≤ c && c ≤ 0x7a

def isUpper (c : UInt8) : Bool := 0x41 ≤ c && c ≤ 0x5a

def isAlpha (c : UInt8) : Bool := isLower c || isUpper c

def isAlnum (c : UInt8) : Bool := isAlpha c || isDigit c

def isOctalDigit (c : UInt8) : Bool := 0x30 ≤ c && c ≤ 0x37

/-- The value of a digit in bases up to 36, letters in either case. -/
def digitValue? (c : UInt8) : Option Nat :=
  if isDigit c then some (c.toNat - 0x30)
  else if isLower c then some (c.toNat - 0x61 + 10)
  else if isUpper c then some (c.toNat - 0x41 + 10)
  else none

def isHexDigit (c : UInt8) : Bool :=
  isDigit c || (0x61 ≤ c && c ≤ 0x66) || (0x41 ≤ c && c ≤ 0x46)

def toLower (c : UInt8) : UInt8 := if isUpper c then c + 0x20 else c

end Byte

/-- The lower-case digit of a value below 36. -/
def digitByte (d : Nat) : UInt8 := if d < 10 then (0x30 + d).toUInt8 else (0x61 + (d - 10)).toUInt8

/-- Digits of a number, least significant first, at most `fuel` of them. -/
def digitsRev (base : Nat) : (fuel : Nat) → Nat → List Nat
  | 0, _ => []
  | fuel + 1, n => if n < base then [n] else n % base :: digitsRev base fuel (n / base)

/-- The digits of a number, most significant first. -/
def digits (base n : Nat) : List Nat := (digitsRev base (Nat.log2 n + 1) n).reverse

namespace Text

def decimal (n : Nat) : Text := (digits 10 n).map digitByte

/-- A signed number: a minus sign only when it is negative. -/
def integer : Int → Text
  | .ofNat n => decimal n
  | .negSucc n => 0x2d :: decimal (n + 1)

/-- Lower-case hexadecimal digits without a mark. -/
def hexadecimal (n : Nat) : Text := (digits 16 n).map digitByte

def zeroPad (width : Nat) (t : Text) : Text := List.replicate (width - t.length) 0x30 ++ t

def upperByte (c : UInt8) : UInt8 := if Byte.isLower c then c - 0x20 else c

/-- Upper-case hexadecimal digits, padded with zeros. -/
def upperHex (width n : Nat) : Text := (zeroPad width (hexadecimal n)).map upperByte

def toLower (t : Text) : Text := t.map Byte.toLower

/-- Lower case with the two letters outside ASCII whose lower case is an ASCII letter: the dotted
capital I and the Kelvin sign. Compared with ASCII words this is the full lower-case mapping. -/
def foldCase : Text → Text
  | [] => []
  | 0xc4 :: 0xb0 :: rest => 0x69 :: foldCase rest
  | 0xe2 :: 0x84 :: 0xaa :: rest => 0x6b :: foldCase rest
  | c :: rest => Byte.toLower c :: foldCase rest

/-- Letters that differ from an ASCII letter only in case, the Kelvin sign and the long s among
them, as that letter in lower case. Compared with ASCII words this is equality up to case. -/
def caseKey : Text → Text
  | [] => []
  | 0xe2 :: 0x84 :: 0xaa :: rest => 0x6b :: caseKey rest
  | 0xc5 :: 0xbf :: rest => 0x73 :: caseKey rest
  | c :: rest => Byte.toLower c :: caseKey rest

/-- The parts of a list of texts with a separator between neighbours. -/
def join (sep : Text) : List Text → Text
  | [] => []
  | [t] => t
  | t :: rest => t ++ sep ++ join sep rest

/-- Removes trailing bytes that satisfy a test. -/
def trimRight (p : UInt8 → Bool) (t : Text) : Text := (t.reverse.dropWhile p).reverse

def startsWith (t part : Text) : Bool := part.isPrefixOf t

def endsWith (t part : Text) : Bool := part.isSuffixOf t

/-- Whether a text occurs inside another. -/
def hasInfix (part : Text) : Text → Bool
  | [] => part.isEmpty
  | c :: rest => part.isPrefixOf (c :: rest) || hasInfix part rest

/-- The pieces between occurrences of a separator byte. -/
def splitOn (sep : UInt8) : Text → List Text
  | [] => [[]]
  | c :: rest =>
    if c == sep then [] :: splitOn sep rest
    else
      match splitOn sep rest with
      | [] => [[c]]
      | part :: parts => (c :: part) :: parts

/-- Byte-wise lexicographic order. -/
def le : Text → Text → Bool
  | [], _ => true
  | _ :: _, [] => false
  | a :: as, b :: bs => a < b || (a == b && le as bs)

def sort (ts : List Text) : List Text := ts.mergeSort le

end Text

end WatchExpr
