import WatchExpr.Decimal.Reading
import WatchExpr.Config.Toml.Basic

namespace WatchExpr.Toml

/-- The character of a code point written in hexadecimal digits. -/
def escaped (ds : Text) : Except Cause Text :=
  match if ds.all Byte.isHexDigit then Decimal.readNat? 16 ds else none with
  | none => .error .badEscape
  | some n =>
    if n < 0xd800 ∨ (0xe000 ≤ n ∧ n < 0x110000) then .ok (Utf8.encode n) else .error .badEscape

def decodeEscapes : Text → Except Cause Text
  | [] => .ok []
  | 0x5c :: 0x62 :: rest => return 0x08 :: (← decodeEscapes rest)
  | 0x5c :: 0x74 :: rest => return 0x09 :: (← decodeEscapes rest)
  | 0x5c :: 0x6e :: rest => return 0x0a :: (← decodeEscapes rest)
  | 0x5c :: 0x66 :: rest => return 0x0c :: (← decodeEscapes rest)
  | 0x5c :: 0x72 :: rest => return 0x0d :: (← decodeEscapes rest)
  | 0x5c :: 0x65 :: rest => return 0x1b :: (← decodeEscapes rest)
  | 0x5c :: 0x22 :: rest => return 0x22 :: (← decodeEscapes rest)
  | 0x5c :: 0x5c :: rest => return 0x5c :: (← decodeEscapes rest)
  | 0x5c :: 0x78 :: a :: b :: rest => return (← escaped [a, b]) ++ (← decodeEscapes rest)
  | 0x5c :: 0x75 :: a :: b :: c :: d :: rest =>
    return (← escaped [a, b, c, d]) ++ (← decodeEscapes rest)
  | 0x5c :: 0x55 :: a :: b :: c :: d :: e :: f :: g :: h :: rest =>
    return (← escaped [a, b, c, d, e, f, g, h]) ++ (← decodeEscapes rest)
  | 0x5c :: _ => .error .badEscape
  | c :: rest => return c :: (← decodeEscapes rest)

/-- Splits a string on one line from what follows its closing mark. A backslash keeps the mark
behind it from closing the string when escapes count. -/
def lineBody (mark : UInt8) (escapes : Bool) : Text → Except Cause (Text × Text)
  | [] => .error .openString
  | c :: rest =>
    if c == mark then .ok ([], rest)
    else if isLineEnd c then .error .openString
    else if escapes && c == 0x5c then
      match rest with
      | [] => .error .openString
      | d :: rest => (lineBody mark escapes rest).map fun (body, rest) => (c :: d :: body, rest)
    else (lineBody mark escapes rest).map fun (body, rest) => (c :: body, rest)

/-- Splits a string of several lines from what follows its three closing marks, in front of which
one or two more belong to the string. -/
def blockBody (mark : UInt8) (escapes : Bool) : Text → Except Cause (Text × Text)
  | [] => .error .openString
  | c :: rest =>
    if c == mark && rest.take 2 == [mark, mark] then
      let after := rest.drop 2
      let more := after.takeWhile (· == mark)
      if 2 < more.length then .error .openString else .ok (more, after.drop more.length)
    else if escapes && c == 0x5c then
      match rest with
      | [] => .error .openString
      | d :: rest => (blockBody mark escapes rest).map fun (body, rest) => (c :: d :: body, rest)
    else (blockBody mark escapes rest).map fun (body, rest) => (c :: body, rest)

/-- Whether only white space stands before the end of the line. -/
def endsLine (t : Text) : Bool := (skipBlank t).head?.any isLineEnd

inductive Joining where
  | plain
  /-- Behind a backslash that keeps its character. -/
  | escape
  /-- In the white space behind a backslash at the end of a line. -/
  | gap
  deriving Repr, DecidableEq

/-- Joins the lines of a string: a backslash at the end of a line goes, with all white space up to
the next character. -/
def joinLines : Joining → Text → Text
  | _, [] => []
  | j, c :: rest =>
    if j = .escape then c :: joinLines .plain rest
    else if j = .gap ∧ (isBlank c ∨ isLineEnd c) then joinLines .gap rest
    else if c == 0x5c then
      if endsLine rest then joinLines .gap rest else c :: joinLines .escape rest
    else c :: joinLines .plain rest

/-- Drops the line end right after the marks that open a string of several lines. -/
def dropLineEnd : Text → Text
  | 0x0a :: rest => rest
  | 0x0d :: 0x0a :: rest => rest
  | t => t

def readLineString (mark : UInt8) (rest : Text) : Except Cause (Text × Text) := do
  let (body, rest) ← lineBody mark (mark == 0x22) rest
  return (← if mark == 0x22 then decodeEscapes body else .ok body, rest)

/-- A string of several lines, after its three marks. -/
def readBlockString (mark : UInt8) (rest : Text) : Except Cause (Text × Text) := do
  let (body, rest) ← blockBody mark (mark == 0x22) rest
  let body := dropLineEnd body
  return (← if mark == 0x22 then decodeEscapes (joinLines .plain body) else .ok body, rest)

def readString (mark : UInt8) (rest : Text) : Except Cause (Text × Text) :=
  if rest.take 2 == [mark, mark] then readBlockString mark (rest.drop 2)
  else readLineString mark rest

/-- Digits without the single underscores between them. -/
def plainDigits? (isDigit : UInt8 → Bool) (t : Text) : Option Text :=
  let parts := t.splitOn 0x5f
  if parts.any List.isEmpty || !parts.flatten.all isDigit then none else some parts.flatten

/-- Decimal digits without a leading zero. -/
def wholeDigits? (t : Text) : Option Text :=
  match t with
  | 0x30 :: _ :: _ => none
  | _ => plainDigits? Byte.isDigit t

def splitSign : Text → Bool × Text
  | 0x2b :: rest => (false, rest)
  | 0x2d :: rest => (true, rest)
  | t => (false, t)

/-- A whole number: decimal with an optional sign, or in another base after its mark. -/
def readInteger? (t : Text) : Option Int :=
  let based (base : Nat) (ds : Text) : Option Int :=
    ((plainDigits? Byte.isHexDigit ds).bind (Decimal.readNat? base)).map Int.ofNat
  match t with
  | 0x30 :: 0x78 :: ds => based 16 ds
  | 0x30 :: 0x6f :: ds => based 8 ds
  | 0x30 :: 0x62 :: ds => based 2 ds
  | _ =>
    let (negative, ds) := splitSign t
    ((wholeDigits? ds).bind (Decimal.readNat? 10)).map fun n =>
      if negative then -(n : Int) else n

/-- The digits of a number with a point or an exponent, rid of underscores. There are digits on
both sides of the point. -/
def floatDigits? (t : Text) : Option Text := do
  let inNumber (c : UInt8) : Bool := Byte.isDigit c || c == 0x5f
  let whole ← wholeDigits? (t.takeWhile inNumber)
  let (fraction, rest) ←
    match t.dropWhile inNumber with
    | 0x2e :: rest =>
      (plainDigits? Byte.isDigit (rest.takeWhile inNumber)).map fun ds =>
        (0x2e :: ds, rest.dropWhile inNumber)
    | rest => some ([], rest)
  match rest with
  | [] => if fraction.isEmpty then none else some (whole ++ fraction)
  | c :: rest =>
    let (negative, ds) := splitSign rest
    let sign : Text := if negative then "-" else ""
    if c == 0x65 || c == 0x45 then
      (plainDigits? Byte.isDigit ds).map fun ds => whole ++ fraction ++ 0x65 :: sign ++ ds
    else none

/-- A floating-point number in the range of doubles, infinity or no number. -/
def readFloat? (t : Text) : Option UInt64 :=
  let (negative, t) := splitSign t
  let bits : Option UInt64 :=
    if t = ("inf" : Text) then some 0x7ff0000000000000
    else if t = ("nan" : Text) then some 0x7ff8000000000001
    else ((floatDigits? t).bind Decimal.double.read?).map Nat.toUInt64
  bits.map fun b => if negative then b ||| 0x8000000000000000 else b

/-- Whether a text is a number of two digits in a range. -/
def isPair (low high : Nat) (t : Text) : Bool :=
  t.length == 2 && t.all Byte.isDigit
    && (Decimal.readNat? 10 t).any fun n => low ≤ n && n ≤ high

def daysInMonth (year month : Nat) : Nat :=
  if month = 2 then
    if year % 4 = 0 ∧ (year % 100 ≠ 0 ∨ year % 400 = 0) then 29 else 28
  else if month = 4 ∨ month = 6 ∨ month = 9 ∨ month = 11 then 30
  else 31

/-- A day of the calendar: year, month and day. -/
def isDate (t : Text) : Bool :=
  match t.splitOn 0x2d with
  | [y, m, d] =>
    let number (t : Text) : Nat := (Decimal.readNat? 10 t).getD 0
    y.length == 4 && y.all Byte.isDigit && isPair 1 12 m
      && isPair 1 (daysInMonth (number y) (number m)) d
  | _ => false

/-- A time of day: hours, minutes and, if given, seconds with a fraction. -/
def isTime (t : Text) : Bool :=
  match t.splitOn 0x3a with
  | [h, m] => isPair 0 23 h && isPair 0 59 m
  | [h, m, s] =>
    isPair 0 23 h && isPair 0 59 m
      && match s.splitOn 0x2e with
        | [s] => isPair 0 59 s
        | [s, f] => isPair 0 59 s && !f.isEmpty && f.all Byte.isDigit
        | _ => false
  | _ => false

/-- A time of day with its distance from universal time, if given. -/
def isZonedTime (t : Text) : Bool :=
  let zone := t.drop (t.length - 6)
  let isZone : Bool :=
    match zone with
    | c :: rest =>
      (c == 0x2b || c == 0x2d)
        && match rest.splitOn 0x3a with
          | [h, m] => isPair 0 24 h && isPair 0 60 m
          | _ => false
    | [] => false
  isTime t
    || (t.getLast?.any (fun c => c == 0x5a || c == 0x7a) && isTime t.dropLast)
    || (isZone && isTime (t.take (t.length - 6)))

/-- A date, a time of day, or both with a letter or a space between them. -/
def isMoment (t : Text) : Bool :=
  isTime t
    || (isDate (t.take 10)
      && match t.drop 10 with
        | [] => true
        | c :: time => (c == 0x54 || c == 0x74 || c == 0x20) && isZonedTime time)

/-- The bytes of words: numbers, truth values and moments. -/
def isWordByte (c : UInt8) : Bool :=
  Byte.isAlnum c || c == 0x5f || c == 0x2b || c == 0x2d || c == 0x2e || c == 0x3a

/-- The word at the front of a text. A date takes the time behind a space with it. -/
def takeWord (t : Text) : Text :=
  let word := t.takeWhile isWordByte
  match t.drop word.length with
  | 0x20 :: c :: rest =>
    if isDate word && Byte.isDigit c then word ++ 0x20 :: (c :: rest).takeWhile isWordByte
    else word
  | _ => word

/-- The value of a word. Whole numbers have to fit a signed word. -/
def wordValue (w : Text) : Except Cause Scalar :=
  if w = ("true" : Text) then .ok (.flag true)
  else if w = ("false" : Text) then .ok (.flag false)
  else
    match readInteger? w, readFloat? w with
    | some n, _ =>
      if -0x8000000000000000 ≤ n ∧ n < 0x8000000000000000 then .ok (.integer n)
      else .error .badValue
    | none, some bits => .ok (.float bits)
    | none, none => if isMoment w then .ok (.moment w) else .error .badValue

end WatchExpr.Toml
