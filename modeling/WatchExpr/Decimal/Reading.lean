import WatchExpr.Decimal.Notation

namespace WatchExpr.Decimal

/-- The value of digits in a base, absent for an empty text or a foreign digit. -/
def readNat? (base : Nat) : Text → Option Nat
  | [] => none
  | t => t.foldl (fun acc c => do
      let n ← acc
      let d ← Byte.digitValue? c
      if d < base then some (n * base + d) else none) (some 0)

/-- A whole number that fits 64 bits. -/
def readWord? (base : Nat) (t : Text) : Option UInt64 := do
  let n ← readNat? base t
  if n < UInt64.size then some n.toUInt64 else none

/-- Rounds a quotient to the nearest whole number, a half to the even neighbour. -/
def roundQuotient (num den : Nat) : Nat :=
  let q := num / den
  let twice := 2 * (num % den)
  if twice < den then q else if den < twice then q + 1 else if q % 2 = 0 then q else q + 1

def scaleBinary (num den : Nat) (power : Int) : Nat × Nat :=
  if power ≥ 0 then (num * Nat.pow 2 power.toNat, den)
  else (num, den * Nat.pow 2 (-power).toNat)

/-- The bits of the representable number nearest to a positive fraction, absent when it is out of
range. -/
def Format.round? (f : Format) (num den : Nat) : Option Nat :=
  let fractionBits := f.precision - 1
  -- the fraction lies between 2^(width - 1) and 2^(width + 1)
  let width : Int := (Nat.log2 num : Int) - Nat.log2 den
  let fits (e : Int) : Bool :=
    let (n, d) := scaleBinary num den (-e)
    n < d * Nat.pow 2 f.precision
  let wide := max f.minExponent (width - f.precision)
  let exponent := if fits wide then wide else wide + 1
  let (n, d) := scaleBinary num den (-exponent)
  let mantissa := roundQuotient n d
  let field := (exponent - f.minExponent).toNat
  -- a mantissa that reaches the next power of two carries into the exponent field
  let bits := field * Nat.pow 2 fractionBits + mantissa
  if bits / Nat.pow 2 fractionBits ≥ f.specialField then none else some bits

/-- The parts of a written number: digits before and after the point and the exponent. -/
structure Parts where
  whole : Text
  fraction : Text
  exponent : Option Int

/-- The value of exponent digits. Once five digits are taken the rest is passed over: such an
exponent is out of every format's range, save for a number whose own digits run to thousands. -/
def exponentValue (ds : Text) : Nat :=
  ds.foldl (fun e c => if e < 10000 then e * 10 + (c.toNat - 0x30) else e) 0

/-- The exponent after its mark: an optional sign and at least one digit. -/
def readExponent? (t : Text) : Option Int :=
  let (negative, ds) :=
    match t with
    | 0x2b :: rest => (false, rest)
    | 0x2d :: rest => (true, rest)
    | _ => (false, t)
  if ds.isEmpty || !ds.all Byte.isDigit then none
  else some (if negative then -(exponentValue ds : Int) else exponentValue ds)

/-- Splits a number at its point and exponent mark. -/
def split? (isDigit : UInt8 → Bool) (isMark : UInt8 → Bool) (t : Text) : Option Parts :=
  let whole := t.takeWhile isDigit
  let afterWhole := t.dropWhile isDigit
  let (fraction, afterFraction) :=
    match afterWhole with
    | 0x2e :: rest => (rest.takeWhile isDigit, rest.dropWhile isDigit)
    | _ => ([], afterWhole)
  if whole.isEmpty && fraction.isEmpty then none
  else
    match afterFraction with
    | [] => some ⟨whole, fraction, none⟩
    | c :: rest =>
      if isMark c then (readExponent? rest).map fun e => ⟨whole, fraction, some e⟩ else none

/-- Reads a floating-point number in decimal, or in hexadecimal with a binary exponent; absent
when the text is no number or the number is out of range. -/
def Format.read? (f : Format) (t : Text) : Option Nat :=
  match t with
  | 0x30 :: x :: rest =>
    if x == 0x78 || x == 0x58 then
      match split? Byte.isHexDigit (fun c => c == 0x70 || c == 0x50) rest with
      | some ⟨whole, fraction, some e⟩ => do
        let n ← readNat? 16 (whole ++ fraction)
        if n = 0 then return 0
        let (num, den) := scaleBinary n 1 (e - 4 * fraction.length)
        f.round? num den
      | _ => none
    else decimal? t
  | _ => decimal? t
where
  decimal? (t : Text) : Option Nat :=
    match split? Byte.isDigit (fun c => c == 0x65 || c == 0x45) t with
    | some ⟨whole, fraction, e?⟩ => do
      let n ← readNat? 10 (whole ++ fraction)
      if n = 0 then return 0
      let power := e?.getD 0 - fraction.length
      let (num, den) := scale n 1 power
      f.round? num den
    | none => none

end WatchExpr.Decimal
