import WatchExpr.Machine.Slot

namespace WatchExpr.Decimal

structure Format where
  /-- Bits of the significand, the leading one included. -/
  precision : Nat
  /-- Bits of the exponent field. -/
  exponentBits : Nat

def double : Format := ⟨53, 11⟩

def single : Format := ⟨24, 8⟩

namespace Format

def minExponent (f : Format) : Int := 3 - Nat.pow 2 (f.exponentBits - 1) - (f.precision : Int)

/-- The largest value of the exponent field, kept for infinities and NaNs. -/
def specialField (f : Format) : Nat := Nat.pow 2 f.exponentBits - 1

end Format

inductive Magnitude where
  | finite (mantissa : Nat) (exponent : Int)
  | infinite
  | nan
  deriving Repr, DecidableEq

/-- Splits bits into a sign and a magnitude. -/
def Format.decode (f : Format) (bits : Nat) : Bool × Magnitude :=
  let fractionBits := f.precision - 1
  let fraction := bits % Nat.pow 2 fractionBits
  let field := bits / Nat.pow 2 fractionBits % Nat.pow 2 f.exponentBits
  let negative := bits / Nat.pow 2 (fractionBits + f.exponentBits) % 2 = 1
  let magnitude :=
    if field = f.specialField then if fraction = 0 then .infinite else .nan
    else if field = 0 then .finite fraction f.minExponent
    else .finite (Nat.pow 2 fractionBits + fraction) (f.minExponent + field - 1)
  (negative, magnitude)

/-- A decimal: the number `0.d₁d₂… · 10^point`. -/
structure Digits where
  digits : List Nat
  point : Int
  deriving Repr, DecidableEq

/-- How often a fraction below one has to be multiplied by ten to reach one. -/
def leadingZeros : (fuel : Nat) → (num den : Nat) → Nat
  | 0, _, _ => 0
  | fuel + 1, num, den => if den ≤ num * 10 then 0 else 1 + leadingZeros fuel (num * 10) den

/-- The place of the decimal point before the first digit of a positive fraction. -/
def pointOf (num den : Nat) : Int :=
  if den ≤ num then (digits 10 (num / den)).length
  else -(leadingZeros (Nat.log2 den + 1) num den : Int)

/-- A fraction scaled by a power of ten. -/
def scale (num den : Nat) (power : Int) : Nat × Nat :=
  if power ≥ 0 then (num * Nat.pow 10 power.toNat, den)
  else (num, den * Nat.pow 10 (-power).toNat)

/-- The open or closed range of numbers that round to a given one, over a common denominator. -/
structure Interval where
  low : Nat
  value : Nat
  high : Nat
  den : Nat
  /-- Whether the ends belong to it. -/
  closed : Bool

/-- The numbers nearer to `mantissa · 2^exponent` than to its neighbours. -/
def Format.interval (f : Format) (mantissa : Nat) (exponent : Int) : Interval :=
  -- in quarters of a unit in the last place
  let below := if mantissa = Nat.pow 2 (f.precision - 1) ∧ exponent > f.minExponent then 1 else 2
  let (up, den) :=
    if exponent ≥ 0 then (Nat.pow 2 exponent.toNat, 4) else (1, 4 * Nat.pow 2 (-exponent).toNat)
  { low := (4 * mantissa - below) * up
    value := 4 * mantissa * up
    high := (4 * mantissa + 2) * up
    den
    closed := mantissa % 2 = 0 }

/-- Whether `n` units of a grid lie in the range, the unit being ten to the minus `power`. -/
def Interval.contains (i : Interval) (power : Int) (n : Nat) : Bool :=
  let (lowNum, lowDen) := scale i.low i.den power
  let (highNum, highDen) := scale i.high i.den power
  if i.closed then lowNum ≤ n * lowDen && n * highDen ≤ highNum
  else lowNum < n * lowDen && n * highDen < highNum

/-- The nearer of the two neighbours of the value on a grid that lies in the range; of two equally
near ones the even one. -/
def Interval.onGrid? (i : Interval) (power : Int) : Option Nat :=
  let (num, den) := scale i.value i.den power
  let below := num / den
  let above := below + 1
  let twice := 2 * (num % den)
  match i.contains power below, i.contains power above with
  | true, true =>
    if twice < den then some below
    else if den < twice then some above
    else if below % 2 = 0 then some below else some above
  | true, false => some below
  | false, true => some above
  | false, false => none

/-- Tries ever finer grids. -/
def Interval.shortest (i : Interval) (point : Int) : (fuel count : Nat) → Digits
  | 0, _ => ⟨[], 0⟩
  | fuel + 1, count =>
    match i.onGrid? (count - point) with
    | some n =>
      let ds := digits 10 n
      ⟨(ds.reverse.dropWhile (· == 0)).reverse, point + ds.length - count⟩
    | none => i.shortest point fuel (count + 1)

/-- The shortest decimal form of a positive number. -/
def Format.shortest (f : Format) (mantissa : Nat) (exponent : Int) : Digits :=
  let i := f.interval mantissa exponent
  i.shortest (pointOf i.value i.den) (f.precision + 1) 1

structure Style where
  /-- The least exponent written positionally. -/
  minPositional : Int
  /-- The first exponent that is no longer written positionally. -/
  maxPositional : Int
  /-- The least number of exponent digits. -/
  exponentDigits : Nat
  positiveInfinity : Text
  negativeInfinity : Text
  nan : Text

/-- Values are written positionally from 0.0001 up to six places before the point. -/
def valueStyle : Style := ⟨-4, 6, 2, "+Inf", "-Inf", "NaN"⟩

def positional (d : Digits) : Text :=
  let ds : Text := d.digits.map digitByte
  let zeros (n : Nat) : Text := List.replicate n 0x30
  if d.point ≤ 0 then "0." ++ zeros (-d.point).toNat ++ ds
  else
    let n := d.point.toNat
    let whole := ds.take n ++ zeros (n - ds.length)
    if ds.length ≤ n then whole else whole ++ "." ++ ds.drop n

/-- A decimal with one digit before the point and an exponent. -/
def scientific (style : Style) (d : Digits) : Text :=
  let ds := d.digits.map digitByte
  let exponent := d.point - 1
  let sign : Text := if exponent < 0 then "-" else "+"
  let fraction : Text := if ds.length ≤ 1 then [] else "." ++ ds.drop 1
  ds.take 1 ++ fraction ++ "e" ++ sign
    ++ Text.zeroPad style.exponentDigits (Text.decimal exponent.natAbs)

def write (style : Style) (f : Format) (bits : Nat) : Text :=
  let (negative, magnitude) := f.decode bits
  let sign : Text := if negative then "-" else ""
  match magnitude with
  | .nan => style.nan
  | .infinite => if negative then style.negativeInfinity else style.positiveInfinity
  | .finite 0 _ => sign ++ "0"
  | .finite m e =>
    let d := f.shortest m e
    let exponent := d.point - 1
    if exponent < style.minPositional || style.maxPositional ≤ exponent then
      sign ++ scientific style d
    else sign ++ positional d

def writeDouble (bits : UInt64) : Text := write valueStyle double bits.toNat

def writeSingle (bits : UInt32) : Text := write valueStyle single bits.toNat

end WatchExpr.Decimal
