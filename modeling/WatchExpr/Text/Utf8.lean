import WatchExpr.Text.Basic

namespace WatchExpr.Utf8

/-- One decoding step: a code point with the length of its sequence, or a stray byte. -/
inductive Unit where
  | scalar (code : Nat) (width : Nat)
  | stray (byte : UInt8)
  deriving Repr, DecidableEq

private def continuation? (b : UInt8) : Option Nat :=
  if 0x80 ≤ b && b ≤ 0xbf then some (b.toNat - 0x80) else none

/-- Decodes the sequence at the front of a non-empty text. Overlong forms, surrogates and numbers
above the last code point are no sequences. -/
def first (b : UInt8) (rest : Text) : Unit :=
  if b < 0x80 then .scalar b.toNat 1
  else if 0xc2 ≤ b && b ≤ 0xdf then
    match rest with
    | c1 :: _ =>
      match continuation? c1 with
      | some v1 => .scalar ((b.toNat - 0xc0) * 64 + v1) 2
      | none => .stray b
    | [] => .stray b
  else if 0xe0 ≤ b && b ≤ 0xef then
    match rest with
    | c1 :: c2 :: _ =>
      match continuation? c1, continuation? c2 with
      | some v1, some v2 =>
        let code := (b.toNat - 0xe0) * 4096 + v1 * 64 + v2
        if code < 0x800 || (0xd800 ≤ code && code ≤ 0xdfff) then .stray b else .scalar code 3
      | _, _ => .stray b
    | _ => .stray b
  else if 0xf0 ≤ b && b ≤ 0xf4 then
    match rest with
    | c1 :: c2 :: c3 :: _ =>
      match continuation? c1, continuation? c2, continuation? c3 with
      | some v1, some v2, some v3 =>
        let code := (b.toNat - 0xf0) * 262144 + v1 * 4096 + v2 * 64 + v3
        if code < 0x10000 || 0x10ffff < code then .stray b else .scalar code 4
      | _, _, _ => .stray b
    | _ => .stray b
  else .stray b

/-- How many bytes after the first one a step takes. -/
def Unit.extra : Unit → Nat
  | .scalar _ width => width - 1
  | .stray _ => 0

/-- The decoding steps of a text, each with the bytes it takes. -/
def units : Text → List (Unit × Text)
  | [] => []
  | b :: rest =>
    let u := first b rest
    (u, b :: rest.take u.extra) :: units (rest.drop u.extra)
termination_by t => t.length
decreasing_by
  simp only [List.length_drop, List.length_cons]
  omega

def isValid (t : Text) : Bool :=
  (units t).all fun (u, _) =>
    match u with
    | .scalar _ _ => true
    | .stray _ => false

def encode (code : Nat) : Text :=
  if code < 0x80 then [code.toUInt8]
  else if code < 0x800 then [(0xc0 + code / 64).toUInt8, (0x80 + code % 64).toUInt8]
  else if code < 0x10000 then
    [(0xe0 + code / 4096).toUInt8, (0x80 + code / 64 % 64).toUInt8, (0x80 + code % 64).toUInt8]
  else
    [(0xf0 + code / 262144).toUInt8, (0x80 + code / 4096 % 64).toUInt8,
      (0x80 + code / 64 % 64).toUInt8, (0x80 + code % 64).toUInt8]

end WatchExpr.Utf8

namespace WatchExpr

/-- Code points with the white space property. -/
def isBlankCode (code : Nat) : Bool :=
  (0x09 ≤ code && code ≤ 0x0d) || code == 0x20 || code == 0x85 || code == 0xa0 || code == 0x1680
    || (0x2000 ≤ code && code ≤ 0x200a) || code == 0x2028 || code == 0x2029 || code == 0x202f
    || code == 0x205f || code == 0x3000

/-- Whether a decoding step is white space; a stray byte never is. -/
def Utf8.Unit.isBlank : Utf8.Unit → Bool
  | .scalar code _ => isBlankCode code
  | .stray _ => false

/-- Removes white space from both ends. -/
def Text.trim (t : Text) : Text :=
  let inner := (Utf8.units t).dropWhile (·.1.isBlank)
  (inner.reverse.dropWhile (·.1.isBlank)).reverse.flatMap Prod.snd

end WatchExpr
