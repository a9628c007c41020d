import WatchExpr.Types.Table

namespace WatchExpr

/-- The length of chains that are followed; longer ones are cut off. -/
def maxChain : Nat := 64

namespace TypeTable

/-- Takes off at most `fuel` qualifiers, aliases and completed forward declarations. -/
def unwrapWithin (t : TypeTable) : (fuel : Nat) → TypeKey → TypeKey
  | 0, k => k
  | fuel + 1, k =>
    if k.kind.isTransparent then
      let d := t.direct k
      if d.isZero then k else t.unwrapWithin fuel d
    else k

/-- The type behind qualifiers, aliases and forward declarations. -/
def unwrap (t : TypeTable) (k : TypeKey) : TypeKey := t.unwrapWithin maxChain k

/-- The type behind names, an enumeration giving its underlying integer. -/
def unwrapEnum (t : TypeTable) (k : TypeKey) : TypeKey :=
  let k := t.unwrap k
  if k.kind == .enum then
    let d := t.direct k
    if d.isZero then k else t.unwrap d
  else k

def group (t : TypeTable) (k : TypeKey) : Group := (t.unwrap k).kind.group

def isBasicOrEnum (t : TypeTable) (k : TypeKey) : Bool :=
  let kind := (t.unwrap k).kind
  kind.isBasic || kind == .enum

end TypeTable

/-- Integers narrower than 32 bits become 32-bit signed integers. -/
def TypeKey.promote (k : TypeKey) : TypeKey :=
  match k.kind with
  | .basic .bool | .basic .s8 | .basic .s16 | .basic .u8 | .basic .u16 | .basic .char8
  | .basic .char16 | .basic .uchar8 | .basic .uchar16 => .basic .s32
  | _ => k

namespace TypeTable

/-- The common type of a binary operation: double beats float, float beats integers, the wider
integer beats the narrower, and at equal width unsigned wins. -/
def coerce (t : TypeTable) (l r : TypeKey) : TypeKey :=
  let l := (t.unwrapEnum l).promote
  let r := (t.unwrapEnum r).promote
  if l.kind == .basic .f64 || r.kind == .basic .f64 then .basic .f64
  else if l.kind == .basic .f32 || r.kind == .basic .f32 then .basic .f32
  else
    let ls := t.byteSize l
    let rs := t.byteSize r
    if rs < ls then l
    else if ls < rs then r
    else if r.group == .u && l.group != .u then r
    else l

/-- Structural equality down to a depth; deeper types are taken as different. -/
def matchWithin (t : TypeTable) : (depth : Nat) → TypeKey → TypeKey → Bool
  | 0, _, _ => false
  | depth + 1, l, r =>
    let l := t.unwrap l
    let r := t.unwrap r
    if l = r then true
    else if l.kind ≠ r.kind then false
    else
      match l.kind with
      | .pointer | .lref | .rref => t.matchWithin depth (t.direct l) (t.direct r)
      | .memberPointer =>
        t.matchWithin depth (t.direct l) (t.direct r)
          && t.matchWithin depth (t.owner l) (t.owner r)
      | .array => t.count l == t.count r && t.matchWithin depth (t.direct l) (t.direct r)
      | .function | .method =>
        t.count l == t.count r
          && t.matchWithin depth (t.direct l) (t.direct r)
          && (l.kind != .method || t.matchWithin depth (t.owner l) (t.owner r))
          && (t.params l).length == (t.params r).length
          && ((t.params l).zip (t.params r)).all fun (a, b) => t.matchWithin depth a b
      | .record _ | .enum => false
      | _ => true

def sameType (t : TypeTable) (l r : TypeKey) : Bool := t.matchWithin (maxChain + 1) l r

/-- What a pointer, reference or array refers to, without its names. -/
def pointee (t : TypeTable) (k : TypeKey) : TypeKey :=
  let k := t.unwrap k
  match k.kind with
  | .pointer | .lref | .rref | .array => t.unwrap (t.direct k)
  | _ => .zero

end TypeTable

end WatchExpr
