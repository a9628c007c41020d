import WatchExpr.Types.Relations

namespace WatchExpr.TypeTable

/-- Sets a declarator apart where a suffix would bind to its wrong end. -/
def parenthesize (inner : Text) : Text :=
  if inner.startsWith "*" || inner.startsWith "&" || Text.hasInfix "::*" inner then
    "(" ++ inner ++ ")"
  else inner

/-- A base type with the declarator around the name; types of owners and parameters are written by
`write`, and types deeper than `depth` as dots. -/
def declarator (t : TypeTable) (write : TypeKey → Text) :
    (depth : Nat) → TypeKey → (inner : Text) → Text × Text
  | 0, _, inner => ("...", inner)
  | depth + 1, k, inner =>
    match k.kind with
    | .pointer => t.declarator write depth (t.direct k) ("*" ++ inner)
    | .lref => t.declarator write depth (t.direct k) ("&" ++ inner)
    | .rref => t.declarator write depth (t.direct k) ("&&" ++ inner)
    | .memberPointer =>
      t.declarator write depth (t.direct k) (write (t.owner k) ++ "::*" ++ inner)
    | .array =>
      t.declarator write depth (t.direct k)
        (parenthesize inner ++ "[" ++ Text.decimal (t.count k).toNat ++ "]")
    | .function | .method =>
      t.declarator write depth (t.direct k)
        (parenthesize inner ++ "(" ++ Text.join ", " ((t.params k).map write) ++ ")")
    | .modifier =>
      let (base, decl) := t.declarator write depth (t.direct k) inner
      let qualifier := t.name k
      (if qualifier.isEmpty then base else qualifier ++ " " ++ base, decl)
    | .null => ("void", inner)
    | .basic b => (b.name, inner)
    | _ =>
      let name := t.name k
      (if name.isEmpty then "<anonymous " ++ k.kind.name ++ ">" else name, inner)

def spelled (base decl : Text) : Text := if decl.isEmpty then base else base ++ " " ++ decl

/-- A type whose owners and parameters are written by `write`. -/
def describeBy (t : TypeTable) (write : TypeKey → Text) (k : TypeKey) : Text :=
  let (base, decl) := t.declarator write (maxChain + 1) k []
  spelled base decl

/-- A type with owners and parameters nested at most `fuel` deep. -/
def describeWithin (t : TypeTable) : (fuel : Nat) → TypeKey → Text
  | 0, _ => "..."
  | fuel + 1, k => if k.isZero then "<no type>" else t.describeBy (t.describeWithin fuel) k

/-- A type as a C declarator. Nesting deeper than the table means a type that contains itself. -/
def describe (t : TypeTable) (k : TypeKey) : Text := t.describeWithin (t.entries.size + 2) k

end WatchExpr.TypeTable
