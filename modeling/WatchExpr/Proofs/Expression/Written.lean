import WatchExpr.Proofs.Expression.Erasure

namespace WatchExpr

namespace Token

def symbol (literal : Text) : Token := ⟨.symbol, literal, 0⟩

def word (literal : Text) : Token := ⟨.identifier, literal, 0⟩

def number (literal : Text) : Token := ⟨.numeric, literal, 0⟩

def char (literal : Text) : Token := ⟨.char, literal, 0⟩

end Token

def TypeExpr.unplaced : TypeExpr → TypeExpr
  | named _ name k => named .nowhere name k
  | pointer _ elem => pointer .nowhere elem.unplaced
  | array _ elem count => array .nowhere elem.unplaced count

/-- An expression without places, the names of its types kept. -/
def Expr.unplaced : Expr → Expr
  | missing => missing
  | int _ v isChar => int .nowhere v isChar
  | float _ bits isSingle => float .nowhere bits isSingle
  | leaf _ name code k mode => leaf .nowhere name code k mode
  | .type t => .type t.unplaced
  | unary _ op x => unary .nowhere op x.unplaced
  | binary _ op x y => binary .nowhere op x.unplaced y.unplaced
  | ternary _ c yes no => ternary .nowhere c.unplaced yes.unplaced no.unplaced
  | cast _ t x => cast .nowhere t.unplaced x.unplaced
  | sizeof _ x => sizeof .nowhere x.unplaced
  | member _ x field arrow => member .nowhere x.unplaced ⟨.nowhere, field.name⟩ arrow
  | index _ x i => index .nowhere x.unplaced i.unplaced
  | addressOf _ x => addressOf .nowhere x.unplaced
  | deref _ x => deref .nowhere x.unplaced

theorem Expr.placeless_unplaced : Placeless unplaced := by
  constructor <;> intros <;> rfl

inductive Sigil where
  | operator (op : PrefixOp)
  | deref
  | addressOf
  deriving DecidableEq

namespace Sigil

def symbol : Sigil → Text
  | operator op => op.symbol
  | deref => "*"
  | addressOf => "&"

def mark : Sigil → Parser.Mark
  | operator op => .operator op
  | deref => .deref
  | addressOf => .addressOf

def apply (x : Expr) : Sigil → Expr
  | operator op => .unary .nowhere op x
  | deref => .deref .nowhere x
  | addressOf => .addressOf .nowhere x

end Sigil

/-- A type as it is written. -/
inductive WrittenType where
  | name (literal : Text)
  /-- A sign word, possibly with a builtin integer, and the text from the first to the last word. -/
  | signed (isUnsigned : Bool) (integer : Option Text) (wording : Text)
  | pointer (elem : WrittenType)
  | array (elem : WrittenType) (count : Text)

namespace WrittenType

def tree (c : Context) : WrittenType → TypeExpr
  | name literal => .named .nowhere literal ((c.typeNamed? literal).getD .zero)
  | signed isUnsigned integer wording =>
    let k := (integer.bind builtinType?).getD .s32
    .named .nowhere wording (.basic (if isUnsigned then k.toUnsigned else k))
  | pointer elem => .pointer .nowhere (elem.tree c)
  | array elem count =>
    .array .nowhere (elem.tree c) ((Literal.readCount? (Literal.trimIntSuffix count)).getD 0)

def signWord (isUnsigned : Bool) : Text := if isUnsigned then "unsigned" else "signed"

def tokens : WrittenType → List Token
  | name literal => [.word literal]
  | signed isUnsigned integer _ => .word (signWord isUnsigned) :: (integer.map Token.word).toList
  | pointer elem => elem.tokens ++ [.symbol "*"]
  | array elem count => elem.tokens ++ [.symbol "[", .number count, .symbol "]"]

end WrittenType

/-- An expression as it is written, but for its parentheses. -/
inductive Written where
  | number (literal : Text)
  | char (literal : Text)
  | name (literal : Text)
  /-- A type that stands for itself. -/
  | type (t : WrittenType)
  | sigil (s : Sigil) (x : Written)
  | sizeof (x : Written)
  | sizeOfType (t : WrittenType)
  | cast (t : WrittenType) (x : Written)
  | binary (op : InfixOp) (x y : Written)
  | ternary (condition yes no : Written)
  | member (x : Written) (field : Text) (arrow : Bool)
  | index (x i : Written)

def enclose (needed : Bool) (ts : List Token) : List Token :=
  if needed then .symbol "(" :: ts ++ [.symbol ")"] else ts

namespace Written

/-- The tree of a written expression, where its names stand for what a context says. -/
def tree (c : Context) : Written → Expr
  | number literal =>
    match Literal.readNumber? literal with
    | some (.int v) => .int .nowhere v false
    | some (.float bits single) => .float .nowhere bits single
    | none => .missing
  | char literal =>
    match Literal.readChar literal with
    | .ok (v, _) => .int .nowhere v true
    | .error _ => .missing
  | name literal =>
    match c.resolve literal .nowhere with
    | .ok e => e.unplaced
    | .error _ => .missing
  | type t => .type (t.tree c)
  | sigil s x => s.apply (x.tree c)
  | sizeof x => .sizeof .nowhere (x.tree c)
  | sizeOfType t => .sizeof .nowhere (.type (t.tree c))
  | cast t x => .cast .nowhere (t.tree c) (x.tree c)
  | binary op x y => .binary .nowhere op (x.tree c) (y.tree c)
  | ternary cond yes no => .ternary .nowhere (cond.tree c) (yes.tree c) (no.tree c)
  | member x field arrow => .member .nowhere (x.tree c) ⟨.nowhere, field⟩ arrow
  | index x i => .index .nowhere (x.tree c) (i.tree c)

/-- How loosely it binds: atoms and what follows them 1, prefix operators 2, then the operators. -/
def level : Written → Nat
  | number _ | char _ | name _ | type _ | member .. | index .. => 1
  | sigil .. | sizeof _ | sizeOfType _ | cast .. => 2
  | binary op .. => op.precedence
  | ternary .. => ternaryPrecedence

def isCast : Written → Bool
  | cast .. => true
  | _ => false

/-- The tokens with the fewest parentheses. The left operand of an infix operator may have its
precedence and the right one may not; the last part of a conditional may be a conditional; and a
cast after `sizeof` would be taken for the size of its type. -/
def tokens : Written → List Token
  | number literal => [.number literal]
  | char literal => [.char literal]
  | name literal => [.word literal]
  | type t => t.tokens
  | sigil s x => .symbol s.symbol :: enclose (2 < x.level) x.tokens
  | sizeof x => .word "sizeof" :: enclose (2 < x.level || x.isCast) x.tokens
  | sizeOfType t => .word "sizeof" :: .symbol "(" :: t.tokens ++ [.symbol ")"]
  | cast t x => .symbol "(" :: t.tokens ++ .symbol ")" :: enclose (2 < x.level) x.tokens
  | binary op x y =>
    enclose (op.precedence < x.level) x.tokens ++ .symbol op.symbol ::
      enclose (op.precedence - 1 < y.level) y.tokens
  | ternary cond yes no =>
    enclose (ternaryPrecedence - 1 < cond.level) cond.tokens ++ .symbol "?" :: yes.tokens ++
      .symbol ":" :: enclose (ternaryPrecedence < no.level) no.tokens
  | member x field arrow =>
    enclose (1 < x.level) x.tokens ++ [.symbol (if arrow then "->" else "." : String), .word field]
  | index x i => enclose (1 < x.level) x.tokens ++ .symbol "[" :: i.tokens ++ [.symbol "]"]

/-- How many prefix operators stand at the front. -/
def marks : Written → Nat
  | sigil _ x | cast _ x => 1 + if 2 < x.level then 0 else x.marks
  | sizeof x => 1 + if 2 < x.level || x.isCast then 0 else x.marks
  | _ => 0

def nest (needed : Bool) (depth : Nat) : Nat := if needed then depth + 1 else depth

/-- How deep a reading of the tokens is nested. -/
def depth : Written → Nat
  | number _ | char _ | name _ | type _ | sizeOfType _ => 1
  | sigil s x => max ((sigil s x).marks + 1) (nest (2 < x.level) x.depth)
  | sizeof x => max ((sizeof x).marks + 1) (nest (2 < x.level || x.isCast) x.depth)
  | cast t x => max ((cast t x).marks + 1) (nest (2 < x.level) x.depth)
  | binary op x y =>
    max (nest (op.precedence < x.level) x.depth) (nest (op.precedence - 1 < y.level) y.depth + 1)
  | ternary cond yes no =>
    max (nest (ternaryPrecedence - 1 < cond.level) cond.depth)
      (max yes.depth (nest (ternaryPrecedence < no.level) no.depth) + 1)
  | member x _ _ => nest (1 < x.level) x.depth
  | index x i => max (nest (1 < x.level) x.depth) (i.depth + 1)

end Written

/-- The second tokens are the first ones with more pairs of parentheses. -/
inductive Wrapped : List Token → List Token → Prop
  | refl (ts : List Token) : Wrapped ts ts
  | pair {ts : List Token} (before inner after : List Token)
      (h : Wrapped ts (before ++ (inner ++ after))) :
      Wrapped ts (before ++ .symbol "(" :: (inner ++ .symbol ")" :: after))

namespace Wrapped

variable {ts us vs ts' us' : List Token}

theorem trans (h : Wrapped ts us) (h' : Wrapped us vs) : Wrapped ts vs := by
  induction h' with
  | refl => exact h
  | pair before inner after _ ih => exact .pair before inner after ih

theorem append (h : Wrapped ts ts') (h' : Wrapped us us') : Wrapped (ts ++ us) (ts' ++ us') := by
  have hleft : Wrapped (ts ++ us) (ts' ++ us) := by
    induction h with
    | refl => exact .refl _
    | pair before inner after _ ih =>
      have := Wrapped.pair before inner (after ++ us) (by simpa using ih)
      simpa using this
  refine hleft.trans ?_
  clear hleft
  induction h' with
  | refl => exact .refl _
  | pair before inner after _ ih =>
    have := Wrapped.pair (ts' ++ before) inner after (by simpa using ih)
    simpa using this

theorem cons (t : Token) (h : Wrapped us us') : Wrapped (t :: us) (t :: us') :=
  (Wrapped.refl [t]).append h

theorem sublist (h : Wrapped ts us) : ts.Sublist us := by
  induction h with
  | refl => exact .refl _
  | pair before inner after _ ih =>
    refine ih.trans (.append (.refl before) (.cons _ (.append (.refl inner) (.cons _ (.refl _)))))

theorem enclose_of_imp {needed needed' : Bool} (h : needed → needed') (ts : List Token) :
    Wrapped (enclose needed ts) (enclose needed' ts) := by
  cases needed' with
  | false =>
    cases needed with
    | true => cases h rfl
    | false => exact .refl _
  | true =>
    cases needed with
    | true => exact .refl _
    | false => exact .pair [] ts [] (by simpa [enclose] using Wrapped.refl ts)

end Wrapped

end WatchExpr
