import WatchExpr.Lexical.Lexer
import WatchExpr.Types.Table
import WatchExpr.Decimal.Notation

namespace WatchExpr

/-- How the code of a typed tree is to be understood. -/
inductive Mode where
  /-- It computes the value. -/
  | value
  /-- It computes the address of the value. -/
  | address
  /-- It computes the offset of the value in the register block. -/
  | register
  deriving Repr, DecidableEq

def Mode.name : Mode → Text
  | value => "value"
  | address => "address"
  | register => "register"

/-- Arithmetic operators in front of an operand. -/
inductive PrefixOp where
  | neg
  | logNot
  | bitNot
  deriving Repr, DecidableEq

namespace PrefixOp

def symbol : PrefixOp → Text
  | neg => "-"
  | logNot => "!"
  | bitNot => "~"

def operation : PrefixOp → UnaryOp
  | neg => .neg
  | logNot => .logNot
  | bitNot => .bitNot

end PrefixOp

inductive InfixOp where
  | mul
  | div
  | mod
  | add
  | sub
  | shl
  | shr
  | lt
  | le
  | gt
  | ge
  | eq
  | ne
  | bitAnd
  | bitXor
  | bitOr
  | logAnd
  | logOr
  deriving Repr, DecidableEq

namespace InfixOp

def symbol : InfixOp → Text
  | mul => "*"
  | div => "/"
  | mod => "%"
  | add => "+"
  | sub => "-"
  | shl => "<<"
  | shr => ">>"
  | lt => "<"
  | le => "<="
  | gt => ">"
  | ge => ">="
  | eq => "=="
  | ne => "!="
  | bitAnd => "&"
  | bitXor => "^"
  | bitOr => "|"
  | logAnd => "&&"
  | logOr => "||"

/-- How loosely it binds; smaller numbers bind tighter. -/
def precedence : InfixOp → Nat
  | mul | div | mod => 3
  | add | sub => 4
  | shl | shr => 5
  | lt | le | gt | ge => 6
  | eq | ne => 7
  | bitAnd => 8
  | bitXor => 9
  | bitOr => 10
  | logAnd => 11
  | logOr => 12

def opcode : InfixOp → Opcode
  | mul => .binary .mul
  | div => .binary .div
  | mod => .binary .mod
  | add => .binary .add
  | sub => .binary .sub
  | shl => .binary .shl
  | shr => .binary .shr
  | lt => .compare .lt
  | le => .compare .le
  | gt => .compare .gt
  | ge => .compare .ge
  | eq => .compare .eq
  | ne => .compare .ne
  | bitAnd => .binary .bitAnd
  | bitXor => .binary .bitXor
  | bitOr => .binary .bitOr
  | logAnd => .binary .logAnd
  | logOr => .binary .logOr

/-- Whether its result is a truth value of a relation. -/
def isComparison (op : InfixOp) : Bool := op.opcode.isComparison

def isShift : InfixOp → Bool
  | shl | shr => true
  | _ => false

def all : List InfixOp :=
  [mul, div, mod, add, sub, shl, shr, lt, le, gt, ge, eq, ne, bitAnd, bitXor, bitOr, logAnd, logOr]

def ofSymbol? (t : Text) : Option InfixOp := all.find? (·.symbol == t)

end InfixOp

/-- How loosely the conditional operator binds. -/
def ternaryPrecedence : Nat := 13

def maxPrecedence : Nat := 15

/-- A written type. -/
inductive TypeExpr where
  | named (span : Span) (name : Text) (key : TypeKey)
  | pointer (span : Span) (elem : TypeExpr)
  | array (span : Span) (elem : TypeExpr) (count : UInt64)
  deriving Repr, DecidableEq

namespace TypeExpr

def span : TypeExpr → Span
  | named s .. | pointer s .. | array s .. => s

def format : TypeExpr → Text
  | named _ name _ => name
  | pointer _ elem => "(ptr " ++ elem.format ++ ")"
  | array _ elem count => "(array " ++ Text.decimal count.toNat ++ " " ++ elem.format ++ ")"

end TypeExpr

/-- The member name of an access, with its place. -/
structure Field where
  span : Span
  name : Text
  deriving Repr, DecidableEq

/-- An expression. -/
inductive Expr where
  /-- A subtree that could not be read. -/
  | missing
  | int (span : Span) (value : UInt64) (isChar : Bool)
  /-- A double by its bits; `isSingle` when it was written as a float. -/
  | float (span : Span) (bits : UInt64) (isSingle : Bool)
  | leaf (span : Span) (name : Text) (code : List UInt8) (type : TypeKey) (mode : Mode)
  | type (t : TypeExpr)
  | unary (span : Span) (op : PrefixOp) (x : Expr)
  | binary (span : Span) (op : InfixOp) (x y : Expr)
  | ternary (span : Span) (condition yes no : Expr)
  | cast (span : Span) (type : TypeExpr) (x : Expr)
  | sizeof (span : Span) (x : Expr)
  | member (span : Span) (x : Expr) (field : Field) (arrow : Bool)
  | index (span : Span) (x index : Expr)
  | addressOf (span : Span) (x : Expr)
  | deref (span : Span) (x : Expr)
  deriving Repr, DecidableEq, Inhabited

namespace Expr

def span? : Expr → Option Span
  | missing => none
  | type t => some t.span
  | int s .. | float s .. | leaf s .. | unary s .. | binary s .. | ternary s .. | cast s ..
  | sizeof s .. | member s .. | index s .. | addressOf s .. | deref s .. => some s

/-- The place of an expression, or of a token that stands for a missing one. -/
def spanOr (e : Expr) (fallback : Token) : Span := e.span?.getD fallback.span

def start (e : Expr) : Nat := (e.span?.map Span.start).getD 0

def isMissing : Expr → Bool
  | missing => true
  | _ => false

/-- The tree on one line in front of a text, operators first and missing subtrees as `_`. -/
def formatOnto : Expr → (after : Text) → Text
  | missing, after => "_" ++ after
  | int _ v true, after => Text.integer v.toInt64.toInt ++ after
  | int _ v false, after => Text.decimal v.toNat ++ after
  | float _ bits single, after =>
    Decimal.writeDouble bits ++ (if single then "f" else "" : String) ++ after
  | leaf _ name .., after => name ++ after
  | type t, after => t.format ++ after
  | unary _ op x, after => "(" ++ op.symbol ++ " " ++ x.formatOnto (")" ++ after)
  | binary _ op x y, after =>
    "(" ++ op.symbol ++ " " ++ x.formatOnto (" " ++ y.formatOnto (")" ++ after))
  | ternary _ c yes no, after =>
    "(? " ++ c.formatOnto (" " ++ yes.formatOnto (" " ++ no.formatOnto (")" ++ after)))
  | cast _ t x, after => "(cast " ++ t.format ++ " " ++ x.formatOnto (")" ++ after)
  | sizeof _ x, after => "(sizeof " ++ x.formatOnto (")" ++ after)
  | member _ x field arrow, after =>
    "(" ++ (if arrow then "->" else "." : String) ++ " "
      ++ x.formatOnto (" " ++ field.name ++ ")" ++ after)
  | index _ x i, after => "([] " ++ x.formatOnto (" " ++ i.formatOnto (")" ++ after))
  | addressOf _ x, after => "(& " ++ x.formatOnto (")" ++ after)
  | deref _ x, after => "(* " ++ x.formatOnto (")" ++ after)

def format (e : Expr) : Text := e.formatOnto []

end Expr

end WatchExpr
