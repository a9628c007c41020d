import WatchExpr.Text.Hex

namespace WatchExpr

inductive TokenKind where
  | eof
  /-- A byte that starts no token. -/
  | invalid
  | identifier
  | numeric
  | string
  | char
  | symbol
  deriving Repr, DecidableEq, Inhabited

def TokenKind.name : TokenKind → Text
  | eof => "EOF"
  | invalid => "INVALID"
  | identifier => "IDENTIFIER"
  | numeric => "NUMERIC"
  | string => "STRING"
  | char => "CHAR"
  | symbol => "SYMBOL"

structure Span where
  start : Nat
  stop : Nat
  deriving Repr, DecidableEq, Inhabited

/-- The smallest range around two ranges. -/
def Span.join (a b : Span) : Span := ⟨min a.start b.start, max a.stop b.stop⟩

structure Token where
  kind : TokenKind
  /-- The bytes of the input it covers. -/
  literal : Text
  start : Nat
  deriving Repr, DecidableEq, Inhabited

namespace Token

/-- The position after its last byte. -/
def stop (t : Token) : Nat := t.start + t.literal.length

def span (t : Token) : Span := ⟨t.start, t.stop⟩

def is (t : Token) (word : Text) : Bool :=
  (t.kind == .symbol || t.kind == .identifier) && t.literal == word

def eof (position : Nat) : Token := ⟨.eof, [], position⟩

/-- The kind with the quoted literal, of which at most 20 bytes are shown. -/
def describe (t : Token) : Text :=
  if t.kind = .eof then t.kind.name
  else if t.literal.length > 20 then
    t.kind.name ++ "(" ++ Quoted.quote (t.literal.take 20) ++ "...)"
  else t.kind.name ++ "(" ++ Quoted.quote t.literal ++ ")"

end Token

namespace Lexer

def isIdentifierStart (c : UInt8) : Bool := Byte.isAlpha c || c == 0x5f || c == 0x60 || c == 0x24

def isIdentifierPart (c : UInt8) : Bool := Byte.isAlnum c || c == 0x5f || c == 0x40 || c == 0x24

/-- What may follow a scope separator inside an identifier. -/
def isScopeFollow (c : UInt8) : Bool := Byte.isAlpha c || c == 0x5f || c == 0x3c

/-- What may stand in a list of template arguments besides brackets. -/
def isTemplatePart (c : UInt8) : Bool :=
  Byte.isAlnum c || c ∈ Text.ofString "_:,*& $"

def isSymbolByte (c : UInt8) : Bool := c ∈ Text.ofString "~!%^&*()-=+[]\x7b\x7d:;,.<>/?|"

def longSymbols : List Text := ["<<", ">>", "->", "<=", ">=", "==", "!=", "&&", "||"]

def isHexLiteral : Text → Bool
  | 0x30 :: c :: _ => c == 0x78 || c == 0x58
  | _ => false

/-- The rest of a number. A sign directly after the exponent mark of a literal that is not
hexadecimal belongs to it. -/
def numericLength (hex : Bool) (previous : UInt8) : Text → Nat
  | [] => 0
  | c :: rest =>
    if Byte.isAlnum c || c == 0x2e then 1 + numericLength hex c rest
    else if (c == 0x2b || c == 0x2d) && !hex && (previous == 0x65 || previous == 0x45) then
      1 + numericLength hex c rest
    else 0

/-- The rest of a quoted literal with its closing quote. A backslash takes the next byte along;
an unterminated literal extends to the end. -/
def quotedLength (quote : UInt8) : Text → Nat
  | [] => 0
  | c :: rest =>
    if c == 0x5c then
      match rest with
      | [] => 1
      | _ :: rest' => 2 + quotedLength quote rest'
    else if c == quote then 1
    else 1 + quotedLength quote rest

/-- The rest of a name that starts with a backtick and ends at a backtick or an apostrophe. -/
def tickedLength : Text → Nat
  | [] => 0
  | c :: rest => if c == 0x60 || c == 0x27 then 1 else 1 + tickedLength rest

/-- The length of a balanced list of template arguments, absent when it is not balanced or holds
a byte that cannot stand in one, so that a comparison still reads as one. -/
def templateLength? (depth : Nat) : Text → Option Nat
  | [] => none
  | c :: rest =>
    if c == 0x3c then (templateLength? (depth + 1) rest).map (1 + ·)
    else if c == 0x3e then
      if depth ≤ 1 then some 1 else (templateLength? (depth - 1) rest).map (1 + ·)
    else if isTemplatePart c then (templateLength? depth rest).map (1 + ·)
    else none

def identifierLength : Text → Nat
  | [] => 0
  | c :: rest =>
    if isIdentifierPart c then 1 + identifierLength rest
    else if c == 0x3a then
      match rest with
      | 0x3a :: d :: after => if isScopeFollow d then 2 + identifierLength (d :: after) else 0
      | _ => 0
    else if c == 0x3c then
      match templateLength? 0 (c :: rest) with
      | some n => n + identifierLength (rest.drop (n - 1))
      | none => 0
    else 0
termination_by t => t.length
decreasing_by
  all_goals
    simp only [List.length_drop, List.length_cons]
    omega

/-- Classifies the token that starts with a byte and gives the length of its rest. -/
def lexeme (c : UInt8) (rest : Text) : TokenKind × Nat :=
  if isIdentifierStart c then
    (.identifier, if c == 0x60 then tickedLength rest else identifierLength rest)
  else if Byte.isDigit c || (c == 0x2e && (rest.head?.any Byte.isDigit)) then
    (.numeric, numericLength (isHexLiteral (c :: rest)) c rest)
  else if c == 0x22 then (.string, quotedLength c rest)
  else if c == 0x27 then (.char, quotedLength c rest)
  else if isSymbolByte c then
    (.symbol, if longSymbols.any (·.isPrefixOf (c :: rest)) then 1 else 0)
  else (.invalid, 0)

/-- The tokens of a text that starts at a position. -/
def scanFrom (position : Nat) : Text → List Token
  | [] => []
  | c :: rest =>
    if Byte.isSpace c then scanFrom (position + 1) rest
    else
      let (kind, length) := lexeme c rest
      let token : Token := ⟨kind, c :: rest.take length, position⟩
      token :: scanFrom token.stop (rest.drop length)
termination_by t => t.length
decreasing_by
  all_goals
    simp only [List.length_drop, List.length_cons]
    omega

def scan (text : Text) : List Token := scanFrom 0 text

/-- The tokens of an input followed by the end token. -/
def tokenize (text : Text) : List Token := scan text ++ [Token.eof text.length]

end Lexer

end WatchExpr
