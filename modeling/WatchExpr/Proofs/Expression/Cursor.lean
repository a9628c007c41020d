import WatchExpr.Proofs.Expression.Nesting
import WatchExpr.Proofs.Expression.Reading

namespace WatchExpr.Cursor

open WatchExpr.Parser

structure State where
  /-- The nesting as it is counted. -/
  depth : Nat
  tooDeep : Bool := false
  diagnostics : List Diagnostic := []
  /-- The most expressions that were being read at one time. -/
  deepest : Nat := 0

abbrev Walk (α : Type) := StateT State Option α

/-- A walk over an expression: given the number of expressions around it, a ceiling and a place,
it finds the expression and the place behind it. -/
abbrev Walker := (level ceiling i : Nat) → Walk (Expr × Nat)

section
variable (env : Env) (tokens : List Token)

def look (i : Nat) : Walk Token := fun s => tokens[i]?.map fun tok => (tok, s)

def endMark : Nat := tokens.length - 1

def complain (ds : List Diagnostic) : Walk Unit := fun s =>
  some ((), { s with diagnostics := s.diagnostics ++ ds })

/-- Counts an expression that is being read. -/
def reach (level : Nat) : Walk Unit := fun s => some ((), { s with deepest := max s.deepest level })

/-- Goes one deeper, and says whether this is still within the limit. -/
def enter (extra offset : Nat) : Walk Bool := fun s =>
  if env.context.depthLimit < s.depth + 1 + extra then
    if s.tooDeep then some (false, { s with depth := s.depth + 1 })
    else
      some (false, { s with
        depth := s.depth + 1
        tooDeep := true
        diagnostics := s.diagnostics ++ [⟨offset, .nestedTooDeeply⟩] })
  else some (true, { s with depth := s.depth + 1 })

def leave : Walk Unit := fun s => some ((), { s with depth := s.depth - 1 })

/-- Complains unless nesting is too deep. -/
def complainAbove (offset : Nat) (c : Complaint) : Walk Unit := fun s =>
  if s.tooDeep then some ((), s) else complain [⟨offset, c⟩] s

/-- Stars and array lengths; complaints are only made when they are asked for. -/
def suffixes (report : Bool) (start : Nat) :
    (steps : Nat) → TypeExpr → (i : Nat) → Walk (Option TypeExpr × Nat)
  | 0, _, _ => failure
  | steps + 1, t, i => do
    let tok ← look tokens i
    if tok.is "*" then suffixes report start steps (.pointer ⟨start, tok.stop⟩ t) (i + 1)
    else if tok.is "[" then do
      let n ← look tokens (i + 1)
      if n.kind = .numeric then do
        let close ← look tokens (i + 2)
        if close.is "]" then
          match Literal.readCount? (Literal.trimIntSuffix n.literal) with
          | some count => suffixes report start steps (.array ⟨start, close.stop⟩ t count) (i + 3)
          | none => do
            complain (if report then [⟨n.start, .invalidArrayLength⟩] else [])
            return (none, i)
        else return (some t, i)
      else return (some t, i)
    else return (some t, i)

def typeExpr (report : Bool) (steps i : Nat) : Walk (Option TypeExpr × Nat) := do
  let tok ← look tokens i
  if TypeExpr.isSignWord tok then do
    let next ← look tokens (i + 1)
    match if next.kind = .identifier then builtinType? next.literal else none with
    | some k =>
      if k.group.isInteger then
        suffixes tokens report tok.start steps (TypeExpr.signedType env.text tok next k) (i + 2)
      else suffixes tokens report tok.start steps (TypeExpr.signedType env.text tok tok .s32) (i + 1)
    | none =>
      suffixes tokens report tok.start steps (TypeExpr.signedType env.text tok tok .s32) (i + 1)
  else if tok.kind = .identifier then
    match env.context.typeNamed? tok.literal with
    | some k => suffixes tokens report tok.start steps (.named tok.span tok.literal k) (i + 1)
    | none => do
      complain (if report then [⟨tok.start, .unknownType tok.literal⟩] else [])
      return (none, i)
  else return (none, i)

def typeStarts (i : Nat) : Walk Bool := do
  let tok ← look tokens i
  return env.context.startsType [tok]

/-- The closing parenthesis behind a type, if both are there. -/
def closedType (report : Bool) (steps i : Nat) : Walk (Option (TypeExpr × Nat)) := do
  if ← typeStarts env tokens i then
    let (t, j) ← typeExpr env tokens report steps i
    match t with
    | some t => do
      let close ← look tokens j
      return if close.is ")" then some (t, j) else none
    | none => return none
  else return none

/-- A parenthesized expression, a type with a sign word, or a single token. -/
def atom (sub : Walker) (level steps i : Nat) : Walk (Expr × Nat) := do
  let tok ← look tokens i
  if tok.kind = .symbol ∧ tok.is "(" then do
    let (x, j) ← sub level maxPrecedence (i + 1)
    let close ← look tokens j
    if close.is ")" then return (x, j + 1)
    else do
      complainAbove tok.start .missingParenthesis
      return (x, j)
  else if tok.kind = .identifier ∧ TypeExpr.isSignWord tok then do
    let (t, j) ← typeExpr env tokens true steps i
    return (t.elim .missing .type, j)
  else if tok.kind = .eof then do
    complain [⟨tok.start, .expectedExpression⟩]
    return (.missing, i)
  else do
    complain (readToken env tok).2
    return ((readToken env tok).1, i + 1)

def postfixes (sub : Walker) (level : Nat) : (steps : Nat) → Expr → (i : Nat) → Walk (Expr × Nat)
  | 0, _, _ => failure
  | steps + 1, x, i => do
    if (← get).tooDeep then return (x, i)
    else do
      let tok ← look tokens i
      if tok.is "." || tok.is "->" then do
        let name ← look tokens (i + 1)
        if name.kind = .identifier then
          postfixes sub level steps
            (.member ((x.spanOr tok).join name.span) x ⟨name.span, name.literal⟩ (tok.is "->"))
            (i + 2)
        else do
          complain [⟨tok.start, .expectedMember tok.literal⟩]
          return (x, i + 1)
      else if tok.is "[" then do
        let (y, j) ← sub level maxPrecedence (i + 1)
        let close ← look tokens j
        if close.is "]" then
          postfixes sub level steps (.index ((x.spanOr tok).join close.span) x y) (j + 1)
        else do
          complainAbove tok.start .unclosedBracket
          return (.index ((x.spanOr tok).join (y.spanOr tok)) x y, j)
      else return (x, i)

def core (sub : Walker) (level steps i : Nat) : Walk (Expr × Nat) := do
  let (x, j) ← atom env tokens sub level steps i
  postfixes tokens sub level steps x j

/-- What stands in front of an operand, with the place behind it. -/
inductive Ahead where
  | none
  | mark (m : Mark) (j : Nat)
  | sizeOfType (t : TypeExpr) (j : Nat)

/-- Looks at one prefix operator, the token at a place. -/
def ahead (tok : Token) (steps i : Nat) : Walk Ahead :=
  match simpleMark? tok with
  | some m => return .mark m (i + 1)
  | none =>
    if tok.kind = .identifier ∧ tok.is "sizeof" then do
      let paren ← look tokens (i + 1)
      if paren.is "(" then do
        match ← closedType env tokens true steps (i + 2) with
        | some (t, j) => return .sizeOfType t (j + 1)
        | none => return .mark .sizeof (i + 1)
      else return .mark .sizeof (i + 1)
    else if tok.is "(" then do
      match ← closedType env tokens false steps (i + 1) with
      | some (t, j) => return .mark (.cast t) (j + 1)
      | none => return .none
    else return .none

/-- Goes on after some prefix operators, unless they are too many. -/
def marked (count offset : Nat) (next : Walk (Expr × Nat)) : Walk (Expr × Nat) := do
  if env.context.depthLimit < count + (← get).depth then do
    let _ ← enter env count offset
    leave
    return (.missing, endMark tokens)
  else next

/-- Prefix operators, an atom and what follows it. -/
def operand (sub : Walker) (level : Nat) :
    (steps : Nat) → (marks : List Prefixed) → (i : Nat) → Walk (Expr × Nat)
  | 0, _, _ => failure
  | steps + 1, marks, i => do
    let tok ← look tokens i
    match ← ahead env tokens tok steps i with
    | .none => do
      let (x, j) ← core env tokens sub level steps i
      return (applyAll marks x, j)
    | .mark m j =>
      marked env tokens (marks.length + 1) tok.start
        (operand sub level steps (⟨m, tok⟩ :: marks) j)
    | .sizeOfType t j => return (applyAll (⟨.sizeof, tok⟩ :: marks) (.type t), j)

/-- The branches of a conditional operator, the token at a place. -/
def conditional (sub : Walker) (level : Nat) (next : Expr → Nat → Walk (Expr × Nat)) (left : Expr)
    (tok : Token) (i : Nat) : Walk (Expr × Nat) := do
  let (yes, j) ← sub level maxPrecedence (i + 1)
  let colon ← look tokens j
  if colon.is ":" then do
    let first ← look tokens (j + 1)
    if first.kind = .eof then do
      complain [⟨colon.stop, .expectedAfterTernary⟩]
      return (.ternary (left.spanOr colon) left yes .missing, j + 1)
    else do
      let (no, k) ← sub level ternaryPrecedence (j + 1)
      next (.ternary ((left.spanOr tok).join (no.spanOr colon)) left yes no) k
  else do
    complain [⟨colon.start, .expectedColon⟩]
    return (.ternary (left.spanOr tok) left yes .missing, j)

/-- The right operand of an infix operator, the token at a place. -/
def binary (sub : Walker) (level : Nat) (next : Expr → Nat → Walk (Expr × Nat)) (left : Expr)
    (op : InfixOp) (tok : Token) (i : Nat) : Walk (Expr × Nat) := do
  let first ← look tokens (i + 1)
  if first.kind = .eof then do
    complain [⟨tok.stop, .expectedOperand tok.literal⟩]
    return (.binary (left.spanOr tok) op left .missing, i + 1)
  else do
    let (right, j) ← sub level (op.precedence - 1) (i + 1)
    next (.binary ((left.spanOr tok).join (right.spanOr tok)) op left right) j

/-- Infix and conditional operators after a left operand. -/
def operators (sub : Walker) (level ceiling : Nat) :
    (steps : Nat) → (left : Expr) → (i : Nat) → Walk (Expr × Nat)
  | 0, _, _ => failure
  | steps + 1, left, i => do
    if (← get).tooDeep then return (left, i)
    else do
      let tok ← look tokens i
      if tok.kind ≠ .symbol then return (left, i)
      else if tok.is "?" then
        if ceiling < ternaryPrecedence then return (left, i)
        else conditional tokens sub level (operators sub level ceiling steps) left tok i
      else
        match InfixOp.ofSymbol? tok.literal with
        | none => return (left, i)
        | some op =>
          if ceiling < op.precedence then return (left, i)
          else binary tokens sub level (operators sub level ceiling steps) left op tok i

def expr : (steps : Nat) → Walker
  | 0 => fun _ _ _ => failure
  | steps + 1 => fun level ceiling i => do
    reach (level + 1)
    let tok ← look tokens i
    if ← enter env 0 tok.start then do
      let (left, j) ← operand env tokens (expr steps) (level + 1) steps [] i
      let r ← operators tokens (expr steps) (level + 1) ceiling steps left j
      leave
      return r
    else do
      leave
      return (.missing, endMark tokens)

end

end WatchExpr.Cursor
