import WatchExpr.Expression.TypeExpr

namespace WatchExpr

/-- What was read from the front of some tokens. -/
structure Parsed where
  expr : Expr
  rest : List Token
  diagnostics : List Diagnostic := []
  /-- The depth budget was spent. -/
  tooDeep : Bool := false

namespace Parser

structure Env where
  context : Context
  text : Text

/-- The position of the first token, or of the end of the text. -/
def Env.position (env : Env) : List Token → Nat
  | [] => env.text.length
  | tok :: _ => tok.start

/-- Reads the operators that bind no looser than a ceiling. -/
structure Reader where
  read : (ceiling : Nat) → List Token → Parsed
  length_le : ∀ ceiling ts, (read ceiling ts).rest.length ≤ ts.length

def readToken (env : Env) (tok : Token) : Expr × List Diagnostic :=
  let refuse (c : Complaint) : Expr × List Diagnostic := (.missing, [⟨tok.start, c⟩])
  match tok.kind with
  | .identifier =>
    match env.context.resolve tok.literal tok.span with
    | .ok e => (e, [])
    | .error c => refuse c
  | .numeric =>
    match Literal.readNumber? tok.literal with
    | some (.int v) => (.int tok.span v false, [])
    | some (.float bits single) => (.float tok.span bits single, [])
    | none => refuse (.invalidNumber tok.literal)
  | .char =>
    match Literal.readChar tok.literal with
    | .ok (v, more) =>
      (.int tok.span v true, if more then [⟨tok.start, .multiCharLiteral⟩] else [])
    | .error c => refuse c
  | .string => refuse .stringLiteral
  | .invalid => refuse (.invalidCharacter tok.literal)
  | .symbol => refuse (.unexpectedToken tok.literal)
  | .eof => refuse .expectedExpression

/-- Reads a parenthesized expression, a type with a sign word, or a single token. -/
def readAtom (env : Env) (sub : Reader) (ts : List Token) : Parsed :=
  match ts with
  | [] => { expr := .missing, rest := [], diagnostics := [⟨env.position [], .expectedExpression⟩] }
  | tok :: rest =>
    if tok.kind = .symbol ∧ tok.is "(" then
      let inner := sub.read maxPrecedence rest
      let unclosed : Parsed :=
        if inner.tooDeep then inner
        else { inner with
          diagnostics := inner.diagnostics ++ [⟨tok.start, .missingParenthesis⟩] }
      match inner.rest with
      | close :: after => if close.is ")" then { inner with rest := after } else unclosed
      | [] => unclosed
    else if tok.kind = .identifier ∧ TypeExpr.isSignWord tok then
      let p := TypeExpr.read env.context env.text ts
      { expr := p.type.elim .missing .type, rest := p.rest, diagnostics := p.diagnostics }
    else
      let (e, ds) := readToken env tok
      { expr := e, rest, diagnostics := ds }

/-- Puts diagnostics that came earlier in front of an outcome. -/
def after (earlier : List Diagnostic) (p : Parsed) : Parsed :=
  { p with diagnostics := earlier ++ p.diagnostics }

@[simp] theorem after_rest (ds : List Diagnostic) (p : Parsed) : (after ds p).rest = p.rest := rfl

/-- Reads member accesses and indexes after an expression. -/
def readPostfix (sub : Reader) (x : Expr) (ts : List Token) : Parsed :=
  match ts with
  | [] => { expr := x, rest := [] }
  | tok :: rest =>
    if tok.is "." || tok.is "->" then
      let noName : Parsed :=
        { expr := x, rest, diagnostics := [⟨tok.start, .expectedMember tok.literal⟩] }
      match rest with
      | name :: rest' =>
        if name.kind = .identifier then
          let e := .member ((x.spanOr tok).join name.span) x ⟨name.span, name.literal⟩
            (tok.is "->")
          readPostfix sub e rest'
        else noName
      | [] => noName
    else if tok.is "[" then
      let i := sub.read maxPrecedence rest
      let unclosed : Parsed :=
        { i with
          expr := .index ((x.spanOr tok).join (i.expr.spanOr tok)) x i.expr
          diagnostics :=
            if i.tooDeep then i.diagnostics
            else i.diagnostics ++ [⟨tok.start, .unclosedBracket⟩] }
      match _h : i.rest with
      | close :: rest' =>
        if close.is "]" then
          let e := .index ((x.spanOr tok).join close.span) x i.expr
          after i.diagnostics (readPostfix sub e rest')
        else unclosed
      | [] => unclosed
    else { expr := x, rest := ts }
termination_by ts.length
decreasing_by
  · simp only [List.length_cons]
    omega
  · have h₁ := sub.length_le maxPrecedence rest
    have h₂ : (sub.read maxPrecedence rest).rest.length = rest'.length + 1 :=
      congrArg List.length _h
    simp only [List.length_cons]
    omega

/-- What a prefix operator does to its operand. -/
inductive Mark where
  | operator (op : PrefixOp)
  | deref
  | addressOf
  | sizeof
  | cast (type : TypeExpr)

structure Prefixed where
  mark : Mark
  token : Token

def Prefixed.apply (p : Prefixed) (x : Expr) : Expr :=
  let span := p.token.span.join (x.spanOr p.token)
  match p.mark with
  | .operator op => .unary span op x
  | .deref => .deref span x
  | .addressOf => .addressOf span x
  | .sizeof => .sizeof span x
  | .cast t => .cast span t x

/-- The prefix operators at the front of some tokens. -/
structure Prefixes where
  /-- The operators, the innermost first. -/
  marks : List Prefixed
  /-- The type in parentheses that a size was asked of. -/
  type : Option TypeExpr := none
  rest : List Token
  diagnostics : List Diagnostic := []
  tooDeep : Bool := false

def simpleMark? (tok : Token) : Option Mark :=
  if tok.is "-" then some (.operator .neg)
  else if tok.is "!" then some (.operator .logNot)
  else if tok.is "~" then some (.operator .bitNot)
  else if tok.is "*" then some .deref
  else if tok.is "&" then some .addressOf
  else none

/-- A type followed by a closing parenthesis, or the complaints about it. -/
def readClosedType (env : Env) (ts : List Token) :
    Except (List Diagnostic) (TypeExpr × List Token) :=
  let p := TypeExpr.read env.context env.text ts
  match p.type, p.rest with
  | some t, close :: rest => if close.is ")" then .ok (t, rest) else .error p.diagnostics
  | _, _ => .error p.diagnostics

theorem length_readClosedType {env : Env} {ts rest : List Token} {t : TypeExpr}
    (h : readClosedType env ts = .ok (t, rest)) : rest.length < ts.length := by
  have hr := TypeExpr.length_read env.context env.text ts
  simp only [readClosedType] at h
  split at h
  · rename_i hrest
    split at h <;> cases h
    simp only [hrest, List.length_cons] at hr
    omega
  · cases h

/-- What the tokens at the front say about prefix operators. -/
inductive PrefixStep where
  /-- No operator is here. -/
  | none
  /-- An operator, with the tokens after it. -/
  | mark (m : Mark) (rest : List Token) (diagnostics : List Diagnostic)
  /-- The size of a type in parentheses. -/
  | sizeOfType (t : TypeExpr) (rest : List Token)

/-- Looks at one prefix operator. A parenthesis opens a cast when a type stands alone in it. -/
def prefixStep (env : Env) (tok : Token) (rest : List Token) : PrefixStep :=
  match simpleMark? tok with
  | some m => .mark m rest []
  | none =>
    if tok.kind = .identifier ∧ tok.is "sizeof" then
      match rest with
      | paren :: inner =>
        if paren.is "(" && env.context.startsType inner then
          match readClosedType env inner with
          | .ok (t, after) => .sizeOfType t after
          | .error ds => .mark .sizeof rest ds
        else .mark .sizeof rest []
      | [] => .mark .sizeof rest []
    else if tok.is "(" && env.context.startsType rest then
      match readClosedType env rest with
      | .ok (t, after) => .mark (.cast t) after []
      | .error _ => .none
    else .none

theorem length_prefixStep_mark {env : Env} {tok : Token} {rest after : List Token} {m : Mark}
    {ds : List Diagnostic} (h : prefixStep env tok rest = .mark m after ds) :
    after.length ≤ rest.length := by
  simp only [prefixStep] at h
  split at h
  · cases h; exact Nat.le_refl _
  · split at h
    · split at h
      · split at h
        · split at h <;> cases h
          exact Nat.le_refl _
        · cases h; exact Nat.le_refl _
      · cases h; exact Nat.le_refl _
    · split at h
      · split at h
        · rename_i hc
          cases h
          exact Nat.le_of_lt (length_readClosedType hc)
        · cases h
      · cases h

theorem length_prefixStep_sizeOfType {env : Env} {tok : Token} {rest after : List Token}
    {t : TypeExpr} (h : prefixStep env tok rest = .sizeOfType t after) :
    after.length ≤ rest.length := by
  simp only [prefixStep] at h
  split at h
  · cases h
  · split at h
    · split at h
      · split at h
        · split at h
          · rename_i hc
            cases h
            have := length_readClosedType hc
            simp only [List.length_cons]
            omega
          · cases h
        · cases h
      · cases h
    · split at h
      · split at h <;> cases h
      · cases h

/-- Collects prefix operators while the budget lasts. -/
def readPrefixes (env : Env) (budget : Nat) (marks : List Prefixed) (ts : List Token) : Prefixes :=
  match ts with
  | [] => { marks, rest := [] }
  | tok :: rest =>
    match _h : prefixStep env tok rest with
    | .none => { marks, rest := ts }
    | .sizeOfType t after => { marks := ⟨.sizeof, tok⟩ :: marks, type := some t, rest := after }
    | .mark m after ds =>
      let marks := ⟨m, tok⟩ :: marks
      if budget < marks.length then
        { marks, rest := [], diagnostics := ds ++ [⟨tok.start, .nestedTooDeeply⟩], tooDeep := true }
      else
        let more := readPrefixes env budget marks after
        { more with diagnostics := ds ++ more.diagnostics }
termination_by ts.length
decreasing_by
  have := length_prefixStep_mark _h
  simp only [List.length_cons]
  omega

/-- Reads prefix operators, an atom and what follows it. -/
def readUnary (env : Env) (sub : Reader) (budget : Nat) (ts : List Token) : Parsed :=
  let ps := readPrefixes env budget [] ts
  let wrap (x : Expr) : Expr := ps.marks.foldl (fun x p => p.apply x) x
  if ps.tooDeep then
    { expr := .missing, rest := [], diagnostics := ps.diagnostics, tooDeep := true }
  else
    match ps.type with
    | some t => { expr := wrap (.type t), rest := ps.rest, diagnostics := ps.diagnostics }
    | none =>
      let atom := readAtom env sub ps.rest
      let full := readPostfix sub atom.expr atom.rest
      { expr := wrap full.expr
        rest := full.rest
        diagnostics := ps.diagnostics ++ atom.diagnostics ++ full.diagnostics
        tooDeep := atom.tooDeep || full.tooDeep }

/-- Reads infix and conditional operators after a left operand. -/
def climb (env : Env) (sub : Reader) (ceiling : Nat) (left : Expr) (ts : List Token) : Parsed :=
  match ts with
  | [] => { expr := left, rest := [] }
  | tok :: rest =>
    if tok.kind ≠ .symbol then { expr := left, rest := ts }
    else if tok.is "?" then
      if ceiling < ternaryPrecedence then { expr := left, rest := ts }
      else
        let yes := sub.read maxPrecedence rest
        let noColon : Parsed :=
          { yes with
            expr := .ternary (left.spanOr tok) left yes.expr .missing
            diagnostics := yes.diagnostics ++ [⟨env.position yes.rest, .expectedColon⟩] }
        match _h : yes.rest with
        | colon :: [] =>
          if colon.is ":" then
            { yes with
              expr := .ternary (left.spanOr colon) left yes.expr .missing
              rest := []
              diagnostics := yes.diagnostics ++ [⟨colon.stop, .expectedAfterTernary⟩] }
          else noColon
        | colon :: next :: more =>
          if colon.is ":" then
            let no := sub.read ternaryPrecedence (next :: more)
            let span := (left.spanOr tok).join (no.expr.spanOr colon)
            let whole := climb env sub ceiling (.ternary span left yes.expr no.expr) no.rest
            { whole with
              diagnostics := yes.diagnostics ++ no.diagnostics ++ whole.diagnostics
              tooDeep := no.tooDeep || whole.tooDeep }
          else noColon
        | [] => noColon
    else
      match InfixOp.ofSymbol? tok.literal with
      | none => { expr := left, rest := ts }
      | some op =>
        if ceiling < op.precedence then { expr := left, rest := ts }
        else if rest.isEmpty then
          { expr := .binary (left.spanOr tok) op left .missing
            rest := []
            diagnostics := [⟨tok.stop, .expectedOperand tok.literal⟩] }
        else
          let right := sub.read (op.precedence - 1) rest
          let span := (left.spanOr tok).join (right.expr.spanOr tok)
          let whole := climb env sub ceiling (.binary span op left right.expr) right.rest
          { whole with
            diagnostics := right.diagnostics ++ whole.diagnostics
            tooDeep := right.tooDeep || whole.tooDeep }
termination_by ts.length
decreasing_by
  · have h₁ := sub.length_le maxPrecedence rest
    have h₂ := sub.length_le ternaryPrecedence (next :: more)
    have h₃ : (sub.read maxPrecedence rest).rest.length = more.length + 2 :=
      congrArg List.length _h
    simp only [List.length_cons] at *
    omega
  · have := sub.length_le (op.precedence - 1) rest
    simp only [List.length_cons]
    omega

theorem length_readAtom (env : Env) (sub : Reader) (ts : List Token) :
    (readAtom env sub ts).rest.length ≤ ts.length := by
  simp only [readAtom]
  split
  · simp
  · rename_i tok rest
    have hs := sub.length_le maxPrecedence rest
    split
    · split
      · rename_i close after hr
        have : after.length + 1 = (sub.read maxPrecedence rest).rest.length := by simp [hr]
        split
        · simp only [List.length_cons]; omega
        · split <;> simp only [List.length_cons] <;> omega
      · split <;> simp only [List.length_cons] <;> omega
    · split
      · exact TypeExpr.length_read _ _ _
      · exact Nat.le_succ _

theorem length_readPostfix (sub : Reader) (x : Expr) (ts : List Token) :
    (readPostfix sub x ts).rest.length ≤ ts.length := by
  fun_induction readPostfix sub x ts with
  | case1 => simp
  | case2 => simp_all; omega
  | case3 => exact Nat.le_succ _
  | case4 => exact Nat.le_succ _
  | case5 x tok rest h₁ h₂ i close rest' hr hclose e ih =>
    have h₃ := sub.length_le maxPrecedence rest
    have h₄ : (sub.read maxPrecedence rest).rest.length = rest'.length + 1 :=
      congrArg List.length hr
    simp only [after_rest, List.length_cons]
    omega
  | case6 x tok rest => exact Nat.le_succ_of_le (sub.length_le maxPrecedence rest)
  | case7 x tok rest => exact Nat.le_succ_of_le (sub.length_le maxPrecedence rest)
  | case8 => exact Nat.le_refl _

theorem length_readPrefixes (env : Env) (budget : Nat) (marks : List Prefixed) (ts : List Token) :
    (readPrefixes env budget marks ts).rest.length ≤ ts.length := by
  fun_induction readPrefixes env budget marks ts with
  | case1 => simp
  | case2 => exact Nat.le_refl _
  | case3 marks tok rest t after h =>
    exact Nat.le_succ_of_le (length_prefixStep_sizeOfType h)
  | case4 => simp
  | case5 marks tok rest m after ds h marks' hb more ih =>
    have := length_prefixStep_mark h
    simp only [List.length_cons]
    exact Nat.le_succ_of_le (Nat.le_trans ih this)

theorem length_readUnary (env : Env) (sub : Reader) (budget : Nat) (ts : List Token) :
    (readUnary env sub budget ts).rest.length ≤ ts.length := by
  have hp := length_readPrefixes env budget [] ts
  simp only [readUnary]
  split
  · simp
  · split
    · exact hp
    · exact Nat.le_trans (length_readPostfix _ _ _)
        (Nat.le_trans (length_readAtom _ _ _) hp)

theorem length_climb (env : Env) (sub : Reader) (ceiling : Nat) (left : Expr) (ts : List Token) :
    (climb env sub ceiling left ts).rest.length ≤ ts.length := by
  fun_induction climb env sub ceiling left ts with
  | case1 => simp
  | case2 => exact Nat.le_refl _
  | case3 => exact Nat.le_refl _
  | case4 => simp
  | case5 left tok rest =>
    exact Nat.le_succ_of_le (sub.length_le maxPrecedence rest)
  | case6 left tok rest _ _ _ yes colon next more h _ no span whole ih =>
    have h₁ := sub.length_le maxPrecedence rest
    have h₂ := sub.length_le ternaryPrecedence (next :: more)
    have h₃ : (sub.read maxPrecedence rest).rest.length = more.length + 2 :=
      congrArg List.length h
    simp only [List.length_cons] at *
    exact Nat.le_trans (Nat.le_trans ih h₂) (by omega)
  | case7 left tok rest =>
    exact Nat.le_succ_of_le (sub.length_le maxPrecedence rest)
  | case8 left tok rest =>
    exact Nat.le_succ_of_le (sub.length_le maxPrecedence rest)
  | case9 => exact Nat.le_refl _
  | case10 => exact Nat.le_refl _
  | case11 => simp
  | case12 left tok rest _ _ op _ _ _ right span whole ih =>
    have := sub.length_le (op.precedence - 1) rest
    simp only [List.length_cons]
    exact Nat.le_trans ih (Nat.le_succ_of_le this)

/-- Reads a whole operand with its operators, nested at most `budget` deep. -/
def reader (env : Env) : (budget : Nat) → Reader
  | 0 =>
    { read := fun _ ts =>
        { expr := .missing
          rest := []
          diagnostics := [⟨env.position ts, .nestedTooDeeply⟩]
          tooDeep := true }
      length_le := fun _ _ => Nat.zero_le _ }
  | budget + 1 =>
    { read := fun ceiling ts =>
        let first := readUnary env (reader env budget) budget ts
        let whole := climb env (reader env budget) ceiling first.expr first.rest
        { whole with
          diagnostics := first.diagnostics ++ whole.diagnostics
          tooDeep := first.tooDeep || whole.tooDeep }
      length_le := fun ceiling ts =>
        Nat.le_trans (length_climb env (reader env budget) ceiling _ _)
          (length_readUnary env (reader env budget) budget ts) }

/-- Reads an expression that takes up all tokens. -/
def parse (c : Context) (text : Text) (tokens : List Token) : Expr × List Diagnostic :=
  if tokens.isEmpty then (.missing, [⟨0, .expectedExpression⟩])
  else
    let p := (reader ⟨c, text⟩ c.depthLimit).read maxPrecedence tokens
    match p.rest with
    | tok :: _ =>
      if p.tooDeep then (p.expr, p.diagnostics)
      else (p.expr, p.diagnostics ++ [⟨tok.start, .unexpectedToken tok.literal⟩])
    | [] => (p.expr, p.diagnostics)

end Parser

end WatchExpr
