import WatchExpr.Expression.Parser

namespace WatchExpr

theorem TypeExpr.readSuffixes_cons (start : Nat) (t : TypeExpr) (tok : Token) (rest : List Token) :
    readSuffixes start t (tok :: rest) =
      if tok.is "*" then readSuffixes start (.pointer ⟨start, tok.stop⟩ t) rest
      else if tok.is "[" then
        match rest with
        | n :: close :: after =>
          if n.kind = .numeric ∧ close.is "]" then
            match Literal.readCount? (Literal.trimIntSuffix n.literal) with
            | some count =>
              readSuffixes start (.array ⟨start, close.stop⟩ t count) after
            | none => ⟨none, tok :: rest, [⟨n.start, .invalidArrayLength⟩]⟩
          else ⟨some t, tok :: rest, []⟩
        | _ => ⟨some t, tok :: rest, []⟩
      else ⟨some t, tok :: rest, []⟩ := by
  cases rest with
  | nil => rfl
  | cons n rest =>
    cases rest <;> rfl

namespace Parser

variable {env : Env} {sub : Reader}

theorem readAtom_paren {tok : Token} (h : tok.kind = .symbol ∧ tok.is "(")
    (rest : List Token) :
    readAtom env sub (tok :: rest) =
      let inner := sub.read maxPrecedence rest
      let unclosed : Parsed := { inner with
        diagnostics := if inner.tooDeep then inner.diagnostics
          else inner.diagnostics ++ [⟨tok.start, .missingParenthesis⟩] }
      match inner.rest with
      | close :: behind => if close.is ")" then { inner with rest := behind } else unclosed
      | [] => unclosed := by
  have hunclosed (p : Parsed) (d : Diagnostic) :
      (if p.tooDeep then p else { p with diagnostics := p.diagnostics ++ [d] }) =
        { p with diagnostics := if p.tooDeep then p.diagnostics else p.diagnostics ++ [d] } := by
    split <;> rfl
  have hread := readAtom.eq_def env sub (tok :: rest)
  simp only [if_pos h, hunclosed] at hread
  exact hread

theorem readPostfix_nil (x : Expr) : readPostfix sub x [] = { expr := x, rest := [] } := by
  rw [readPostfix]

theorem readPostfix_cons (x : Expr) (tok : Token) (rest : List Token) :
    readPostfix sub x (tok :: rest) =
      if tok.is "." || tok.is "->" then
        match rest with
        | name :: rest' =>
          if name.kind = .identifier then
            readPostfix sub (.member ((x.spanOr tok).join name.span) x ⟨name.span, name.literal⟩
              (tok.is "->")) rest'
          else { expr := x, rest, diagnostics := [⟨tok.start, .expectedMember tok.literal⟩] }
        | [] => { expr := x, rest, diagnostics := [⟨tok.start, .expectedMember tok.literal⟩] }
      else if tok.is "[" then
        let i := sub.read maxPrecedence rest
        let unclosed : Parsed :=
          { i with
            expr := .index ((x.spanOr tok).join (i.expr.spanOr tok)) x i.expr
            diagnostics :=
              if i.tooDeep then i.diagnostics
              else i.diagnostics ++ [⟨tok.start, .unclosedBracket⟩] }
        match i.rest with
        | close :: rest' =>
          if close.is "]" then
            after i.diagnostics
              (readPostfix sub (.index ((x.spanOr tok).join close.span) x i.expr) rest')
          else unclosed
        | [] => unclosed
      else { expr := x, rest := tok :: rest } := by
  rw [readPostfix.eq_def]
  simp only
  split
  · rfl
  · split
    · split
      · rename_i hr
        rw [hr]
      · rename_i hr
        rw [hr]
    · rfl

theorem readPrefixes_cons (budget : Nat) (marks : List Prefixed) (tok : Token) (rest : List Token) :
    readPrefixes env budget marks (tok :: rest) =
      match prefixStep env tok rest with
      | .none => { marks, rest := tok :: rest }
      | .sizeOfType t after => { marks := ⟨.sizeof, tok⟩ :: marks, type := some t, rest := after }
      | .mark m after ds =>
        if budget < marks.length + 1 then
          { marks := ⟨m, tok⟩ :: marks, rest := [],
            diagnostics := ds ++ [⟨tok.start, .nestedTooDeeply⟩], tooDeep := true }
        else
          let more := readPrefixes env budget (⟨m, tok⟩ :: marks) after
          { more with diagnostics := ds ++ more.diagnostics } := by
  rw [readPrefixes.eq_def]
  simp only
  split
  · rename_i hp
    rw [hp]
  · rename_i hp
    rw [hp]
  · rename_i hp
    rw [hp]
    rfl

theorem climb_nil (ceiling : Nat) (left : Expr) :
    climb env sub ceiling left [] = { expr := left, rest := [] } := by
  rw [climb]

theorem climb_cons (ceiling : Nat) (left : Expr) (tok : Token) (rest : List Token) :
    climb env sub ceiling left (tok :: rest) =
      if tok.kind ≠ .symbol then { expr := left, rest := tok :: rest }
      else if tok.is "?" then
        if ceiling < ternaryPrecedence then { expr := left, rest := tok :: rest }
        else
          let yes := sub.read maxPrecedence rest
          let noColon : Parsed :=
            { yes with
              expr := .ternary (left.spanOr tok) left yes.expr .missing
              diagnostics := yes.diagnostics ++ [⟨env.position yes.rest, .expectedColon⟩] }
          match yes.rest with
          | colon :: [] =>
            if colon.is ":" then
              { yes with
                expr := .ternary (left.spanOr colon) left yes.expr .missing
                rest := []
                diagnostics := yes.diagnostics ++ [⟨colon.stop, .expectedAfterTernary⟩] }
            else noColon
          | colon :: next :: more =>
            if colon.is ":" then
              let no := sub.read ternaryPrecedence (next :: more)
              let whole := climb env sub ceiling
                (.ternary ((left.spanOr tok).join (no.expr.spanOr colon)) left yes.expr no.expr)
                no.rest
              { whole with
                diagnostics := yes.diagnostics ++ no.diagnostics ++ whole.diagnostics
                tooDeep := no.tooDeep || whole.tooDeep }
            else noColon
          | [] => noColon
      else
        match InfixOp.ofSymbol? tok.literal with
        | none => { expr := left, rest := tok :: rest }
        | some op =>
          if ceiling < op.precedence then { expr := left, rest := tok :: rest }
          else if rest.isEmpty then
            { expr := .binary (left.spanOr tok) op left .missing
              rest := []
              diagnostics := [⟨tok.stop, .expectedOperand tok.literal⟩] }
          else
            let right := sub.read (op.precedence - 1) rest
            let whole := climb env sub ceiling
              (.binary ((left.spanOr tok).join (right.expr.spanOr tok)) op left right.expr)
              right.rest
            { whole with
              diagnostics := right.diagnostics ++ whole.diagnostics
              tooDeep := right.tooDeep || whole.tooDeep } := by
  rw [climb.eq_def]
  simp only
  split
  · rfl
  · split
    · split
      · rfl
      · split
        · rename_i hr
          rw [hr]
        · rename_i hr
          rw [hr]
        · rename_i hr
          rw [hr]
    · rfl

def readCore (env : Env) (sub : Reader) (ts : List Token) : Parsed :=
  let atom := readAtom env sub ts
  let full := readPostfix sub atom.expr atom.rest
  { full with
    diagnostics := atom.diagnostics ++ full.diagnostics
    tooDeep := atom.tooDeep || full.tooDeep }

/-- Applies prefix operators, the innermost first. -/
def applyAll (marks : List Prefixed) (x : Expr) : Expr := marks.foldl (fun x p => p.apply x) x

/-- Goes on reading after some prefix operators. -/
def readOperand (env : Env) (sub : Reader) (budget : Nat) (marks : List Prefixed)
    (ts : List Token) : Parsed :=
  let ps := readPrefixes env budget marks ts
  if ps.tooDeep then
    { expr := .missing, rest := [], diagnostics := ps.diagnostics, tooDeep := true }
  else
    match ps.type with
    | some t =>
      { expr := applyAll ps.marks (.type t), rest := ps.rest, diagnostics := ps.diagnostics }
    | none =>
      let core := readCore env sub ps.rest
      { core with
        expr := applyAll ps.marks core.expr
        diagnostics := ps.diagnostics ++ core.diagnostics }

theorem readUnary_eq (budget : Nat) (ts : List Token) :
    readUnary env sub budget ts = readOperand env sub budget [] ts := by
  have hread := readUnary.eq_def env sub budget ts
  simp only [List.append_assoc] at hread
  exact hread

theorem readOperand_nil (budget : Nat) (marks : List Prefixed) :
    readOperand env sub budget marks [] =
      { readCore env sub [] with expr := applyAll marks (readCore env sub []).expr } := by
  rw [readOperand, readPrefixes.eq_def]
  rfl

theorem readOperand_cons (budget : Nat) (marks : List Prefixed) (tok : Token) (rest : List Token) :
    readOperand env sub budget marks (tok :: rest) =
      match prefixStep env tok rest with
      | .none =>
        { readCore env sub (tok :: rest) with
          expr := applyAll marks (readCore env sub (tok :: rest)).expr }
      | .sizeOfType t after =>
        { expr := applyAll (⟨.sizeof, tok⟩ :: marks) (.type t), rest := after }
      | .mark m after ds =>
        if budget < marks.length + 1 then
          { expr := .missing, rest := [], diagnostics := ds ++ [⟨tok.start, .nestedTooDeeply⟩],
            tooDeep := true }
        else Parser.after ds (readOperand env sub budget (⟨m, tok⟩ :: marks) after) := by
  rw [readOperand, readPrefixes_cons]
  cases prefixStep env tok rest with
  | none => rfl
  | sizeOfType t after => rfl
  | mark m after ds =>
    simp only
    split
    · rfl
    · simp only [readOperand, Parser.after]
      split
      · rfl
      · split
        · rfl
        · rw [List.append_assoc]

def readOperation (env : Env) (sub : Reader) (budget ceiling : Nat) (ts : List Token) : Parsed :=
  let first := readOperand env sub budget [] ts
  let whole := climb env sub ceiling first.expr first.rest
  { whole with
    diagnostics := first.diagnostics ++ whole.diagnostics
    tooDeep := first.tooDeep || whole.tooDeep }

theorem reader_succ (budget ceiling : Nat) (ts : List Token) :
    (reader env (budget + 1)).read ceiling ts =
      readOperation env (reader env budget) budget ceiling ts := by
  simp only [reader, readOperation, readUnary_eq]

end Parser

end WatchExpr
