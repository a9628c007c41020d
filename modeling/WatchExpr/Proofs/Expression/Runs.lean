import WatchExpr.Proofs.Expression.Steps

namespace WatchExpr.Parser

variable {env : Env} {sub : Reader}

inductive AtomRun (env : Env) (sub : Reader) : List Token → Parsed → Prop
  | nil : AtomRun env sub []
      { expr := .missing, rest := [], diagnostics := [⟨env.text.length, .expectedExpression⟩] }
  | closed {tok close : Token} {rest after : List Token} {i : Parsed}
      (hopen : tok.kind = .symbol ∧ tok.is "(") (hi : sub.read maxPrecedence rest = i)
      (hr : i.rest = close :: after) (hclose : close.is ")") :
      AtomRun env sub (tok :: rest) { i with rest := after }
  | unclosed {tok : Token} {rest : List Token} {i : Parsed}
      (hopen : tok.kind = .symbol ∧ tok.is "(") (hi : sub.read maxPrecedence rest = i)
      (hclose : ∀ close after, i.rest = close :: after → ¬ close.is ")") :
      AtomRun env sub (tok :: rest)
        { i with
          diagnostics :=
            if i.tooDeep then i.diagnostics
            else i.diagnostics ++ [⟨tok.start, .missingParenthesis⟩] }
  | written {tok : Token} {rest : List Token} {p : TypeParse}
      (hs : tok.kind = .identifier ∧ TypeExpr.isSignWord tok)
      (hp : TypeExpr.read env.context env.text (tok :: rest) = p) :
      AtomRun env sub (tok :: rest)
        { expr := p.type.elim .missing .type, rest := p.rest, diagnostics := p.diagnostics }
  | token {tok : Token} {rest : List Token} (hopen : ¬ (tok.kind = .symbol ∧ tok.is "("))
      (hs : ¬ (tok.kind = .identifier ∧ TypeExpr.isSignWord tok)) :
      AtomRun env sub (tok :: rest)
        { expr := (readToken env tok).1, rest, diagnostics := (readToken env tok).2 }

theorem atomRun (ts : List Token) : AtomRun env sub ts (readAtom env sub ts) := by
  cases ts with
  | nil => exact .nil
  | cons tok rest =>
    by_cases hopen : tok.kind = .symbol ∧ tok.is "("
    · rw [readAtom_paren hopen]
      simp only
      split
      · rename_i close after hr
        split
        · rename_i hclose
          exact .closed hopen rfl hr hclose
        · rename_i hclose
          refine .unclosed hopen rfl fun close' after' hr' => ?_
          rw [hr] at hr'
          cases hr'
          exact hclose
      · rename_i hr
        refine .unclosed hopen rfl fun close' after' hr' => ?_
        rw [hr] at hr'
        cases hr'
    · rw [readAtom, if_neg hopen]
      split
      · rename_i hs
        exact .written hs rfl
      · rename_i hs
        exact .token hopen hs

theorem AtomRun.eq {ts : List Token} {p : Parsed} (h : AtomRun env sub ts p) :
    readAtom env sub ts = p := by
  cases h with
  | nil => rfl
  | closed hopen hi hr hclose =>
    rw [readAtom_paren hopen, hi]
    simp only [hr, if_pos hclose]
  | unclosed hopen hi hclose =>
    rw [readAtom_paren hopen, hi]
    simp only
    split
    · rename_i close after hr
      rw [if_neg (hclose close after hr)]
    · rfl
  | @written tok rest p hs hp =>
    have hopen : ¬ (tok.kind = .symbol ∧ tok.is "(") := by simp [hs.1]
    rw [readAtom, if_neg hopen, if_pos hs, hp]
  | token hopen hs => rw [readAtom, if_neg hopen, if_neg hs]

def Detached : List Token → Prop
  | [] => True
  | tok :: _ => tok.is "." = false ∧ tok.is "->" = false ∧ tok.is "[" = false

inductive PostfixRun (sub : Reader) : Expr → List Token → Parsed → Prop
  | stop {x : Expr} {ts : List Token} (h : Detached ts) :
      PostfixRun sub x ts { expr := x, rest := ts }
  | noName {x : Expr} {tok : Token} {rest : List Token} (hdot : tok.is "." || tok.is "->")
      (hname : ∀ name after, rest = name :: after → name.kind ≠ .identifier) :
      PostfixRun sub x (tok :: rest)
        { expr := x, rest, diagnostics := [⟨tok.start, .expectedMember tok.literal⟩] }
  | member {x : Expr} {tok name : Token} {rest : List Token} {p : Parsed}
      (hdot : tok.is "." || tok.is "->") (hname : name.kind = .identifier)
      (h : PostfixRun sub (.member ((x.spanOr tok).join name.span) x ⟨name.span, name.literal⟩
        (tok.is "->")) rest p) :
      PostfixRun sub x (tok :: name :: rest) p
  | unclosed {x : Expr} {tok : Token} {rest : List Token} {i : Parsed}
      (hdot : ¬ (tok.is "." || tok.is "->")) (hopen : tok.is "[")
      (hi : sub.read maxPrecedence rest = i)
      (hclose : ∀ close after, i.rest = close :: after → ¬ close.is "]") :
      PostfixRun sub x (tok :: rest)
        { i with
          expr := .index ((x.spanOr tok).join (i.expr.spanOr tok)) x i.expr
          diagnostics :=
            if i.tooDeep then i.diagnostics else i.diagnostics ++ [⟨tok.start, .unclosedBracket⟩] }
  | index {x : Expr} {tok close : Token} {rest after : List Token} {i p : Parsed}
      (hdot : ¬ (tok.is "." || tok.is "->")) (hopen : tok.is "[")
      (hi : sub.read maxPrecedence rest = i) (hr : i.rest = close :: after) (hclose : close.is "]")
      (h : PostfixRun sub (.index ((x.spanOr tok).join close.span) x i.expr) after p) :
      PostfixRun sub x (tok :: rest) (Parser.after i.diagnostics p)

theorem postfixRun (x : Expr) (ts : List Token) : PostfixRun sub x ts (readPostfix sub x ts) := by
  fun_induction readPostfix sub x ts with
  | case1 => exact .stop trivial
  | case2 x tok hdot name rest hname e ih => exact .member hdot hname ih
  | case3 x tok hdot name rest hname =>
    refine .noName hdot ?_
    rintro _ _ ⟨⟩
    exact hname
  | case4 x tok hdot => exact .noName hdot fun _ _ h => by cases h
  | case5 x tok rest hdot hopen i close after hr hclose e ih =>
    exact .index hdot hopen rfl hr hclose ih
  | case6 x tok rest hdot hopen i unclosed close after hr hclose =>
    refine .unclosed hdot hopen rfl fun close' after' hr' => ?_
    cases hr.symm.trans hr'
    exact hclose
  | case7 x tok rest hdot hopen i unclosed hr =>
    refine .unclosed hdot hopen rfl fun close' after' hr' => ?_
    cases hr.symm.trans hr'
  | case8 x tok rest hdot hopen =>
    obtain ⟨hdot, harrow⟩ := Bool.or_eq_false_iff.1 (Bool.eq_false_iff.2 hdot)
    exact .stop ⟨hdot, harrow, Bool.eq_false_iff.2 hopen⟩

theorem PostfixRun.eq {x : Expr} {ts : List Token} {p : Parsed} (h : PostfixRun sub x ts p) :
    readPostfix sub x ts = p := by
  induction h with
  | @stop x ts h =>
    cases ts with
    | nil => exact readPostfix_nil x
    | cons tok rest =>
      obtain ⟨hdot, harrow, hopen⟩ := h
      rw [readPostfix_cons, hdot, harrow, hopen]
      rfl
  | @noName x tok rest hdot hname =>
    rw [readPostfix_cons, if_pos hdot]
    cases rest with
    | nil => rfl
    | cons name after => simp only [if_neg (hname name after rfl)]
  | member hdot hname _ ih =>
    rw [readPostfix_cons, if_pos hdot]
    simp only [if_pos hname, ih]
  | unclosed hdot hopen hi hclose =>
    rw [readPostfix_cons, if_neg hdot, if_pos hopen, hi]
    simp only
    split
    · rename_i close after hr
      rw [if_neg (hclose close after hr)]
    · rfl
  | index hdot hopen hi hr hclose _ ih =>
    rw [readPostfix_cons, if_neg hdot, if_pos hopen, hi]
    simp only [hr, if_pos hclose, ih]

theorem readClosedType_eq_ok {ts after : List Token} {t : TypeExpr}
    (h : readClosedType env ts = .ok (t, after)) :
    (TypeExpr.read env.context env.text ts).type = some t ∧
      ∃ close, (TypeExpr.read env.context env.text ts).rest = close :: after ∧ close.is ")" := by
  simp only [readClosedType] at h
  split at h
  · rename_i ht hr
    split at h
    · rename_i hclose
      cases h
      exact ⟨ht, _, hr, hclose⟩
    · cases h
  · cases h

theorem readClosedType_eq_error {ts : List Token} {ds : List Diagnostic}
    (h : readClosedType env ts = .error ds) :
    ds = (TypeExpr.read env.context env.text ts).diagnostics := by
  simp only [readClosedType] at h
  split at h
  · split at h <;> cases h
    rfl
  · cases h
    rfl

theorem simpleMark?_ne_cast {tok : Token} (t : TypeExpr) : simpleMark? tok ≠ some (.cast t) := by
  simp only [simpleMark?]
  repeat' split
  all_goals nofun

/-- The prefix operators, each with what is left after it and what is said about it. -/
inductive MarkRun (env : Env) (tok : Token) (rest : List Token) :
    Mark → List Token → List Diagnostic → Prop
  | simple {m : Mark} (h : simpleMark? tok = some m) : MarkRun env tok rest m rest []
  | sizeof {ds : List Diagnostic} (hw : tok.kind = .identifier ∧ tok.is "sizeof")
      (hrest : ∀ paren inner, rest = paren :: inner → paren.is "(" →
        env.context.startsType inner → readClosedType env inner = .error ds)
      (hds : ds = [] ∨ ∃ paren inner, rest = paren :: inner ∧
        readClosedType env inner = .error ds) :
      MarkRun env tok rest .sizeof rest ds
  | cast {t : TypeExpr} {after : List Token} (ho : tok.is "(") (hs : env.context.startsType rest)
      (ht : readClosedType env rest = .ok (t, after)) : MarkRun env tok rest (.cast t) after []

theorem markRun {tok : Token} {rest after : List Token} {m : Mark} {ds : List Diagnostic}
    (h : prefixStep env tok rest = .mark m after ds) : MarkRun env tok rest m after ds := by
  simp only [prefixStep] at h
  split at h
  · rename_i hm
    cases h
    exact .simple hm
  · split at h
    · rename_i hw
      split at h
      · rename_i paren inner
        split at h
        · split at h
          · cases h
          · rename_i hc
            cases h
            refine .sizeof hw ?_ (.inr ⟨paren, inner, rfl, hc⟩)
            rintro _ _ ⟨⟩ _ _
            exact hc
        · rename_i hs
          cases h
          refine .sizeof hw ?_ (.inl rfl)
          rintro _ _ ⟨⟩ hopen hstart
          exact absurd (Bool.and_eq_true_iff.2 ⟨hopen, hstart⟩) hs
      · cases h
        exact .sizeof hw (fun _ _ h => by cases h) (.inl rfl)
    · split at h
      · rename_i hs
        obtain ⟨ho, hs⟩ := Bool.and_eq_true_iff.1 hs
        split at h
        · rename_i hc
          cases h
          exact .cast ho hs hc
        · cases h
      · cases h

theorem prefixStep_eq_sizeOfType {tok : Token} {rest after : List Token} {t : TypeExpr}
    (h : prefixStep env tok rest = .sizeOfType t after) :
    (tok.kind = .identifier ∧ tok.is "sizeof") ∧ ∃ paren inner, rest = paren :: inner ∧
      paren.is "(" ∧ env.context.startsType inner ∧
        readClosedType env inner = .ok (t, after) := by
  simp only [prefixStep] at h
  split at h
  · cases h
  · split at h
    · rename_i hw
      split at h
      · rename_i paren inner
        split at h
        · rename_i hs
          obtain ⟨ho, hs⟩ := Bool.and_eq_true_iff.1 hs
          split at h
          · rename_i hc
            cases h
            exact ⟨hw, paren, inner, rfl, ho, hs, hc⟩
          · cases h
        · cases h
      · cases h
    · split at h
      · split at h <;> cases h
      · cases h

inductive OperandRun (env : Env) (sub : Reader) (budget : Nat) :
    List Prefixed → List Token → Parsed → Prop
  | core {marks : List Prefixed} {ts : List Token} {atom full : Parsed}
      (h : ∀ tok rest, ts = tok :: rest → prefixStep env tok rest = .none)
      (ha : AtomRun env sub ts atom) (hf : PostfixRun sub atom.expr atom.rest full) :
      OperandRun env sub budget marks ts
        { expr := applyAll marks full.expr
          rest := full.rest
          diagnostics := atom.diagnostics ++ full.diagnostics
          tooDeep := atom.tooDeep || full.tooDeep }
  | sizeOfType {marks : List Prefixed} {tok : Token} {rest after : List Token} {t : TypeExpr}
      (h : prefixStep env tok rest = .sizeOfType t after) :
      OperandRun env sub budget marks (tok :: rest)
        { expr := applyAll (⟨.sizeof, tok⟩ :: marks) (.type t), rest := after }
  | tooDeep {marks : List Prefixed} {tok : Token} {rest after : List Token} {m : Mark}
      {ds : List Diagnostic} (h : prefixStep env tok rest = .mark m after ds)
      (hb : budget ≤ marks.length) :
      OperandRun env sub budget marks (tok :: rest)
        { expr := .missing, rest := [], diagnostics := ds ++ [⟨tok.start, .nestedTooDeeply⟩],
          tooDeep := true }
  | mark {marks : List Prefixed} {tok : Token} {rest after : List Token} {m : Mark}
      {ds : List Diagnostic} {p : Parsed} (h : prefixStep env tok rest = .mark m after ds)
      (hb : marks.length < budget) (hp : OperandRun env sub budget (⟨m, tok⟩ :: marks) after p) :
      OperandRun env sub budget marks (tok :: rest) (Parser.after ds p)

theorem operandRun (budget : Nat) (marks : List Prefixed) (ts : List Token) :
    OperandRun env sub budget marks ts (readOperand env sub budget marks ts) := by
  induction hn : ts.length using Nat.strongRecOn generalizing ts marks with
  | _ n ih =>
    cases ts with
    | nil =>
      rw [readOperand_nil]
      exact .core (by rintro _ _ ⟨⟩) (atomRun []) (postfixRun _ _)
    | cons tok rest =>
      rw [readOperand_cons]
      cases hstep : prefixStep env tok rest with
      | none =>
        refine .core ?_ (atomRun _) (postfixRun _ _)
        rintro _ _ ⟨⟩
        exact hstep
      | sizeOfType t after => exact .sizeOfType hstep
      | mark m after ds =>
        simp only
        split
        · rename_i hb
          exact .tooDeep hstep (Nat.le_of_lt_succ hb)
        · rename_i hb
          have hlen : after.length < n := by
            rw [← hn]
            exact Nat.lt_succ_of_le (length_prefixStep_mark hstep)
          exact .mark hstep (Nat.le_of_not_lt hb) (ih _ hlen _ after rfl)

theorem OperandRun.eq {budget : Nat} {marks : List Prefixed} {ts : List Token} {p : Parsed}
    (h : OperandRun env sub budget marks ts p) : readOperand env sub budget marks ts = p := by
  induction h with
  | @core marks ts atom full h ha hf =>
    have hcore : readCore env sub ts = { full with
        diagnostics := atom.diagnostics ++ full.diagnostics
        tooDeep := atom.tooDeep || full.tooDeep } := by
      rw [readCore, ha.eq, hf.eq]
    cases ts with
    | nil => rw [readOperand_nil, hcore]
    | cons tok rest => rw [readOperand_cons, h tok rest rfl, hcore]
  | sizeOfType h => rw [readOperand_cons, h]
  | tooDeep h hb =>
    rw [readOperand_cons, h]
    simp only [if_pos (Nat.lt_succ_of_le hb)]
  | mark h hb _ ih =>
    rw [readOperand_cons, h]
    simp only [if_neg (Nat.not_lt.2 hb), ih]

/-- No operator that binds as tight as a ceiling asks for. -/
def Ends (ceiling : Nat) : List Token → Prop
  | [] => True
  | tok :: _ => tok.kind = .symbol → (tok.is "?" → ceiling < ternaryPrecedence) ∧
      ∀ op, InfixOp.ofSymbol? tok.literal = some op → ceiling < op.precedence

inductive ClimbRun (env : Env) (sub : Reader) (ceiling : Nat) : Expr → List Token → Parsed → Prop
  | stop {left : Expr} {ts : List Token} (h : Ends ceiling ts) :
      ClimbRun env sub ceiling left ts { expr := left, rest := ts }
  | noColon {left : Expr} {tok : Token} {rest : List Token} {yes : Parsed}
      (hk : tok.kind = .symbol) (hq : tok.is "?") (hc : ternaryPrecedence ≤ ceiling)
      (hyes : sub.read maxPrecedence rest = yes)
      (hcolon : ∀ colon after, yes.rest = colon :: after → ¬ colon.is ":") :
      ClimbRun env sub ceiling left (tok :: rest)
        { yes with
          expr := .ternary (left.spanOr tok) left yes.expr .missing
          diagnostics := yes.diagnostics ++ [⟨env.position yes.rest, .expectedColon⟩] }
  | noBranch {left : Expr} {tok colon : Token} {rest : List Token} {yes : Parsed}
      (hk : tok.kind = .symbol) (hq : tok.is "?") (hc : ternaryPrecedence ≤ ceiling)
      (hyes : sub.read maxPrecedence rest = yes) (hr : yes.rest = [colon]) (hcolon : colon.is ":") :
      ClimbRun env sub ceiling left (tok :: rest)
        { yes with
          expr := .ternary (left.spanOr colon) left yes.expr .missing
          rest := []
          diagnostics := yes.diagnostics ++ [⟨colon.stop, .expectedAfterTernary⟩] }
  | conditional {left : Expr} {tok colon : Token} {rest after : List Token}
      {yes no whole : Parsed} (hk : tok.kind = .symbol) (hq : tok.is "?")
      (hc : ternaryPrecedence ≤ ceiling) (hyes : sub.read maxPrecedence rest = yes)
      (hr : yes.rest = colon :: after) (hcolon : colon.is ":") (hne : after ≠ [])
      (hno : sub.read ternaryPrecedence after = no)
      (h : ClimbRun env sub ceiling
        (.ternary ((left.spanOr tok).join (no.expr.spanOr colon)) left yes.expr no.expr)
        no.rest whole) :
      ClimbRun env sub ceiling left (tok :: rest)
        { whole with
          diagnostics := yes.diagnostics ++ no.diagnostics ++ whole.diagnostics
          tooDeep := no.tooDeep || whole.tooDeep }
  | noOperand {left : Expr} {tok : Token} {op : InfixOp} (hk : tok.kind = .symbol)
      (hop : InfixOp.ofSymbol? tok.literal = some op) (hc : op.precedence ≤ ceiling) :
      ClimbRun env sub ceiling left [tok]
        { expr := .binary (left.spanOr tok) op left .missing
          rest := []
          diagnostics := [⟨tok.stop, .expectedOperand tok.literal⟩] }
  | operator {left : Expr} {tok : Token} {rest : List Token} {op : InfixOp} {right whole : Parsed}
      (hk : tok.kind = .symbol) (hop : InfixOp.ofSymbol? tok.literal = some op)
      (hc : op.precedence ≤ ceiling) (hne : rest ≠ [])
      (hright : sub.read (op.precedence - 1) rest = right)
      (h : ClimbRun env sub ceiling
        (.binary ((left.spanOr tok).join (right.expr.spanOr tok)) op left right.expr)
        right.rest whole) :
      ClimbRun env sub ceiling left (tok :: rest)
        { whole with
          diagnostics := right.diagnostics ++ whole.diagnostics
          tooDeep := right.tooDeep || whole.tooDeep }

theorem not_mark_of_ofSymbol {tok : Token} {op : InfixOp}
    (h : InfixOp.ofSymbol? tok.literal = some op) : ¬ tok.is "?" := by
  intro hq
  rw [eq_of_beq (Bool.and_eq_true_iff.1 hq).2] at h
  cases h

theorem climbRun (ceiling : Nat) (left : Expr) (ts : List Token) :
    ClimbRun env sub ceiling left ts (climb env sub ceiling left ts) := by
  fun_induction climb env sub ceiling left ts with
  | case1 => exact .stop trivial
  | case2 left tok rest hk => exact .stop fun h => absurd h hk
  | case3 left tok rest hk hq hc =>
    refine .stop fun _ => ⟨fun _ => hc, fun op hop => ?_⟩
    exact absurd hq (not_mark_of_ofSymbol hop)
  | case4 left tok rest hk hq hc yes colon hr hcolon =>
    exact .noBranch (Decidable.not_not.1 hk) hq (Nat.le_of_not_lt hc) rfl hr hcolon
  | case5 left tok rest hk hq hc yes noColon colon hr hcolon =>
    refine .noColon (Decidable.not_not.1 hk) hq (Nat.le_of_not_lt hc) rfl fun colon' _ hr' => ?_
    cases hr.symm.trans hr'
    exact hcolon
  | case6 left tok rest hk hq hc yes colon next more hr hcolon no span whole ih =>
    exact .conditional (Decidable.not_not.1 hk) hq (Nat.le_of_not_lt hc) rfl hr hcolon
      (List.cons_ne_nil _ _) rfl ih
  | case7 left tok rest hk hq hc yes noColon colon next more hr hcolon =>
    refine .noColon (Decidable.not_not.1 hk) hq (Nat.le_of_not_lt hc) rfl fun colon' _ hr' => ?_
    cases hr.symm.trans hr'
    exact hcolon
  | case8 left tok rest hk hq hc yes noColon hr =>
    refine .noColon (Decidable.not_not.1 hk) hq (Nat.le_of_not_lt hc) rfl fun colon' _ hr' => ?_
    cases hr.symm.trans hr'
  | case9 left tok rest hk hq hop =>
    refine .stop fun _ => ⟨fun h => absurd h hq, fun op h => ?_⟩
    cases hop.symm.trans h
  | case10 left tok rest hk hq op hop hc =>
    refine .stop fun _ => ⟨fun h => absurd h hq, fun op' h => ?_⟩
    cases hop.symm.trans h
    exact hc
  | case11 left tok rest hk hq op hop hc he =>
    cases List.isEmpty_iff.1 he
    exact .noOperand (Decidable.not_not.1 hk) hop (Nat.le_of_not_lt hc)
  | case12 left tok rest hk hq op hop hc he right span whole ih =>
    exact .operator (Decidable.not_not.1 hk) hop (Nat.le_of_not_lt hc)
      (fun hnil => he (List.isEmpty_iff.2 hnil)) rfl ih

theorem ClimbRun.eq {ceiling : Nat} {left : Expr} {ts : List Token} {p : Parsed}
    (h : ClimbRun env sub ceiling left ts p) : climb env sub ceiling left ts = p := by
  induction h with
  | @stop left ts h =>
    cases ts with
    | nil => exact climb_nil ceiling left
    | cons tok rest =>
      rw [climb_cons]
      split
      · rfl
      · rename_i hk
        obtain ⟨hq, hop⟩ := h (Decidable.of_not_not hk)
        split
        · rename_i hm
          rw [if_pos (hq hm)]
        · split
          · rfl
          · rename_i op ho
            rw [if_pos (hop op ho)]
  | noColon hk hq hc hyes hcolon =>
    rw [climb_cons, if_neg (not_not_intro hk), if_pos hq, if_neg (Nat.not_lt.2 hc), hyes]
    simp only
    split
    · rename_i colon hr
      rw [if_neg (hcolon colon [] hr)]
    · rename_i colon next more hr
      rw [if_neg (hcolon colon (next :: more) hr)]
    · rfl
  | noBranch hk hq hc hyes hr hcolon =>
    rw [climb_cons, if_neg (not_not_intro hk), if_pos hq, if_neg (Nat.not_lt.2 hc), hyes]
    simp only [hr, if_pos hcolon]
  | conditional hk hq hc hyes hr hcolon hne hno _ ih =>
    obtain ⟨next, more, rfl⟩ := List.exists_cons_of_ne_nil hne
    rw [climb_cons, if_neg (not_not_intro hk), if_pos hq, if_neg (Nat.not_lt.2 hc), hyes]
    simp only [hr, if_pos hcolon, hno, ih]
  | noOperand hk hop hc =>
    rw [climb_cons, if_neg (not_not_intro hk), if_neg (not_mark_of_ofSymbol hop), hop]
    simp only [if_neg (Nat.not_lt.2 hc)]
    rfl
  | operator hk hop hc hne hright _ ih =>
    rw [climb_cons, if_neg (not_not_intro hk), if_neg (not_mark_of_ofSymbol hop), hop]
    simp only [if_neg (Nat.not_lt.2 hc), List.isEmpty_iff, if_neg hne, hright, ih]

theorem reader_eq {budget ceiling : Nat} {ts : List Token} {first whole : Parsed}
    (hfirst : OperandRun env (reader env budget) budget [] ts first)
    (hwhole : ClimbRun env (reader env budget) ceiling first.expr first.rest whole) :
    (reader env (budget + 1)).read ceiling ts =
      { whole with
        diagnostics := first.diagnostics ++ whole.diagnostics
        tooDeep := first.tooDeep || whole.tooDeep } := by
  rw [reader_succ, readOperation, hfirst.eq, hwhole.eq]

theorem reader_run (env : Env) (budget ceiling : Nat) (ts : List Token) : ∃ first whole,
    OperandRun env (reader env budget) budget [] ts first ∧
      ClimbRun env (reader env budget) ceiling first.expr first.rest whole ∧
      (reader env (budget + 1)).read ceiling ts =
        { whole with
          diagnostics := first.diagnostics ++ whole.diagnostics
          tooDeep := first.tooDeep || whole.tooDeep } :=
  ⟨_, _, operandRun budget [] ts, climbRun ceiling _ _,
    reader_eq (operandRun budget [] ts) (climbRun ceiling _ _)⟩

end WatchExpr.Parser
