import WatchExpr.Proofs.Expression.Grammar

namespace WatchExpr

namespace Token

variable {tok : Token} {literal : Text}

theorem is_symbol (h : tok.erase = .symbol literal) (w : Text) : tok.is w = (literal == w) := by
  rw [← erase_is, h]
  rfl

theorem kind_symbol (h : tok.erase = .symbol literal) : tok.kind = .symbol := by
  rw [← erase_kind, h]
  rfl

theorem literal_symbol (h : tok.erase = .symbol literal) : tok.literal = literal := by
  rw [← erase_literal, h]
  rfl

theorem head_symbol (h : tok.erase = .symbol literal) (rest : List Token) :
    ∀ first, (tok :: rest).head? = some first → first.kind ≠ .identifier := by
  rintro first ⟨⟩
  rw [kind_symbol h]
  nofun

theorem is_word (h : tok.erase = .word literal) (w : Text) : tok.is w = (literal == w) := by
  rw [← erase_is, h]
  rfl

theorem kind_word (h : tok.erase = .word literal) : tok.kind = .identifier := by
  rw [← erase_kind, h]
  rfl

end Token

namespace TypeExpr

/-- The type of a sign word and the words after it up to a last one. -/
def signedType (text : Text) (tok last : Token) (k : BasicKind) : TypeExpr :=
  .named ⟨tok.start, last.stop⟩ (slice text tok last)
    (.basic (if tok.is "unsigned" then k.toUnsigned else k))

theorem readSigned_bare {text : Text} {tok : Token} {rest : List Token}
    (h : ∀ next, rest.head? = some next → next.kind ≠ .identifier) :
    readSigned text tok rest = (signedType text tok tok .s32, rest) := by
  cases rest with
  | nil => rfl
  | cons next rest =>
    simp only [readSigned, if_neg (h next rfl)]
    rfl

theorem readSigned_integer {text : Text} {tok next : Token} {k : BasicKind}
    (hk : next.kind = .identifier) (hb : builtinType? next.literal = some k)
    (hi : k.group.isInteger) (rest : List Token) :
    readSigned text tok (next :: rest) = (signedType text tok next k, rest) := by
  simp only [readSigned, hk, hb, hi, if_true]
  rfl

theorem readSuffixes_array {start : Nat} {t : TypeExpr} {bra n ket : Token} {count : UInt64}
    (ho : bra.erase = .symbol "[") (hk : n.kind = .numeric)
    (hn : Literal.readCount? (Literal.trimIntSuffix n.literal) = some count)
    (hc : ket.erase = .symbol "]") (rest : List Token) :
    readSuffixes start t (bra :: n :: ket :: rest) =
      readSuffixes start (.array ⟨start, ket.stop⟩ t count) rest := by
  have hstar : bra.is "*" = false := Token.is_symbol ho _
  have hopen : bra.is "[" = true := Token.is_symbol ho _
  have hclose : ket.is "]" = true := Token.is_symbol hc _
  rw [readSuffixes]
  simp only [hstar, hopen, hclose, hk, hn, Bool.false_eq_true, if_false, if_true, and_self]

theorem readSuffixes_stop {start : Nat} {t : TypeExpr} {tok : Token} (hstar : tok.is "*" = false)
    (hopen : tok.is "[" = false) (rest : List Token) :
    readSuffixes start t (tok :: rest) = ⟨some t, tok :: rest, []⟩ := by
  rw [readSuffixes.eq_def]
  simp only [hstar, hopen, Bool.false_eq_true, if_false]

end TypeExpr

namespace WrittenType

variable {c : Context} {text : Text} {t : WrittenType} {us : List Token}

theorem isSignWord_signWord {tok : Token} {isUnsigned : Bool}
    (ht : tok.erase = .word (signWord isUnsigned)) :
    TypeExpr.isSignWord tok = true ∧ tok.is "unsigned" = isUnsigned := by
  rw [TypeExpr.isSignWord, Token.is_word ht, Token.is_word ht]
  cases isUnsigned <;> decide

theorem Spells.read (h : t.Spells c text us) {rest : List Token}
    (hr : ∀ tok, rest.head? = some tok → tok.kind ≠ .identifier) :
    ∃ start e, e.unplaced = t.tree c ∧
      TypeExpr.read c text (us ++ rest) = TypeExpr.readSuffixes start e rest := by
  induction h generalizing rest with
  | @name tok hk hs ht =>
    obtain ⟨k, hk'⟩ := Option.isSome_iff_exists.1 ht
    refine ⟨tok.start, .named tok.span tok.literal k, ?_, ?_⟩
    · rw [TypeExpr.unplaced, tree, hk']
      rfl
    · rw [List.singleton_append, TypeExpr.read, hs, hk, hk']
      rfl
  | @sign tok isUnsigned ht =>
    obtain ⟨hs, hu⟩ := isSignWord_signWord ht
    refine ⟨tok.start, TypeExpr.signedType text tok tok .s32, ?_, ?_⟩
    · rw [TypeExpr.signedType, hu]
      rfl
    · simp only [List.singleton_append, TypeExpr.read, hs, if_true, TypeExpr.readSigned_bare hr]
  | @signed tok next isUnsigned k ht hk hb hi =>
    obtain ⟨hs, hu⟩ := isSignWord_signWord ht
    refine ⟨tok.start, TypeExpr.signedType text tok next k, ?_, ?_⟩
    · rw [TypeExpr.signedType, hu, tree, Option.bind_some, hb]
      rfl
    · simp only [List.cons_append, List.nil_append, TypeExpr.read, hs, if_true,
        TypeExpr.readSigned_integer hk hb hi]
  | @pointer elem ts star _ hs ih =>
    obtain ⟨start, e, he, hread⟩ := ih (Token.head_symbol hs rest)
    refine ⟨start, .pointer ⟨start, star.stop⟩ e, ?_, ?_⟩
    · rw [TypeExpr.unplaced, he, tree]
    · rw [List.append_assoc, List.singleton_append, hread,
        TypeExpr.readSuffixes_star (by rw [Token.is_symbol hs]; decide)]
  | @array elem ts bra n ket _ ho hk hn hc ih =>
    obtain ⟨count, hn⟩ := Option.isSome_iff_exists.1 hn
    obtain ⟨start, e, he, hread⟩ := ih (Token.head_symbol ho (n :: ket :: rest))
    refine ⟨start, .array ⟨start, ket.stop⟩ e count, ?_, ?_⟩
    · rw [TypeExpr.unplaced, he, tree, hn]
      rfl
    · rw [List.append_assoc, List.cons_append, List.cons_append, List.singleton_append, hread,
        TypeExpr.readSuffixes_array ho hk hn hc]

/-- No local hides the name of the type. -/
def Visible (c : Context) : WrittenType → Prop
  | name literal => ∀ r, c.resolver = some r → r.localSymbol? literal = none
  | signed .. => True
  | pointer elem | array elem _ => elem.Visible c

theorem Spells.startsType (h : t.Spells c text us) (hv : t.Visible c) (rest : List Token) :
    c.startsType (us ++ rest) = true := by
  induction h generalizing rest with
  | @name tok hk hs ht =>
    have hlocal : (c.resolver.any fun r => (r.localSymbol? tok.literal).isSome) = false := by
      cases hr : c.resolver with
      | none => rfl
      | some r =>
        rw [Option.any_some, hv r hr]
        rfl
    simp [Context.startsType, hk, hlocal, ht]
  | sign ht => simp [Context.startsType, Token.kind_word ht, (isSignWord_signWord ht).1]
  | signed ht => simp [Context.startsType, Token.kind_word ht, (isSignWord_signWord ht).1]
  | pointer _ _ ih =>
    rw [List.append_assoc]
    exact ih hv _
  | array _ _ _ _ _ ih =>
    rw [List.append_assoc]
    exact ih hv _

theorem Spells.readClosedType {env : Parser.Env} (h : t.Spells env.context env.text us)
    {ket : Token} (hc : ket.erase = .symbol ")") (rest : List Token) :
    ∃ e, e.unplaced = t.tree env.context ∧
      Parser.readClosedType env (us ++ ket :: rest) = .ok (e, rest) := by
  obtain ⟨start, e, he, hread⟩ := h.read (Token.head_symbol hc rest)
  refine ⟨e, he, ?_⟩
  rw [TypeExpr.readSuffixes_stop (Token.is_symbol hc _) (Token.is_symbol hc _)] at hread
  simp only [Parser.readClosedType, hread, Token.is_symbol hc, BEq.rfl, if_true]

end WrittenType

namespace Written

/-- Names are no types and no operator words, and types are visible where they are written. -/
def Plain (c : Context) : Written → Prop
  | number _ | char _ => True
  | name literal =>
    literal.head?.any Lexer.isIdentifierStart = true ∧ literal ≠ "sizeof" ∧
      c.typeNamed? literal = none
  | type _ => False
  | sizeOfType t => t.Visible c
  | cast t x => t.Visible c ∧ x.Plain c
  | sigil _ x | sizeof x | member x _ _ => x.Plain c
  | binary _ x y | index x y => x.Plain c ∧ y.Plain c
  | ternary x y z => x.Plain c ∧ y.Plain c ∧ z.Plain c

end Written

namespace Parser

/-- No type stands alone before a closing parenthesis. -/
def NoType (env : Env) (ts : List Token) : Prop :=
  env.context.startsType ts = true → readClosedType env ts = .error []

/-- The front of an operand without prefix operators. -/
inductive Opening (env : Env) : List Token → Prop
  | atom {tok : Token} {rest : List Token}
      (his : ∀ w : Text, w.head?.any Lexer.isIdentifierStart = false → tok.is w = false)
      (hsizeof : tok.is "sizeof" = false)
      (htype : env.context.startsType (tok :: rest) = false) : Opening env (tok :: rest)
  | paren {bra : Token} {rest : List Token} (ho : bra.erase = .symbol "(")
      (hn : NoType env rest) : Opening env (bra :: rest)

section
variable {env : Env} {tok : Token} {ts rest : List Token}

theorem simpleMark?_eq_none
    (h : ∀ w : Text, w.head?.any Lexer.isIdentifierStart = false → tok.is w = false) :
    simpleMark? tok = none := by
  simp only [simpleMark?, h "-" (by decide), h "!" (by decide), h "~" (by decide),
    h "*" (by decide), h "&" (by decide), Bool.false_eq_true, if_false]

theorem prefixStep_eq_none
    (his : ∀ w : Text, w.head?.any Lexer.isIdentifierStart = false → tok.is w = false)
    (hsizeof : tok.is "sizeof" = false) (rest : List Token) : prefixStep env tok rest = .none := by
  simp only [prefixStep, simpleMark?_eq_none his, hsizeof, his "(" (by decide), Bool.false_eq_true,
    and_false, Bool.false_and, if_false]

theorem Opening.prefixStep (h : Opening env (tok :: rest)) : prefixStep env tok rest = .none := by
  cases h with
  | atom his hsizeof => exact prefixStep_eq_none his hsizeof rest
  | paren ho hn =>
    have hmark : simpleMark? tok = none := by
      rw [show simpleMark? tok = simpleMark? tok.erase from rfl, ho]
      decide
    have hsizeof : tok.is "sizeof" = false := Token.is_symbol ho _
    simp only [Parser.prefixStep, hmark, hsizeof, Bool.false_eq_true, and_false, if_false]
    split
    · rename_i hs
      rw [hn (Bool.and_eq_true_iff.1 hs).2]
    · rfl

theorem prefixStep_sizeof {word : Token} (hw : word.erase = .word "sizeof") (rest : List Token) :
    Parser.prefixStep env word (tok :: rest) =
      if tok.is "(" && env.context.startsType rest then
        match readClosedType env rest with
        | .ok (t, after) => .sizeOfType t after
        | .error ds => .mark .sizeof (tok :: rest) ds
      else .mark .sizeof (tok :: rest) [] := by
  have hmark : simpleMark? word = none := by
    rw [show simpleMark? word = simpleMark? word.erase from rfl, hw]
    decide
  have hsizeof : word.is "sizeof" = true := Token.is_word hw _
  have hstep := prefixStep.eq_def env word (tok :: rest)
  simp only [hmark, Token.kind_word hw, hsizeof, and_self, if_true] at hstep
  exact hstep

theorem prefixStep_sizeof_of_is {word : Token} (hw : word.erase = .word "sizeof")
    (h : tok.is "(" = false) (rest : List Token) :
    Parser.prefixStep env word (tok :: rest) = .mark .sizeof (tok :: rest) [] := by
  rw [prefixStep_sizeof hw, h]
  rfl

theorem Opening.sizeof {word : Token} (hw : word.erase = .word "sizeof") (h : Opening env ts) :
    Parser.prefixStep env word ts = .mark .sizeof ts [] := by
  cases h with
  | atom his => exact prefixStep_sizeof_of_is hw (his _ (by decide)) _
  | paren ho hn =>
    rw [prefixStep_sizeof hw]
    split
    · rename_i hs
      rw [hn (Bool.and_eq_true_iff.1 hs).2]
    · rfl

theorem Opening.noType (h : Opening env ts) : NoType env ts := by
  intro hs
  cases h with
  | atom _ _ htype =>
    rw [htype] at hs
    cases hs
  | paren ho =>
    simp [Context.startsType, Token.kind_symbol ho] at hs

/-- Something other than a closing parenthesis follows a type. -/
def Interrupts (ts : List Token) : Prop :=
  ∀ start t, ∃ t' tok rest, tok.is ")" = false ∧
    TypeExpr.readSuffixes start t ts = ⟨some t', tok :: rest, []⟩

theorem interrupts_of_is (hstar : tok.is "*" = false) (hopen : tok.is "[" = false)
    (hclose : tok.is ")" = false) (rest : List Token) : Interrupts (tok :: rest) :=
  fun _ t => ⟨t, tok, rest, hclose, TypeExpr.readSuffixes_stop hstar hopen rest⟩

theorem Opening.interrupts (h : Opening env ts) : Interrupts ts := by
  cases h with
  | atom his => exact interrupts_of_is (his _ (by decide)) (his _ (by decide)) (his _ (by decide)) _
  | paren ho =>
    exact interrupts_of_is (Token.is_symbol ho _) (Token.is_symbol ho _) (Token.is_symbol ho _) _

theorem noType_of_kind (h : tok.kind ≠ .identifier) (rest : List Token) :
    NoType env (tok :: rest) := by
  intro hs
  simp [Context.startsType, h] at hs

theorem Interrupts.noType {word : Token} (hw : word.erase = .word "sizeof") (h : Interrupts ts) :
    NoType env (word :: ts) := by
  intro hs
  have hsign : TypeExpr.isSignWord word = false := by
    rw [TypeExpr.isSignWord, Token.is_word hw, Token.is_word hw]
    decide
  simp only [Context.startsType, hsign, Bool.false_or, Bool.and_eq_true] at hs
  obtain ⟨k, hk⟩ := Option.isSome_iff_exists.1 hs.2.2
  obtain ⟨t, tok, rest, hclose, hread⟩ := h word.start (.named word.span word.literal k)
  simp only [readClosedType, TypeExpr.read, hsign, Bool.false_eq_true, if_false,
    Token.kind_word hw, if_true, hk, hread, hclose]

end

end Parser

theorem InfixOp.ofSymbol?_symbol (op : InfixOp) : ofSymbol? op.symbol = some op := by
  cases op <;> decide

namespace Parser

/-- The ceiling that the last operand of an expression is read under: the right operand of an infix
operator binds tighter than the operator, the last part of a conditional need not. -/
def closing (ceiling : Nat) : Nat := if ceiling < ternaryPrecedence then ceiling - 1 else ceiling

section
variable {env : Env} {sub : Reader} {ceiling : Nat} {tok : Token} {rest : List Token}

theorem Ends.mono {ceiling' : Nat} (h : Ends ceiling rest) (hle : ceiling' ≤ ceiling) :
    Ends ceiling' rest := by
  cases rest with
  | nil => trivial
  | cons tok rest =>
    intro hk
    obtain ⟨hq, hop⟩ := h hk
    exact ⟨fun h => Nat.lt_of_le_of_lt hle (hq h), fun op h => Nat.lt_of_le_of_lt hle (hop op h)⟩

theorem ends_bracket {literal : Text} (h : tok.erase = .symbol literal)
    (hl : literal = ")" ∨ literal = "]" ∨ literal = ":") (ceiling : Nat) (rest : List Token) :
    Ends ceiling (tok :: rest) ∧ Detached (tok :: rest) := by
  have hq : tok.is "?" = false := by
    rw [Token.is_symbol h]
    obtain rfl | rfl | rfl := hl <;> decide
  have hop : InfixOp.ofSymbol? tok.literal = none := by
    rw [Token.literal_symbol h]
    obtain rfl | rfl | rfl := hl <;> decide
  refine ⟨fun _ => ⟨fun h => ?_, fun op h => ?_⟩, ?_⟩
  · rw [hq] at h
    cases h
  · rw [hop] at h
    cases h
  · rw [Detached, Token.is_symbol h, Token.is_symbol h, Token.is_symbol h]
    obtain rfl | rfl | rfl := hl <;> decide

theorem ends_operator {op : InfixOp} (h : tok.erase = .symbol op.symbol)
    (hc : ceiling < op.precedence) (rest : List Token) :
    Ends ceiling (tok :: rest) ∧ Detached (tok :: rest) := by
  refine ⟨fun _ => ⟨fun hq => ?_, fun op' hop => ?_⟩, ?_⟩
  · rw [Token.is_symbol h] at hq
    cases op <;> cases hq
  · rw [Token.literal_symbol h, InfixOp.ofSymbol?_symbol] at hop
    cases hop
    exact hc
  · rw [Detached, Token.is_symbol h, Token.is_symbol h, Token.is_symbol h]
    cases op <;> decide

theorem ends_mark (h : tok.erase = .symbol "?") (hc : ceiling < ternaryPrecedence)
    (rest : List Token) : Ends ceiling (tok :: rest) ∧ Detached (tok :: rest) := by
  refine ⟨fun _ => ⟨fun _ => hc, fun op hop => ?_⟩, ?_⟩
  · rw [Token.literal_symbol h] at hop
    cases hop
  · rw [Detached, Token.is_symbol h, Token.is_symbol h, Token.is_symbol h]
    decide

theorem climb_operator {op : InfixOp} {left y : Expr} {us : List Token}
    (ht : tok.erase = .symbol op.symbol) (hc : op.precedence ≤ ceiling) (hne : us ≠ [])
    (hread : sub.read (op.precedence - 1) us = ⟨y, rest, [], false⟩) :
    climb env sub ceiling left (tok :: us) = climb env sub ceiling
      (.binary ((left.spanOr tok).join (y.spanOr tok)) op left y) rest := by
  have hop : InfixOp.ofSymbol? tok.literal = some op := by
    rw [Token.literal_symbol ht, InfixOp.ofSymbol?_symbol]
  exact (ClimbRun.operator (Token.kind_symbol ht) hop hc hne hread (climbRun ceiling _ rest)).eq

theorem climb_mark {left y z : Expr} {us vs : List Token} {colon : Token}
    (hm : tok.erase = .symbol "?") (hc : ternaryPrecedence ≤ ceiling)
    (hyes : sub.read maxPrecedence us = ⟨y, colon :: vs, [], false⟩)
    (hcolon : colon.erase = .symbol ":") (hne : vs ≠ [])
    (hno : sub.read ternaryPrecedence vs = ⟨z, rest, [], false⟩) :
    climb env sub ceiling left (tok :: us) = climb env sub ceiling
      (.ternary ((left.spanOr tok).join (z.spanOr colon)) left y z) rest :=
  (ClimbRun.conditional (Token.kind_symbol hm) (Token.is_symbol hm _) hc hyes rfl
    (Token.is_symbol hcolon _) hne hno (climbRun ceiling _ rest)).eq

theorem readOperand_mark {budget : Nat} {marks : List Prefixed} {m : Mark} {after : List Token}
    (h : prefixStep env tok rest = .mark m after []) (hb : marks.length < budget) :
    readOperand env sub budget marks (tok :: rest) =
      readOperand env sub budget (⟨m, tok⟩ :: marks) after :=
  (OperandRun.mark h hb (operandRun budget _ after)).eq

theorem prefixStep_paren (ho : tok.erase = .symbol "(") (hs : env.context.startsType rest) :
    prefixStep env tok rest =
      match readClosedType env rest with
      | .ok (t, after) => .mark (.cast t) after []
      | .error _ => .none := by
  have hmark : simpleMark? tok = none := by
    rw [show simpleMark? tok = simpleMark? tok.erase from rfl, ho]
    decide
  have hsizeof : tok.is "sizeof" = false := Token.is_symbol ho _
  have hopen : tok.is "(" = true := Token.is_symbol ho _
  have hstep := prefixStep.eq_def env tok rest
  simp only [hmark, hsizeof, hopen, hs, Bool.false_eq_true, and_false, if_false, Bool.and_self,
    if_true] at hstep
  exact hstep

theorem readCore_of_readAtom {ts : List Token} {e : Expr}
    (h : readAtom env sub ts = ⟨e, rest, [], false⟩) :
    readCore env sub ts = readPostfix sub e rest := by
  rw [readCore, h]
  rfl

/-- What a grammar says of nested expressions is what a reader does. -/
structure Reads (env : Env) (sub : Reader) (R : Nat → Written → List Token → Prop) : Prop where
  ne_nil : ∀ {ceiling w ts}, R ceiling w ts → w.Plain env.context → ts ≠ []
  noType : ∀ {ceiling w ts}, R ceiling w ts → w.Plain env.context → ∀ rest, NoType env (ts ++ rest)
  read : ∀ {ceiling w ts}, R ceiling w ts → w.Plain env.context →
    ∀ rest, Ends ceiling rest → Detached rest → ∃ e, e.unplaced = w.tree env.context ∧
      sub.read ceiling (ts ++ rest) = ⟨e, rest, [], false⟩

end

end Parser

namespace Written

open WatchExpr.Parser

variable {env : Env} {R : Nat → Written → List Token → Prop} {w : Written} {ts : List Token}

section
variable (hR : ∀ w ts, R maxPrecedence w ts → w.Plain env.context →
  ∀ rest, NoType env (ts ++ rest))
include hR

theorem Core.opening (h : Core env.context env.text R w ts) (hp : w.Plain env.context)
    (rest : List Token) : Opening env (ts ++ rest) := by
  have hkind {tok : Token} {rest : List Token} (hk : tok.kind ≠ .identifier)
      (hs : tok.kind ≠ .symbol) : Opening env (tok :: rest) := by
    have his (w : Text) : tok.is w = false := by simp [Token.is, hk, hs]
    exact .atom (fun w _ => his w) (his _) (by simp [Context.startsType, hk])
  induction h generalizing rest with
  | number hk => exact hkind (by rw [hk]; decide) (by rw [hk]; decide)
  | char hk => exact hkind (by rw [hk]; decide) (by rw [hk]; decide)
  | @name tok e hk hs he =>
    obtain ⟨hstart, hsizeof, htype⟩ := hp
    refine .atom (fun w hw => ?_) ?_ ?_
    · have hne : tok.literal ≠ w := by
        rintro rfl
        rw [hstart] at hw
        cases hw
      simp [Token.is, hne]
    · simp [Token.is, hsizeof]
    · simp [Context.startsType, hs, htype]
  | type => exact hp.elim
  | @enclosed w ts bra ket ho hw hc =>
    rw [List.cons_append, List.cons_append, List.append_assoc]
    exact .paren ho (hR w ts hw hp _)
  | member _ _ _ ih =>
    rw [List.append_assoc]
    exact ih hp _
  | index _ _ _ _ ih =>
    rw [List.append_assoc, List.append_assoc]
    exact ih hp.1 _

theorem Unary.interrupts {n : Nat} (h : Unary env.context env.text R n w ts)
    (hp : w.Plain env.context) (rest : List Token) : Interrupts (ts ++ rest) := by
  induction h generalizing rest with
  | core hw => exact (hw.opening hR hp rest).interrupts
  | @sigil n w ts tok s ht _ ih =>
    cases s with
    | deref =>
      intro start t
      rw [List.cons_append, TypeExpr.readSuffixes_star (by rw [Token.is_symbol ht]; decide)]
      exact ih hp rest start _
    | operator op =>
      cases op <;> exact interrupts_of_is (Token.is_symbol ht _) (Token.is_symbol ht _)
        (Token.is_symbol ht _) _
    | addressOf =>
      exact interrupts_of_is (Token.is_symbol ht _) (Token.is_symbol ht _) (Token.is_symbol ht _) _
  | sizeof ht =>
    exact interrupts_of_is (Token.is_word ht _) (Token.is_word ht _) (Token.is_word ht _) _
  | cast ho =>
    exact interrupts_of_is (Token.is_symbol ho _) (Token.is_symbol ho _) (Token.is_symbol ho _) _
  | sizeOfType hs =>
    exact interrupts_of_is (Token.is_word hs _) (Token.is_word hs _) (Token.is_word hs _) _

theorem Unary.noType {n : Nat} (h : Unary env.context env.text R n w ts)
    (hp : w.Plain env.context) (rest : List Token) : NoType env (ts ++ rest) := by
  cases h with
  | core hw => exact (hw.opening hR hp rest).noType
  | sigil ht => exact noType_of_kind (by rw [Token.kind_symbol ht]; nofun) _
  | sizeof ht hw => exact (hw.interrupts hR hp rest).noType ht
  | cast ho => exact noType_of_kind (by rw [Token.kind_symbol ho]; nofun) _
  | sizeOfType hs ho =>
    refine Interrupts.noType hs (interrupts_of_is ?_ ?_ ?_ _) <;> exact Token.is_symbol ho _

theorem Unary.prefixStep_sizeof {n : Nat} {word : Token} (hw : word.erase = .word "sizeof")
    (h : Unary env.context env.text R n w ts) (hp : w.Plain env.context) (hcast : w.isCast → n = 0)
    (rest : List Token) :
    prefixStep env word (ts ++ rest) = .mark .sizeof (ts ++ rest) [] := by
  cases h with
  | core h => exact (h.opening hR hp rest).sizeof hw
  | @sigil n w ts tok s ht =>
    refine prefixStep_sizeof_of_is hw ?_ _
    rw [Token.is_symbol ht]
    cases s with
    | operator op => cases op <;> decide
    | deref => decide
    | addressOf => decide
  | sizeof ht => exact prefixStep_sizeof_of_is hw (Token.is_word ht _) _
  | cast => cases hcast rfl
  | sizeOfType hs => exact prefixStep_sizeof_of_is hw (Token.is_word hs _) _

end

variable {sub : Reader} (hs : Reads env sub R)
include hs

theorem Core.read (h : Core env.context env.text R w ts) (hp : w.Plain env.context)
    (rest : List Token) : ∃ e, e.unplaced = w.tree env.context ∧
      readCore env sub (ts ++ rest) = readPostfix sub e rest := by
  induction h generalizing rest with
  | @number tok hk hn =>
    obtain ⟨n, hn⟩ := Option.isSome_iff_exists.1 hn
    have hatom : readAtom env sub (tok :: rest) =
        ⟨(readToken env tok).1, rest, (readToken env tok).2, false⟩ := by
      simp [readAtom, hk]
    cases n with
    | int v =>
      refine ⟨.int tok.span v false, by simp [tree, hn, Expr.unplaced], readCore_of_readAtom ?_⟩
      simp [hatom, readToken, hk, hn]
    | float bits single =>
      refine ⟨.float tok.span bits single, by simp [tree, hn, Expr.unplaced],
        readCore_of_readAtom ?_⟩
      simp [hatom, readToken, hk, hn]
  | @char tok v hk hv =>
    refine ⟨.int tok.span v true, by simp [tree, hv, Expr.unplaced], readCore_of_readAtom ?_⟩
    simp [readAtom, readToken, hk, hv]
  | @name tok e hk hsign he =>
    have hr := env.context.map_resolve tok.literal .nowhere tok.span Expr.placeless_unplaced
    rw [he] at hr
    cases he' : env.context.resolve tok.literal tok.span with
    | error d =>
      rw [he'] at hr
      cases hr
    | ok e' =>
      rw [he'] at hr
      refine ⟨e', ?_, readCore_of_readAtom ?_⟩
      · rw [tree, he]
        exact Except.ok.inj hr
      · simp [readAtom, readToken, hk, hsign, he']
  | type => exact hp.elim
  | @enclosed w ts bra ket ho hw hc =>
    obtain ⟨hend, hdetached⟩ := ends_bracket hc (.inl rfl) maxPrecedence rest
    obtain ⟨e, he, hread⟩ := hs.read hw hp (ket :: rest) hend hdetached
    refine ⟨e, he, readCore_of_readAtom ?_⟩
    have hopen : bra.is "(" = true := Token.is_symbol ho _
    have hclose : ket.is ")" = true := Token.is_symbol hc _
    simp [readAtom, Token.kind_symbol ho, hopen, hclose, hread]
  | @member w ts dot field arrow _ hd hk ih =>
    obtain ⟨e, he, hread⟩ := ih hp (dot :: field :: rest)
    have hdot : (dot.is "." || dot.is "->") = true := by
      rw [Token.is_symbol hd, Token.is_symbol hd]
      cases arrow <;> decide
    have harrow : dot.is "->" = arrow := by
      rw [Token.is_symbol hd]
      cases arrow <;> decide
    refine ⟨.member ((e.spanOr dot).join field.span) e ⟨field.span, field.literal⟩ arrow, ?_, ?_⟩
    · rw [Expr.unplaced, he, tree]
    · rw [List.append_assoc, List.cons_append, List.singleton_append, hread, readPostfix_cons,
        if_pos hdot]
      simp only [if_pos hk, harrow]
  | @index w i ts us bra ket _ ho hi hc ih =>
    obtain ⟨e, he, hread⟩ := ih hp.1 (bra :: us ++ ket :: rest)
    obtain ⟨hend, hdetached⟩ := ends_bracket hc (.inr (.inl rfl)) maxPrecedence rest
    obtain ⟨j, hj, hindex⟩ := hs.read hi hp.2 (ket :: rest) hend hdetached
    have hdot : (bra.is "." || bra.is "->") = false := by
      rw [Token.is_symbol ho, Token.is_symbol ho]
      decide
    have hopen : bra.is "[" = true := Token.is_symbol ho _
    have hclose : ket.is "]" = true := Token.is_symbol hc _
    refine ⟨.index ((e.spanOr bra).join ket.span) e j, ?_, ?_⟩
    · rw [Expr.unplaced, he, hj, tree]
    · rw [List.append_assoc, List.append_assoc, List.singleton_append, hread, List.cons_append,
        readPostfix_cons, hdot]
      simp only [Bool.false_eq_true, if_false, hopen, if_true, hindex, hclose]
      rfl

theorem Unary.read {n budget : Nat} (h : Unary env.context env.text R n w ts)
    (hp : w.Plain env.context) {marks : List Prefixed} (hn : marks.length + n ≤ budget)
    {rest : List Token} (hr : Detached rest) : ∃ e, e.unplaced = w.tree env.context ∧
      readOperand env sub budget marks (ts ++ rest) = ⟨applyAll marks e, rest, [], false⟩ := by
  -- an operator that is read goes over to the marks, so the sum stays below the budget
  have hmarks {n : Nat} {p : Prefixed} {marks : List Prefixed}
      (h : marks.length + (n + 1) ≤ budget) : (p :: marks).length + n ≤ budget := by
    rw [List.length_cons]
    omega
  induction h generalizing marks with
  | @core w ts hw =>
    obtain ⟨e, he, hread⟩ := hw.read hs hp rest
    have hopen := hw.opening (fun _ _ h => hs.noType h) hp rest
    refine ⟨e, he, ?_⟩
    generalize ts ++ rest = us at hread hopen
    cases us with
    | nil => cases hopen
    | cons tok us =>
      rw [readOperand_cons, hopen.prefixStep, hread, (PostfixRun.stop hr).eq]
  | @sigil n w ts tok s ht _ ih =>
    have hmark : simpleMark? tok = some s.mark := by
      rw [show simpleMark? tok = simpleMark? tok.erase from rfl, ht]
      cases s with
      | operator op => cases op <;> rfl
      | deref => rfl
      | addressOf => rfl
    have hstep : prefixStep env tok (ts ++ rest) = .mark s.mark (ts ++ rest) [] := by
      simp only [prefixStep, hmark]
    obtain ⟨e, he, hread⟩ := ih hp (hmarks (p := ⟨s.mark, tok⟩) hn)
    refine ⟨Prefixed.apply ⟨s.mark, tok⟩ e, ?_, ?_⟩
    · rw [tree, ← he]
      cases s <;> rfl
    · rw [List.cons_append, readOperand_mark hstep (by omega), hread]
      rfl
  | @sizeof n w ts tok ht hw hcast ih =>
    obtain ⟨e, he, hread⟩ := ih hp (hmarks (p := ⟨.sizeof, tok⟩) hn)
    refine ⟨Prefixed.apply ⟨.sizeof, tok⟩ e, ?_, ?_⟩
    · rw [tree, ← he]
      rfl
    · rw [List.cons_append, readOperand_mark
        (hw.prefixStep_sizeof (fun _ _ h => hs.noType h) ht hp hcast rest) (by omega), hread]
      rfl
  | @cast n t w ts us bra ket ho ht hc _ ih =>
    obtain ⟨e, he, hclosed⟩ := ht.readClosedType hc (ts ++ rest)
    obtain ⟨x, hx, hread⟩ := ih hp.2 (hmarks (p := ⟨.cast e, bra⟩) hn)
    have hstep := prefixStep_paren ho (ht.startsType hp.1 (ket :: (ts ++ rest)))
    rw [hclosed] at hstep
    refine ⟨Prefixed.apply ⟨.cast e, bra⟩ x, ?_, ?_⟩
    · rw [tree, ← hx, ← he]
      rfl
    · rw [List.append_assoc, List.cons_append, List.cons_append,
        readOperand_mark hstep (by omega), hread]
      rfl
  | @sizeOfType t us tok bra ket hsize ho ht hc =>
    obtain ⟨e, he, hclosed⟩ := ht.readClosedType hc rest
    have hstep : prefixStep env tok (bra :: (us ++ ket :: rest)) = .sizeOfType e rest := by
      rw [Parser.prefixStep_sizeof hsize, Token.is_symbol ho, ht.startsType hp, hclosed]
      rfl
    refine ⟨Prefixed.apply ⟨.sizeof, tok⟩ (.type e), ?_, ?_⟩
    · rw [tree, ← he]
      rfl
    · rw [List.append_assoc, List.cons_append, List.cons_append, List.singleton_append,
        readOperand_cons, hstep]
      rfl

theorem Operation.noType {budget ceiling : Nat}
    (h : Operation env.context env.text R budget ceiling w ts) (hp : w.Plain env.context)
    (rest : List Token) : NoType env (ts ++ rest) := by
  induction h generalizing rest with
  | unary hw => exact hw.noType (fun _ _ h => hs.noType h) hp rest
  | binary _ _ _ _ ih =>
    rw [List.append_assoc]
    exact ih hp.1 _
  | ternary _ _ _ _ _ _ ih =>
    rw [List.append_assoc, List.append_assoc]
    exact ih hp.1 _

theorem Operation.ne_nil {budget ceiling : Nat}
    (h : Operation env.context env.text R budget ceiling w ts) (hp : w.Plain env.context) :
    ts ≠ [] := by
  cases h with
  | unary hw =>
    rintro rfl
    obtain ⟨t, tok, rest, -, hread⟩ :=
      hw.interrupts (fun _ _ h => hs.noType h) hp [] 0 (.named .nowhere [] .zero)
    cases hread
  | binary => simp
  | ternary => simp

theorem Operation.read {budget ceiling : Nat}
    (h : Operation env.context env.text R budget ceiling w ts) (hp : w.Plain env.context)
    {outer : Nat} (ho : ceiling ≤ outer) {rest : List Token} (he : Ends (closing ceiling) rest)
    (hr : Detached rest) : ∃ e, e.unplaced = w.tree env.context ∧
      readOperation env sub budget outer (ts ++ rest) = climb env sub outer e rest := by
  induction h generalizing rest with
  | @unary n _ _ _ hw hn =>
    have hn : ([] : List Prefixed).length + n ≤ budget := by simpa using hn
    obtain ⟨e, hx, hread⟩ := hw.read hs hp hn hr
    refine ⟨e, hx, ?_⟩
    rw [readOperation, hread]
    rfl
  | @binary ceiling op x y ts us tok hc _ ht hy ih =>
    have hb := op.precedence_bounds
    have hlast : op.precedence - 1 ≤ closing ceiling := by
      rw [closing]
      split <;> omega
    have hinfix : op.precedence < ternaryPrecedence := Nat.lt_succ_of_le hb.2
    have hleft : closing op.precedence < op.precedence := by
      rw [closing, if_pos hinfix]
      omega
    obtain ⟨y', hy', hright⟩ := hs.read hy hp.2 rest (he.mono hlast) hr
    obtain ⟨hend, hdetached⟩ := ends_operator ht hleft (us ++ rest)
    obtain ⟨x', hx', hread⟩ := ih hp.1 (Nat.le_trans hc ho) hend hdetached
    refine ⟨.binary ((x'.spanOr tok).join (y'.spanOr tok)) op x' y', ?_, ?_⟩
    · rw [Expr.unplaced, hx', hy', tree]
    · rw [List.append_assoc, List.cons_append, hread,
        climb_operator ht (Nat.le_trans hc ho) ?_ hright]
      exact List.append_ne_nil_of_left_ne_nil (hs.ne_nil hy hp.2) rest
  | @ternary ceiling x y z ts us vs mark colon hc _ hm hy hcolon hz ih =>
    have hlast : ternaryPrecedence ≤ closing ceiling := by
      rw [closing, if_neg (Nat.not_lt.2 hc)]
      exact hc
    obtain ⟨hend, hdetached⟩ :=
      ends_bracket hcolon (.inr (.inr rfl)) maxPrecedence (vs ++ rest)
    obtain ⟨y', hy', hyes⟩ := hs.read hy hp.2.1 (colon :: (vs ++ rest)) hend hdetached
    obtain ⟨z', hz', hno⟩ := hs.read hz hp.2.2 rest (he.mono hlast) hr
    have hleft : closing (ternaryPrecedence - 1) < ternaryPrecedence := by decide
    obtain ⟨hend, hdetached⟩ := ends_mark hm hleft (us ++ colon :: (vs ++ rest))
    have hle := Nat.le_trans (Nat.pred_le ternaryPrecedence) (Nat.le_trans hc ho)
    obtain ⟨x', hx', hread⟩ := ih hp.1 hle hend hdetached
    refine ⟨.ternary ((x'.spanOr mark).join (z'.spanOr colon)) x' y' z', ?_, ?_⟩
    · rw [Expr.unplaced, hx', hy', hz', tree]
    · rw [List.append_assoc, List.append_assoc, List.cons_append, List.cons_append, hread,
        climb_mark hm (Nat.le_trans hc ho) hyes hcolon ?_ hno]
      exact List.append_ne_nil_of_left_ne_nil (hs.ne_nil hz hp.2.2) rest

end Written

namespace Parser

theorem reads_reader (env : Env) (budget : Nat) :
    Reads env (reader env budget) (Written.Renders env.context env.text budget) := by
  induction budget with
  | zero => exact ⟨fun h => h.elim, fun h => h.elim, fun h => h.elim⟩
  | succ budget ih =>
    refine ⟨fun h hp => Written.Operation.ne_nil ih h hp,
      fun h hp => Written.Operation.noType ih h hp, fun {ceiling w ts} h hp rest he hr => ?_⟩
    have hle : closing ceiling ≤ ceiling := by
      rw [closing]
      split <;> omega
    obtain ⟨e, hx, hread⟩ := Written.Operation.read ih h hp (Nat.le_refl _) (he.mono hle) hr
    refine ⟨e, hx, ?_⟩
    rw [reader_succ, hread, (ClimbRun.stop he).eq]

/-- What is written in plain names is read as its tree, with any parentheses the grammar allows. -/
theorem parse_of_renders {c : Context} {text : Text} {w : Written} {ts : List Token}
    (h : w.Renders c text c.depthLimit maxPrecedence ts) (hp : w.Plain c) :
    (parse c text ts).1.unplaced = w.tree c ∧ (parse c text ts).2 = [] := by
  have hreads := reads_reader ⟨c, text⟩ c.depthLimit
  obtain ⟨e, he, hread⟩ := hreads.read h hp [] trivial trivial
  rw [List.append_nil] at hread
  have hne : ts.isEmpty = false := List.isEmpty_eq_false_iff.2 (hreads.ne_nil h hp)
  simp only [parse, hne, Bool.false_eq_true, if_false, hread]
  exact ⟨he, trivial⟩

theorem parse_token {c : Context} (text : Text) {tok : Token}
    (his : ∀ w : Text, w.head?.any Lexer.isIdentifierStart = false → tok.is w = false)
    (hsizeof : tok.is "sizeof" = false) (hsign : TypeExpr.isSignWord tok = false) :
    parse c text [tok] = readToken ⟨c, text⟩ tok := by
  obtain ⟨⟨e, ds⟩, htoken⟩ : ∃ r, readToken ⟨c, text⟩ tok = r := ⟨_, rfl⟩
  obtain ⟨budget, hb⟩ : ∃ budget, c.depthLimit = budget + 1 := by
    refine ⟨c.depthLimit - 1, ?_⟩
    have hpos : 1 ≤ c.depthLimit := by
      rw [Context.depthLimit]
      split
      · omega
      · decide
    omega
  have hcore : readCore ⟨c, text⟩ (reader ⟨c, text⟩ budget) [tok] = ⟨e, [], ds, false⟩ := by
    have hatom : readAtom ⟨c, text⟩ (reader ⟨c, text⟩ budget) [tok] = ⟨e, [], ds, false⟩ := by
      simp [readAtom, his "(" (by decide), hsign, htoken]
    rw [readCore, hatom, readPostfix, List.append_nil, Bool.or_self]
  have hread : (reader ⟨c, text⟩ c.depthLimit).read maxPrecedence [tok] = ⟨e, [], ds, false⟩ := by
    rw [hb, reader_succ, readOperation, readOperand_cons, prefixStep_eq_none his hsizeof, hcore]
    simp only [applyAll, List.foldl_nil, climb, List.append_nil, Bool.or_self]
  simp only [parse, List.isEmpty_cons, Bool.false_eq_true, if_false, hread, htoken]

/-- A text of one word is read as what the word stands for, even if it names a type as well. -/
theorem parse_word {c : Context} (text : Text) (tok : Token) (hk : tok.kind = .identifier)
    (hstarts : tok.literal.head?.any Lexer.isIdentifierStart = true)
    (hword : tok.literal ∉ (["sizeof", "signed", "unsigned"] : List Text)) {e : Expr}
    (he : c.resolve tok.literal tok.span = .ok e) : parse c text [tok] = (e, []) := by
  have hie (w : Text) : tok.is w = (tok.literal == w) :=
    Token.is_word (by rw [Token.erase, hk]; rfl) w
  have hne {w : Text} (hw : w ∈ (["sizeof", "signed", "unsigned"] : List Text)) :
      tok.is w = false := by
    rw [hie, beq_eq_false_iff_ne]
    rintro rfl
    exact hword hw
  have his : ∀ w : Text, w.head?.any Lexer.isIdentifierStart = false → tok.is w = false := by
    intro w hw
    rw [hie, beq_eq_false_iff_ne]
    rintro rfl
    rw [hstarts] at hw
    cases hw
  have hsign : TypeExpr.isSignWord tok = false := by
    rw [TypeExpr.isSignWord, hne (by decide), hne (by decide)]
    rfl
  rw [parse_token text his (hne (by decide)) hsign]
  simp only [readToken, hk, he]

end Parser

end WatchExpr
