import WatchExpr.Proofs.Expression.Binding
import WatchExpr.Proofs.Expression.Runs

namespace WatchExpr

def Token.erase (t : Token) : Token := { t with start := 0 }

namespace Token

@[simp] theorem erase_kind (t : Token) : t.erase.kind = t.kind := rfl

@[simp] theorem erase_literal (t : Token) : t.erase.literal = t.literal := rfl

@[simp] theorem erase_is (t : Token) (word : Text) : t.erase.is word = t.is word := rfl

end Token

def Span.nowhere : Span := ⟨0, 0⟩

/-- A written type without places and wording. -/
def TypeExpr.erase : TypeExpr → TypeExpr
  | named _ _ k => named .nowhere [] k
  | pointer _ elem => pointer .nowhere elem.erase
  | array _ elem count => array .nowhere elem.erase count

def Expr.erase : Expr → Expr
  | missing => missing
  | int _ v isChar => int .nowhere v isChar
  | float _ bits isSingle => float .nowhere bits isSingle
  | leaf _ name code k mode => leaf .nowhere name code k mode
  | .type t => .type t.erase
  | unary _ op x => unary .nowhere op x.erase
  | binary _ op x y => binary .nowhere op x.erase y.erase
  | ternary _ c yes no => ternary .nowhere c.erase yes.erase no.erase
  | cast _ t x => cast .nowhere t.erase x.erase
  | sizeof _ x => sizeof .nowhere x.erase
  | member _ x field arrow => member .nowhere x.erase ⟨.nowhere, field.name⟩ arrow
  | index _ x i => index .nowhere x.erase i.erase
  | addressOf _ x => addressOf .nowhere x.erase
  | deref _ x => deref .nowhere x.erase

def Diagnostic.complaints (ds : List Diagnostic) : List Complaint := ds.map (·.complaint)

namespace Diagnostic

@[simp] theorem complaints_nil : complaints [] = [] := rfl

@[simp] theorem complaints_cons (d : Diagnostic) (ds : List Diagnostic) :
    complaints (d :: ds) = d.complaint :: complaints ds := rfl

@[simp] theorem complaints_append (ds ds' : List Diagnostic) :
    complaints (ds ++ ds') = complaints ds ++ complaints ds' := List.map_append

@[simp] theorem complaints_eq_nil {ds : List Diagnostic} : complaints ds = [] ↔ ds = [] :=
  List.map_eq_nil_iff

end Diagnostic

namespace Context

/-- Names mean the same in two contexts. -/
structure Agrees (c c' : Context) : Prop where
  resolve : ∀ name span, c'.resolve name span = c.resolve name span
  typeNamed? : ∀ name, c'.typeNamed? name = c.typeNamed? name
  resolver : c'.resolver = c.resolver
  depthLimit : c'.depthLimit = c.depthLimit

theorem Agrees.refl (c : Context) : c.Agrees c := ⟨fun _ _ => rfl, fun _ => rfl, rfl, rfl⟩

theorem Agrees.symm {c c' : Context} (h : c.Agrees c') : c'.Agrees c where
  resolve name span := (h.resolve name span).symm
  typeNamed? name := (h.typeNamed? name).symm
  resolver := h.resolver.symm
  depthLimit := h.depthLimit.symm

theorem Agrees.startsType {c c' : Context} (h : c.Agrees c') (ts : List Token) :
    c'.startsType (ts.map Token.erase) = c.startsType ts := by
  cases ts with
  | nil => rfl
  | cons tok rest =>
    rw [List.map_cons, Context.startsType, Context.startsType, Token.erase_kind,
      Token.erase_literal, h.typeNamed?, h.resolver]
    rfl

end Context

/-- A function that does not look at the places of names. -/
structure Expr.Placeless (f : Expr → Expr) : Prop where
  leaf : ∀ span span' name code k mode,
    f (.leaf span' name code k mode) = f (.leaf span name code k mode)
  member : ∀ span span' name code k mode field,
    f (.member span' (.leaf span' name code k mode) ⟨span', field⟩ true) =
      f (.member span (.leaf span name code k mode) ⟨span, field⟩ true)
  type : ∀ span span' name k, f (.type (.named span' name k)) = f (.type (.named span name k))

theorem Expr.placeless_erase : Placeless erase := by
  constructor <;> intros <;> rfl

namespace Context

section
variable {f : Expr → Expr} (hf : Expr.Placeless f) (c : Context) (name : Text) (sym : Symbol)
  (span span' : Span)
include hf

theorem map_localLeaf : (c.localLeaf sym span').map f = (c.localLeaf sym span).map f := by
  simp only [localLeaf]
  split
  all_goals first | rfl | exact congrArg Except.ok (hf.leaf ..)

theorem map_baseLeaf (base : Base) (mode : Mode) :
    (baseLeaf base mode sym span').map f = (baseLeaf base mode sym span).map f := by
  simp only [baseLeaf]
  split
  · rfl
  · exact congrArg Except.ok (hf.leaf ..)

theorem map_registerLeaf (offset size : Nat) :
    (registerLeaf name span' offset size).map f = (registerLeaf name span offset size).map f := by
  simp only [registerLeaf]
  split
  all_goals first | rfl | exact congrArg Except.ok (hf.leaf ..)

theorem map_read (b : Binding) :
    (b.read c name span').map f = (b.read c name span).map f := by
  cases b with
  | localSymbol sym => exact map_localLeaf hf c sym span span'
  | memberOfThis this =>
    simp only [Binding.read, localLeaf]
    split
    all_goals first | rfl | exact congrArg Except.ok (hf.member ..)
  | register offset size => exact map_registerLeaf hf name span span' offset size
  | outerSymbol base mode sym => exact map_baseLeaf hf sym span span' base mode
  | type k => exact congrArg Except.ok (hf.type ..)
  | unknown => rfl

end

section
variable (c : Context) (name : Text) (span span' : Span)

theorem map_resolve {f : Expr → Expr} (hf : Expr.Placeless f) :
    (c.resolve name span').map f = (c.resolve name span).map f := by
  obtain ⟨b, -, hb⟩ := c.exists_binding name
  rw [hb, hb]
  exact map_read hf c name span span' b

/-- What a name is bound to before types are looked at. -/
def bound? (span : Span) : Option (Except Complaint Expr) :=
  (c.resolver.bind fun r =>
    (c.memberOfThis? r name span).or
      ((r.localSymbol? name).map fun sym => c.localLeaf sym span)).or
  ((c.registerNamed? name span).or (c.resolver.bind fun r => outerNamed? r name span))

theorem resolve_eq_match :
    c.resolve name span = match c.bound? name span with
      | some result => result
      | none => match c.typeNamed? name with
        | some k => .ok (.type (.named span name k))
        | none => .error (.unknownIdentifier name) :=
  rfl

theorem resolve_eq_getD :
    c.resolve name span = (c.bound? name span).getD
      ((c.typeNamed? name).elim (.error (.unknownIdentifier name)) fun k =>
        .ok (.type (.named span name k))) := by
  rw [resolve_eq_match]
  cases c.bound? name span with
  | some result => rfl
  | none => cases c.typeNamed? name <;> rfl

end

end Context

/-- The same type is read, and the same tokens are left. -/
structure TypeParse.Follows (p p' : TypeParse) : Prop where
  type : p'.type.map TypeExpr.erase = p.type.map TypeExpr.erase
  rest : p'.rest = p.rest.map Token.erase
  complaints : Diagnostic.complaints p'.diagnostics = Diagnostic.complaints p.diagnostics

/-- The same expression is read, and the same tokens are left. -/
structure Parsed.Follows (p p' : Parsed) : Prop where
  expr : p'.expr.erase = p.expr.erase
  rest : p'.rest = p.rest.map Token.erase
  complaints : Diagnostic.complaints p'.diagnostics = Diagnostic.complaints p.diagnostics
  tooDeep : p'.tooDeep = p.tooDeep

namespace Parsed.Follows

variable {p p' : Parsed} {e e' : Expr} {offset offset' : Nat} {c : Complaint}

theorem eq_mk (h : p.Follows p') :
    ∃ e' ds', p' = ⟨e', p.rest.map Token.erase, ds', p.tooDeep⟩ ∧ e'.erase = p.expr.erase ∧
      Diagnostic.complaints ds' = Diagnostic.complaints p.diagnostics := by
  obtain ⟨he, hr, hd, ht⟩ := h
  refine ⟨p'.expr, p'.diagnostics, ?_, he, hd⟩
  rw [← hr, ← ht]

theorem after {ds ds' : List Diagnostic} (h : p.Follows p')
    (hd : Diagnostic.complaints ds' = Diagnostic.complaints ds) :
    (Parser.after ds p).Follows (Parser.after ds' p') :=
  ⟨h.expr, h.rest, by simp [Parser.after, hd, h.complaints], h.tooDeep⟩

theorem unclosed (h : p.Follows p') (he : e'.erase = e.erase) :
    Parsed.Follows
      { p with
        expr := e
        diagnostics := if p.tooDeep then p.diagnostics else p.diagnostics ++ [⟨offset, c⟩] }
      { p' with
        expr := e'
        diagnostics :=
          if p'.tooDeep then p'.diagnostics else p'.diagnostics ++ [⟨offset', c⟩] } := by
  refine ⟨he, h.rest, ?_, h.tooDeep⟩
  simp only [h.tooDeep]
  split <;> simp [h.complaints]

theorem rest_cons {tok : Token} {after : List Token} (h : p.Follows p')
    (hr : p.rest = tok :: after) : p'.rest = tok.erase :: after.map Token.erase := by
  rw [h.rest, hr, List.map_cons]

theorem not_is {word : Text} (h : p.Follows p')
    (hno : ∀ tok after, p.rest = tok :: after → ¬ tok.is word) :
    ∀ tok after, p'.rest = tok :: after → ¬ tok.is word := by
  intro tok after hr
  rw [h.rest] at hr
  obtain ⟨tok, after, hp, rfl, rfl⟩ := List.map_eq_cons_iff.1 hr
  exact hno tok after hp

end Parsed.Follows

namespace TypeExpr

theorem readSuffixes_star {start : Nat} {t : TypeExpr} {tok : Token} (h : tok.is "*")
    (rest : List Token) :
    readSuffixes start t (tok :: rest) =
      readSuffixes start (.pointer ⟨start, tok.stop⟩ t) rest := by
  rw [readSuffixes.eq_def]
  simp only [h, if_true]

theorem follows_readSuffixes {start start' : Nat} {t t' : TypeExpr} (ht : t'.erase = t.erase)
    (ts : List Token) :
    (readSuffixes start t ts).Follows (readSuffixes start' t' (ts.map Token.erase)) := by
  fun_induction readSuffixes start t ts generalizing t' with
  | case1 t => exact ⟨congrArg some ht, rfl, rfl⟩
  | case2 t tok rest hstar ih =>
    have hstar : tok.erase.is "*" := hstar
    rw [List.map_cons, readSuffixes_star hstar]
    exact ih (congrArg (TypeExpr.pointer .nowhere) ht)
  | case3 t tok hstar hopen n close after hn count hc ih =>
    rw [List.map_cons, List.map_cons, List.map_cons, readSuffixes]
    simp only [Token.erase_is, Token.erase_kind, Token.erase_literal, hstar, hopen, hn, hc,
      and_self, if_true]
    exact ih (congrArg (TypeExpr.array .nowhere · count) ht)
  | case4 t tok hstar hopen n close after hn hc =>
    rw [List.map_cons, List.map_cons, List.map_cons, readSuffixes]
    simp only [Token.erase_is, Token.erase_kind, Token.erase_literal, hstar, hopen, hn, hc,
      and_self, if_true]
    exact ⟨rfl, rfl, rfl⟩
  | case5 t tok hstar hopen n close after hn =>
    rw [List.map_cons, List.map_cons, List.map_cons, readSuffixes]
    simp only [Token.erase_is, Token.erase_kind, hstar, hopen, hn, if_true, if_false]
    exact ⟨congrArg some ht, rfl, rfl⟩
  | case6 t tok rest hstar hopen hshape =>
    rw [List.map_cons, readSuffixes.eq_def]
    simp only [Token.erase_is, hstar, hopen, if_true]
    cases rest with
    | nil => exact ⟨congrArg some ht, rfl, rfl⟩
    | cons n rest =>
      cases rest with
      | nil => exact ⟨congrArg some ht, rfl, rfl⟩
      | cons close after => exact (hshape n close after rfl).elim
  | case7 t tok rest hstar hopen =>
    rw [List.map_cons, readSuffixes.eq_def]
    simp only [Token.erase_is, hstar, hopen]
    exact ⟨congrArg some ht, rfl, rfl⟩

theorem erase_readSigned (text text' : Text) (tok : Token) (ts : List Token) :
    (readSigned text' tok.erase (ts.map Token.erase)).1.erase = (readSigned text tok ts).1.erase ∧
      (readSigned text' tok.erase (ts.map Token.erase)).2 =
        (readSigned text tok ts).2.map Token.erase := by
  cases ts with
  | nil => exact ⟨rfl, rfl⟩
  | cons next after =>
    obtain ⟨word, hw⟩ : ∃ word,
        (if next.kind = .identifier then builtinType? next.literal else none) = word := ⟨_, rfl⟩
    have hw' : (if next.erase.kind = .identifier then builtinType? next.erase.literal else none) =
        word := hw
    simp only [List.map_cons, readSigned, hw, hw']
    cases word with
    | none => exact ⟨rfl, rfl⟩
    | some k =>
      by_cases hk : k.group.isInteger
      · simp only [if_pos hk]
        exact ⟨rfl, trivial⟩
      · simp only [if_neg hk]
        exact ⟨rfl, rfl⟩

theorem follows_read {c c' : Context} (h : c.Agrees c') (text text' : Text) (ts : List Token) :
    (read c text ts).Follows (read c' text' (ts.map Token.erase)) := by
  cases ts with
  | nil => exact ⟨rfl, rfl, rfl⟩
  | cons tok rest =>
    have hs := erase_readSigned text text' tok rest
    simp only [List.map_cons, read, Token.erase_kind, Token.erase_literal, h.typeNamed?,
      show isSignWord tok.erase = isSignWord tok from rfl]
    split
    · rw [hs.2]
      exact follows_readSuffixes hs.1 _
    · split
      · split
        · rename_i k hk
          have hnamed : (named tok.erase.span tok.literal k).erase =
              (named tok.span tok.literal k).erase := rfl
          exact follows_readSuffixes hnamed rest
        · exact ⟨rfl, rfl, rfl⟩
      · exact ⟨rfl, rfl, rfl⟩

end TypeExpr

namespace Parser

variable {env env' : Env} {sub sub' : Reader}

/-- The same is read from tokens wherever they stand. -/
def Reader.Follows (sub sub' : Reader) : Prop :=
  ∀ ceiling ts, (sub.read ceiling ts).Follows (sub'.read ceiling (ts.map Token.erase))

theorem follows_readToken (h : env.context.Agrees env'.context) (tok : Token) :
    (readToken env' tok.erase).1.erase = (readToken env tok).1.erase ∧
      Diagnostic.complaints (readToken env' tok.erase).2 =
        Diagnostic.complaints (readToken env tok).2 := by
  simp only [readToken, Token.erase_kind, Token.erase_literal, h.resolve]
  split
  · have hr := env.context.map_resolve tok.literal tok.span tok.erase.span Expr.placeless_erase
    split
    · rename_i e he
      rw [he] at hr
      split
      · rename_i e' he'
        rw [he'] at hr
        exact ⟨Except.ok.inj hr, rfl⟩
      · rename_i d hd
        rw [hd] at hr
        cases hr
    · rename_i d hd
      rw [hd] at hr
      split
      · rename_i e' he'
        rw [he'] at hr
        cases hr
      · rename_i d' hd'
        rw [hd'] at hr
        cases hr
        exact ⟨rfl, rfl⟩
  · split <;> exact ⟨rfl, rfl⟩
  · split
    · rename_i v more hv
      cases more <;> exact ⟨rfl, rfl⟩
    · exact ⟨rfl, rfl⟩
  all_goals exact ⟨rfl, rfl⟩

theorem elim_map_erase {t t' : Option TypeExpr}
    (h : t'.map TypeExpr.erase = t.map TypeExpr.erase) :
    (t'.elim Expr.missing .type).erase = (t.elim Expr.missing .type).erase := by
  cases t with
  | none =>
    rw [Option.map_eq_none_iff.1 h]
  | some t =>
    obtain ⟨t', rfl, ht⟩ := Option.map_eq_some_iff.1 h
    exact congrArg Expr.type ht

theorem follows_read (hs : sub.Follows sub') {ceiling : Nat} {ts : List Token} {p : Parsed}
    (hp : sub.read ceiling ts = p) : p.Follows (sub'.read ceiling (ts.map Token.erase)) :=
  hp ▸ hs ceiling ts

theorem follows_readAtom (h : env.context.Agrees env'.context) (hs : sub.Follows sub')
    {ts : List Token} {p : Parsed} (hr : AtomRun env sub ts p) :
    ∃ p', AtomRun env' sub' (ts.map Token.erase) p' ∧ p.Follows p' := by
  cases hr with
  | nil => exact ⟨_, .nil, rfl, rfl, rfl, rfl⟩
  | closed hopen hi hr hclose =>
    have hi' := follows_read hs hi
    exact ⟨_, .closed hopen rfl (hi'.rest_cons hr) hclose, hi'.expr, rfl, hi'.complaints,
      hi'.tooDeep⟩
  | unclosed hopen hi hclose =>
    have hi' := follows_read hs hi
    exact ⟨_, .unclosed hopen rfl (hi'.not_is hclose), hi'.unclosed hi'.expr⟩
  | @written tok rest p hw hp =>
    have ht := hp ▸ TypeExpr.follows_read h env.text env'.text (tok :: rest)
    exact ⟨_, .written hw rfl, elim_map_erase ht.type, ht.rest, ht.complaints, rfl⟩
  | @token tok rest hopen hw =>
    have ht := follows_readToken h tok
    exact ⟨_, .token hopen hw, ht.1, rfl, ht.2, rfl⟩

theorem follows_readPostfix (hs : sub.Follows sub') {x x' : Expr} (hx : x'.erase = x.erase)
    {ts : List Token} {p : Parsed} (hr : PostfixRun sub x ts p) :
    ∃ p', PostfixRun sub' x' (ts.map Token.erase) p' ∧ p.Follows p' := by
  induction hr generalizing x' with
  | @stop x ts hstop =>
    have hstop' : Detached (ts.map Token.erase) := by
      cases ts with
      | nil => trivial
      | cons tok rest => exact hstop
    exact ⟨_, .stop hstop', hx, rfl, rfl, rfl⟩
  | noName hdot hname =>
    refine ⟨_, .noName hdot fun name after hr => ?_, hx, rfl, rfl, rfl⟩
    obtain ⟨name, after, rfl, rfl, rfl⟩ := List.map_eq_cons_iff.1 hr
    exact hname name after rfl
  | @member x tok name rest p hdot hname _ ih =>
    have htree (span : Span) : (Expr.member span x' ⟨name.erase.span, name.literal⟩
        (tok.is "->")).erase = (Expr.member ((x.spanOr tok).join name.span) x
          ⟨name.span, name.literal⟩ (tok.is "->")).erase := by
      simp only [Expr.erase, hx]
    obtain ⟨p', hrun, hp⟩ := ih (htree ((x'.spanOr tok.erase).join name.erase.span))
    exact ⟨p', .member hdot hname hrun, hp⟩
  | unclosed hdot hopen hi hclose =>
    have hi' := follows_read hs hi
    refine ⟨_, .unclosed hdot hopen rfl (hi'.not_is hclose), hi'.unclosed ?_⟩
    simp only [Expr.erase, hx, hi'.expr]
  | @index x tok close rest after i p hdot hopen hi hr hclose _ ih =>
    have hi' := follows_read hs hi
    have htree (span : Span) :
        (Expr.index span x' (sub'.read maxPrecedence (rest.map Token.erase)).expr).erase =
          (Expr.index ((x.spanOr tok).join close.span) x i.expr).erase := by
      simp only [Expr.erase, hx, hi'.expr]
    obtain ⟨p', hrun, hp⟩ := ih (htree ((x'.spanOr tok.erase).join close.erase.span))
    exact ⟨_, .index hdot hopen rfl (hi'.rest_cons hr) hclose hrun, hp.after hi'.complaints⟩

/-- A prefix operator without the place of a type. -/
def Mark.erase : Mark → Mark
  | cast t => cast t.erase
  | m => m

theorem erase_apply {p p' : Prefixed} {x x' : Expr} (hp : p'.mark.erase = p.mark.erase)
    (hx : x'.erase = x.erase) : (p'.apply x').erase = (p.apply x).erase := by
  obtain ⟨m, tok⟩ := p
  obtain ⟨m', tok'⟩ := p'
  cases m <;> cases m' <;> simp_all [Prefixed.apply, Expr.erase, Mark.erase]

theorem follows_readClosedType (h : env.context.Agrees env'.context) (ts : List Token) :
    match readClosedType env ts with
    | .ok (t, rest) => ∃ t', readClosedType env' (ts.map Token.erase) =
        .ok (t', rest.map Token.erase) ∧ t'.erase = t.erase
    | .error ds => ∃ ds', readClosedType env' (ts.map Token.erase) = .error ds' ∧
        Diagnostic.complaints ds' = Diagnostic.complaints ds := by
  obtain ⟨ht, hr, hd⟩ := TypeExpr.follows_read h env.text env'.text ts
  simp only [readClosedType, hr]
  generalize TypeExpr.read env.context env.text ts = p at ht hd
  generalize TypeExpr.read env'.context env'.text (ts.map Token.erase) = p' at ht hd
  obtain ⟨t, rest, ds⟩ := p
  obtain ⟨t', rest', ds'⟩ := p'
  cases t with
  | none =>
    cases Option.map_eq_none_iff.1 ht
    exact ⟨ds', rfl, hd⟩
  | some t =>
    obtain ⟨t', rfl, he⟩ := Option.map_eq_some_iff.1 ht
    cases rest with
    | nil => exact ⟨ds', rfl, hd⟩
    | cons close rest =>
      simp only [List.map_cons, Token.erase_is]
      by_cases hclose : close.is ")"
      · simp only [hclose, if_true]
        exact ⟨t', rfl, he⟩
      · simp only [hclose]
        exact ⟨ds', rfl, hd⟩

inductive PrefixStep.Follows : PrefixStep → PrefixStep → Prop
  | none : Follows .none .none
  | mark {m m' : Mark} {rest : List Token} {ds ds' : List Diagnostic} (hm : m'.erase = m.erase)
      (hd : Diagnostic.complaints ds' = Diagnostic.complaints ds) :
      Follows (.mark m rest ds) (.mark m' (rest.map Token.erase) ds')
  | sizeOfType {t t' : TypeExpr} {rest : List Token} (ht : t'.erase = t.erase) :
      Follows (.sizeOfType t rest) (.sizeOfType t' (rest.map Token.erase))

theorem follows_prefixStep (h : env.context.Agrees env'.context) (tok : Token) (rest : List Token) :
    (prefixStep env tok rest).Follows (prefixStep env' tok.erase (rest.map Token.erase)) := by
  have hm : simpleMark? tok.erase = simpleMark? tok := rfl
  simp only [prefixStep, hm, Token.erase_kind, Token.erase_is]
  cases simpleMark? tok with
  | some m => exact .mark rfl rfl
  | none =>
    by_cases hsizeof : tok.kind = .identifier ∧ tok.is "sizeof"
    · simp only [hsizeof]
      cases rest with
      | nil => exact .mark rfl rfl
      | cons paren inner =>
        simp only [List.map_cons, Token.erase_is, h.startsType]
        by_cases ht : (paren.is "(" && env.context.startsType inner) = true
        · simp only [ht, if_true]
          have hc := follows_readClosedType h inner
          generalize readClosedType env inner = closed at hc ⊢
          cases closed with
          | ok p =>
            obtain ⟨t', hok, ht'⟩ := hc
            simp only [hok]
            exact .sizeOfType ht'
          | error ds =>
            obtain ⟨ds', herr, hd⟩ := hc
            simp only [herr]
            exact .mark rfl hd
        · simp only [ht]
          exact .mark rfl rfl
    · simp only [hsizeof, if_false, h.startsType]
      by_cases ht : (tok.is "(" && env.context.startsType rest) = true
      · simp only [ht, if_true]
        have hc := follows_readClosedType h rest
        generalize readClosedType env rest = closed at hc ⊢
        cases closed with
        | ok p =>
          obtain ⟨t', hok, ht'⟩ := hc
          simp only [hok]
          exact .mark (congrArg Mark.cast ht') rfl
        | error ds =>
          obtain ⟨ds', herr, -⟩ := hc
          simp only [herr]
          exact .none
      · simp only [ht]
        exact .none

theorem follows_prefixStep_mark (h : env.context.Agrees env'.context) {tok : Token}
    {rest after : List Token} {m : Mark} {ds : List Diagnostic}
    (hstep : prefixStep env tok rest = .mark m after ds) :
    ∃ m' ds', prefixStep env' tok.erase (rest.map Token.erase) =
      .mark m' (after.map Token.erase) ds' ∧ m'.erase = m.erase ∧
        Diagnostic.complaints ds' = Diagnostic.complaints ds := by
  have hp := follows_prefixStep h tok rest
  rw [hstep] at hp
  generalize prefixStep env' tok.erase (rest.map Token.erase) = step' at hp ⊢
  cases hp with
  | mark hm hd => exact ⟨_, _, rfl, hm, hd⟩

/-- The operators of some prefixes without places. -/
def marksOf (ps : List Prefixed) : List Mark := ps.map fun p => p.mark.erase

theorem marksOf_cons {m m' : Mark} {ps ps' : List Prefixed} (hm : m'.erase = m.erase)
    (hp : marksOf ps' = marksOf ps) (tok tok' : Token) :
    marksOf (⟨m', tok'⟩ :: ps') = marksOf (⟨m, tok⟩ :: ps) := by
  simp only [marksOf, List.map_cons, hm] at hp ⊢
  rw [hp]

theorem length_marksOf {ps ps' : List Prefixed} (hp : marksOf ps' = marksOf ps) :
    ps'.length = ps.length := by
  simpa only [marksOf, List.length_map] using congrArg List.length hp

theorem erase_applyAll {ps ps' : List Prefixed} (hp : marksOf ps' = marksOf ps) {x x' : Expr}
    (hx : x'.erase = x.erase) : (applyAll ps' x').erase = (applyAll ps x).erase := by
  induction ps generalizing ps' x x' with
  | nil =>
    rw [List.map_eq_nil_iff.1 hp]
    exact hx
  | cons p ps ih =>
    obtain ⟨p', qs, rfl, hm, hq⟩ := List.map_eq_cons_iff.1 hp
    exact ih hq (erase_apply hm hx)

theorem follows_readOperand (h : env.context.Agrees env'.context) (hs : sub.Follows sub')
    {budget : Nat} {marks marks' : List Prefixed} (hm : marksOf marks' = marksOf marks)
    {ts : List Token} {p : Parsed} (hr : OperandRun env sub budget marks ts p) :
    ∃ p', OperandRun env' sub' budget marks' (ts.map Token.erase) p' ∧ p.Follows p' := by
  induction hr generalizing marks' with
  | core hstep ha hf =>
    obtain ⟨atom', ha', hat⟩ := follows_readAtom h hs ha
    obtain ⟨full', hf', hft⟩ := follows_readPostfix hs hat.expr hf
    rw [← hat.rest] at hf'
    refine ⟨_, .core (fun tok rest hts => ?_) ha' hf', erase_applyAll hm hft.expr, hft.rest,
      by simp [hat.complaints, hft.complaints], by simp only [hat.tooDeep, hft.tooDeep]⟩
    obtain ⟨tok, rest, rfl, rfl, rfl⟩ := List.map_eq_cons_iff.1 hts
    have hp := follows_prefixStep h tok rest
    rw [hstep tok rest rfl] at hp
    generalize prefixStep env' tok.erase (rest.map Token.erase) = step' at hp
    cases hp
    rfl
  | @sizeOfType marks tok rest after t hstep =>
    have hp := follows_prefixStep h tok rest
    rw [hstep] at hp
    generalize hstep' : prefixStep env' tok.erase (rest.map Token.erase) = step' at hp
    cases hp with
    | sizeOfType ht =>
      exact ⟨_, .sizeOfType hstep', erase_applyAll (marksOf_cons rfl hm _ _)
        (congrArg Expr.type ht), rfl, rfl, rfl⟩
  | tooDeep hstep hb =>
    obtain ⟨m', ds', hstep', -, hd⟩ := follows_prefixStep_mark h hstep
    exact ⟨_, .tooDeep hstep' (length_marksOf hm ▸ hb), rfl, rfl, by simp [hd], rfl⟩
  | @mark marks tok rest after m ds p hstep hb _ ih =>
    obtain ⟨m', ds', hstep', hm', hd⟩ := follows_prefixStep_mark h hstep
    obtain ⟨p', hrun, hp⟩ := ih (marksOf_cons hm' hm tok tok.erase)
    exact ⟨_, .mark hstep' (length_marksOf hm ▸ hb) hrun, hp.after hd⟩

theorem follows_climb (hs : sub.Follows sub') {ceiling : Nat} {left left' : Expr}
    (hl : left'.erase = left.erase) {ts : List Token} {p : Parsed}
    (hr : ClimbRun env sub ceiling left ts p) :
    ∃ p', ClimbRun env' sub' ceiling left' (ts.map Token.erase) p' ∧ p.Follows p' := by
  induction hr generalizing left' with
  | @stop left ts hstop =>
    have hstop' : Ends ceiling (ts.map Token.erase) := by
      cases ts with
      | nil => trivial
      | cons tok rest => exact hstop
    exact ⟨_, .stop hstop', hl, rfl, rfl, rfl⟩
  | noColon hk hq hc hyes hcolon =>
    have hy := follows_read hs hyes
    refine ⟨_, .noColon hk hq hc rfl (hy.not_is hcolon), ?_, hy.rest, by simp [hy.complaints],
      hy.tooDeep⟩
    simp only [Expr.erase, hl, hy.expr]
  | noBranch hk hq hc hyes hr hcolon =>
    have hy := follows_read hs hyes
    refine ⟨_, .noBranch hk hq hc rfl (hy.rest_cons hr) hcolon, ?_, rfl, by simp [hy.complaints],
      hy.tooDeep⟩
    simp only [Expr.erase, hl, hy.expr]
  | @conditional left tok colon rest after yes no whole hk hq hc hyes hr hcolon hne hno _ ih =>
    have hy := follows_read hs hyes
    have hn := follows_read hs hno
    -- the trees differ in spans only, whatever spans the two readings give them
    have htree (span : Span) : (Expr.ternary span left'
        (sub'.read maxPrecedence (rest.map Token.erase)).expr
        (sub'.read ternaryPrecedence (after.map Token.erase)).expr).erase =
          (Expr.ternary ((left.spanOr tok).join (no.expr.spanOr colon)) left yes.expr
            no.expr).erase := by
      simp only [Expr.erase, hl, hy.expr, hn.expr]
    obtain ⟨whole', hrun, hw⟩ := ih (htree ((left'.spanOr tok.erase).join
      ((sub'.read ternaryPrecedence (after.map Token.erase)).expr.spanOr colon.erase)))
    rw [← hn.rest] at hrun
    exact ⟨_, .conditional hk hq hc rfl (hy.rest_cons hr) hcolon (by simpa using hne) rfl hrun,
      hw.expr, hw.rest, by simp [hy.complaints, hn.complaints, hw.complaints],
      by simp only [hn.tooDeep, hw.tooDeep]⟩
  | noOperand hk hop hc =>
    refine ⟨_, .noOperand hk hop hc, ?_, rfl, rfl, rfl⟩
    simp only [Expr.erase, hl]
  | @operator left tok rest op right whole hk hop hc hne hright _ ih =>
    have hy := follows_read hs hright
    have htree (span : Span) : (Expr.binary span op left'
        (sub'.read (op.precedence - 1) (rest.map Token.erase)).expr).erase =
          (Expr.binary ((left.spanOr tok).join (right.expr.spanOr tok)) op left
            right.expr).erase := by
      simp only [Expr.erase, hl, hy.expr]
    obtain ⟨whole', hrun, hw⟩ := ih (htree ((left'.spanOr tok.erase).join
      ((sub'.read (op.precedence - 1) (rest.map Token.erase)).expr.spanOr tok.erase)))
    rw [← hy.rest] at hrun
    exact ⟨_, .operator hk hop hc (by simpa using hne) rfl hrun, hw.expr, hw.rest,
      by simp [hy.complaints, hw.complaints], by simp only [hy.tooDeep, hw.tooDeep]⟩

theorem follows_reader (h : env.context.Agrees env'.context) (budget : Nat) :
    (reader env budget).Follows (reader env' budget) := by
  induction budget with
  | zero =>
    intro ceiling ts
    exact ⟨rfl, rfl, rfl, rfl⟩
  | succ budget ih =>
    intro ceiling ts
    obtain ⟨first, whole, hfirst, hwhole, hr⟩ := reader_run env budget ceiling ts
    have hnone : marksOf [] = marksOf [] := rfl
    obtain ⟨first', hfirst', hf⟩ := follows_readOperand h ih hnone hfirst
    obtain ⟨whole', hwhole', hw⟩ := follows_climb ih hf.expr hwhole
    rw [← hf.rest] at hwhole'
    rw [hr, reader_eq hfirst' hwhole']
    exact ⟨hw.expr, hw.rest, by simp [hf.complaints, hw.complaints],
      by simp only [hf.tooDeep, hw.tooDeep]⟩

/-- The tree of some tokens and what is complained about depend on their kinds and literals. -/
theorem follows_parse {c c' : Context} (h : c.Agrees c') (text text' : Text) (ts : List Token) :
    (parse c' text' (ts.map Token.erase)).1.erase = (parse c text ts).1.erase ∧
      Diagnostic.complaints (parse c' text' (ts.map Token.erase)).2 =
        Diagnostic.complaints (parse c text ts).2 := by
  simp only [parse, List.isEmpty_map, h.depthLimit]
  by_cases he : ts.isEmpty
  · simp [he]
  simp only [he]
  have hf : (reader ⟨c, text⟩ c.depthLimit).Follows (reader ⟨c', text'⟩ c.depthLimit) :=
    follows_reader h c.depthLimit
  obtain ⟨e', ds', hr, hx, hd⟩ := (hf maxPrecedence ts).eq_mk
  rw [hr]
  generalize (reader ⟨c, text⟩ c.depthLimit).read maxPrecedence ts = p at hx hd
  obtain ⟨e, rest, ds, deep⟩ := p
  cases rest with
  | nil => exact ⟨hx, hd⟩
  | cons tok rest =>
    cases deep
    · exact ⟨hx, by simp [hd]⟩
    · exact ⟨hx, hd⟩

/-- Texts with the same tokens have the same tree in contexts that agree. -/
theorem erase_parse {c c' : Context} (h : c.Agrees c') {text text' : Text} {ts ts' : List Token}
    (ht : ts'.map Token.erase = ts.map Token.erase) :
    (parse c' text' ts').1.erase = (parse c text ts).1.erase ∧
      Diagnostic.complaints (parse c' text' ts').2 = Diagnostic.complaints (parse c text ts).2 := by
  obtain ⟨he, hd⟩ := follows_parse (.refl c) text [] ts
  obtain ⟨he', hd'⟩ := follows_parse h.symm text' [] ts'
  rw [ht] at he' hd'
  exact ⟨he'.symm.trans he, hd'.symm.trans hd⟩

end Parser

end WatchExpr
