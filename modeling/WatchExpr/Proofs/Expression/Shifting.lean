import WatchExpr.Proofs.Expression.Balance
import WatchExpr.Proofs.Expression.Binding
import WatchExpr.Proofs.Expression.Nesting

namespace WatchExpr

def Span.shift (k : Nat) (s : Span) : Span := ⟨s.start + k, s.stop + k⟩

def TypeExpr.shift (k : Nat) : TypeExpr → TypeExpr
  | named s name key => named (s.shift k) name key
  | pointer s elem => pointer (s.shift k) (elem.shift k)
  | array s elem count => array (s.shift k) (elem.shift k) count

def Expr.shift (k : Nat) : Expr → Expr
  | missing => missing
  | int s v isChar => int (s.shift k) v isChar
  | float s bits isSingle => float (s.shift k) bits isSingle
  | leaf s name code key mode => leaf (s.shift k) name code key mode
  | .type t => .type (t.shift k)
  | unary s op x => unary (s.shift k) op (x.shift k)
  | binary s op x y => binary (s.shift k) op (x.shift k) (y.shift k)
  | ternary s c yes no => ternary (s.shift k) (c.shift k) (yes.shift k) (no.shift k)
  | cast s t x => cast (s.shift k) (t.shift k) (x.shift k)
  | sizeof s x => sizeof (s.shift k) (x.shift k)
  | member s x field arrow => member (s.shift k) (x.shift k) ⟨field.span.shift k, field.name⟩ arrow
  | index s x i => index (s.shift k) (x.shift k) (i.shift k)
  | addressOf s x => addressOf (s.shift k) (x.shift k)
  | deref s x => deref (s.shift k) (x.shift k)

def Diagnostic.shift (k : Nat) (d : Diagnostic) : Diagnostic := ⟨d.offset + k, d.complaint⟩

section
variable {k : Nat}

theorem Span.join_shift (a b : Span) : (a.shift k).join (b.shift k) = (a.join b).shift k := by
  simp only [join, shift, Span.mk.injEq]
  omega

theorem Token.span_shift (t : Token) : (t.shift k).span = t.span.shift k := by
  rw [span, shift_start, shift_stop]
  rfl

theorem TypeExpr.span_shift (t : TypeExpr) : (t.shift k).span = t.span.shift k := by
  cases t <;> rfl

theorem Expr.span?_shift (x : Expr) : (x.shift k).span? = x.span?.map (Span.shift k) := by
  cases x with
  | type t => exact congrArg some t.span_shift
  | _ => rfl

theorem Expr.spanOr_shift (x : Expr) (t : Token) :
    (x.shift k).spanOr (t.shift k) = (x.spanOr t).shift k := by
  rw [spanOr, spanOr, span?_shift, Token.span_shift]
  cases x.span? <;> rfl

end

namespace Parser

def Mark.shift (k : Nat) : Mark → Mark
  | .cast t => .cast (t.shift k)
  | m => m

def Prefixed.shift (k : Nat) (p : Prefixed) : Prefixed := ⟨p.mark.shift k, p.token.shift k⟩

variable {k : Nat}

theorem Prefixed.apply_shift (p : Prefixed) (x : Expr) :
    (p.shift k).apply (x.shift k) = (p.apply x).shift k := by
  obtain ⟨mark, token⟩ := p
  have hspan : (token.shift k).span.join ((x.shift k).spanOr (token.shift k)) =
      (token.span.join (x.spanOr token)).shift k := by
    rw [Token.span_shift, Expr.spanOr_shift, Span.join_shift]
  simp only [apply, shift, hspan]
  cases mark <;> rfl

theorem applyAll_shift (marks : List Prefixed) (x : Expr) :
    applyAll (marks.map (Prefixed.shift k)) (x.shift k) = (applyAll marks x).shift k := by
  induction marks generalizing x with
  | nil => rfl
  | cons p marks ih =>
    change applyAll (marks.map (Prefixed.shift k)) ((p.shift k).apply (x.shift k)) = _
    rw [p.apply_shift, ih]
    rfl

end Parser

namespace Binding

variable (c : Context) (name : Text) (span : Span) (k : Nat)

theorem read_shift (b : Binding) :
    b.read c name (span.shift k) = (b.read c name span).map (Expr.shift k) := by
  have hlocal (sym : Symbol) :
      c.localLeaf sym (span.shift k) = (c.localLeaf sym span).map (Expr.shift k) := by
    simp only [Context.localLeaf]
    cases sym.location <;> rfl
  cases b with
  | localSymbol sym => exact hlocal sym
  | memberOfThis this =>
    simp only [read, hlocal]
    cases c.localLeaf this span <;> rfl
  | register offset size =>
    simp only [read, Context.registerLeaf]
    split <;> rfl
  | outerSymbol base mode sym =>
    simp only [read, Context.baseLeaf]
    split <;> rfl
  | type key => rfl
  | unknown => rfl

end Binding

theorem Context.resolve_shift (c : Context) (name : Text) (span : Span) (k : Nat) :
    c.resolve name (span.shift k) = (c.resolve name span).map (Expr.shift k) := by
  obtain ⟨b, -, hb⟩ := c.exists_binding name
  rw [hb, hb, b.read_shift]

end WatchExpr
