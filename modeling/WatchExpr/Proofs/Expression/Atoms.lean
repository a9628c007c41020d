import WatchExpr.Proofs.Expression.Assembly

namespace WatchExpr

/-- Every integer literal and every bound name of an expression has a property. -/
def Expr.Atoms (P : Expr → Prop) : Expr → Prop
  | .missing | .float .. | .type _ => True
  | .int s v isChar => P (.int s v isChar)
  | .leaf s name code key mode => P (.leaf s name code key mode)
  | .unary _ _ x | .cast _ _ x | .sizeof _ x | .member _ x _ _ | .addressOf _ x | .deref _ x =>
    x.Atoms P
  | .binary _ _ x y | .index _ x y => x.Atoms P ∧ y.Atoms P
  | .ternary _ c yes no => c.Atoms P ∧ yes.Atoms P ∧ no.Atoms P

theorem Literal.readChar_eq_ok {t : Text} {v : UInt64} {more : Bool}
    (h : readChar t = .ok (v, more)) : ∃ b : UInt8, v = Slot.signExtend 8 b.toUInt64 := by
  unfold readChar at h
  split at h
  · cases h
  · split at h
    · cases h
    · split at h
      · cases h
      · cases h
      · rename_i b _ _
        rw [Except.ok.injEq, Prod.mk.injEq] at h
        exact ⟨b, h.1.symm⟩

namespace Parser

variable {P : Expr → Prop} {env : Env}

theorem assembles_atoms (ht : ∀ tok, (readToken env tok).1.Atoms P) :
    Assembles env (·.Atoms P) fun _ => True where
  missing := trivial
  token := ht
  written _ _ _ := trivial
  type _ _ := trivial
  member _ _ _ _ hx := hx
  index _ _ _ hx hi := ⟨hx, hi⟩
  unary _ _ _ hx := hx
  deref _ _ hx := hx
  addressOf _ _ hx := hx
  sizeof _ _ hx := hx
  cast _ _ _ _ hx := hx
  binary _ _ _ _ hx hy := ⟨hx, hy⟩
  ternary _ _ _ _ hc hyes hno := ⟨hc, hyes, hno⟩

theorem atoms_parse {c : Context} {text : Text} (ht : ∀ tok, (readToken ⟨c, text⟩ tok).1.Atoms P)
    (tokens : List Token) : (parse c text tokens).1.Atoms P :=
  (assembles_atoms ht).parse tokens

/-- The atoms of an expression are numbers, sign-extended characters and what names stand for. -/
theorem atoms_readToken {c : Context} {text : Text}
    (hnumber : ∀ span v, P (.int span v false))
    (hchar : ∀ span (b : UInt8), P (.int span (Slot.signExtend 8 b.toUInt64) true))
    (hname : ∀ name span e, c.resolve name span = .ok e → e.Atoms P) (tok : Token) :
    (readToken ⟨c, text⟩ tok).1.Atoms P := by
  simp only [readToken]
  split
  · split
    · rename_i e he
      exact hname _ _ e he
    · trivial
  · split
    · exact hnumber _ _
    · trivial
    · trivial
  · split
    · rename_i v more hv
      obtain ⟨b, rfl⟩ := Literal.readChar_eq_ok hv
      exact hchar _ b
    · trivial
  all_goals trivial

end Parser

end WatchExpr
