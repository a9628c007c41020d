import WatchExpr.Proofs.Expression.Binding
import WatchExpr.Proofs.Expression.Runs

namespace WatchExpr

/-- Nothing is missing from an expression. -/
def Expr.Complete : Expr → Prop
  | .missing => False
  | .int .. | .float .. | .leaf .. | .type _ => True
  | .unary _ _ x | .cast _ _ x | .sizeof _ x | .member _ x _ _ | .addressOf _ x | .deref _ x =>
    x.Complete
  | .binary _ _ x y | .index _ x y => x.Complete ∧ y.Complete
  | .ternary _ c yes no => c.Complete ∧ yes.Complete ∧ no.Complete

namespace Diagnostic

@[simp] theorem anyError_nil : anyError [] = false := rfl

@[simp] theorem anyError_append (ds ds' : List Diagnostic) :
    anyError (ds ++ ds') = (anyError ds || anyError ds') := List.any_append

@[simp] theorem anyError_singleton (d : Diagnostic) : anyError [d] = d.isError := by
  simp [anyError]

theorem anyError_concat {ds : List Diagnostic} {offset : Nat} {c : Complaint}
    (hc : c.isWarning = false) : anyError (ds ++ [⟨offset, c⟩]) = true := by
  simp [isError, hc]

end Diagnostic

namespace Context

variable {c : Context} {span : Span} {e : Expr} {d : Complaint}

/-- What a name stands for has no gaps, and a name that stands for nothing is an error. -/
def Settled : Except Complaint Expr → Prop
  | .ok e => e.Complete
  | .error d => d.isWarning = false

theorem settled_localLeaf (c : Context) (sym : Symbol) (span : Span) :
    Settled (c.localLeaf sym span) := by
  simp only [localLeaf]
  split <;> trivial

theorem settled_registerLeaf (name : Text) (span : Span) (offset size : Nat) :
    Settled (registerLeaf name span offset size) := by
  simp only [registerLeaf]
  split <;> trivial

theorem settled_baseLeaf (base : Base) (mode : Mode) (sym : Symbol) (span : Span) :
    Settled (baseLeaf base mode sym span) := by
  simp only [baseLeaf]
  split
  · rfl
  · trivial

theorem settled_read (c : Context) (name : Text) (span : Span) (b : Binding) :
    Settled (b.read c name span) := by
  cases b with
  | localSymbol sym => exact settled_localLeaf c sym span
  | memberOfThis this =>
    have hs := settled_localLeaf c this span
    simp only [Binding.read]
    cases hl : c.localLeaf this span with
    | error d =>
      rw [hl] at hs
      exact hs
    | ok leaf =>
      rw [hl] at hs
      exact hs
  | register offset size => exact settled_registerLeaf name span offset size
  | outerSymbol base mode sym => exact settled_baseLeaf base mode sym span
  | type k => trivial
  | unknown => rfl

theorem settled_resolve (c : Context) (name : Text) (span : Span) :
    Settled (c.resolve name span) := by
  obtain ⟨b, -, hb⟩ := c.exists_binding name
  rw [hb]
  exact settled_read c name span b

end Context

theorem Literal.isWarning_of_readChar {t : Text} {d : Complaint} (h : readChar t = .error d) :
    d.isWarning = false := by
  simp only [readChar] at h
  split at h
  · cases h; rfl
  · split at h
    · cases h; rfl
    · split at h <;> cases h <;> rfl

theorem TypeExpr.anyError_readSuffixes {start : Nat} {t : TypeExpr} {ts : List Token}
    (h : (readSuffixes start t ts).type = none) :
    Diagnostic.anyError (readSuffixes start t ts).diagnostics := by
  fun_induction readSuffixes start t ts with
  | case1 => cases h
  | case2 _ _ _ _ ih => exact ih h
  | case3 _ _ _ _ _ _ _ _ _ _ ih => exact ih h
  | case4 => rfl
  | _ => cases h

theorem TypeExpr.anyError_read {c : Context} {text : Text} {tok : Token} {rest : List Token}
    (hs : isSignWord tok) (h : (read c text (tok :: rest)).type = none) :
    Diagnostic.anyError (read c text (tok :: rest)).diagnostics := by
  simp only [read, hs, if_true] at h ⊢
  exact anyError_readSuffixes h

namespace Parser

variable {env : Env}

def Parsed.Explained (p : Parsed) : Prop :=
  Diagnostic.anyError p.diagnostics = false → p.expr.Complete

theorem explained_of_error {p : Parsed} (h : Diagnostic.anyError p.diagnostics = true) :
    Parsed.Explained p := by
  intro hn
  rw [h] at hn
  cases hn

def Reader.Explains (sub : Reader) : Prop := ∀ ceiling ts, Parsed.Explained (sub.read ceiling ts)

theorem complete_readToken {tok : Token}
    (h : Diagnostic.anyError (readToken env tok).2 = false) : (readToken env tok).1.Complete := by
  have hrefuse {c : Complaint} (hc : c.isWarning = false)
      (h : Diagnostic.anyError [⟨tok.start, c⟩] = false) : False := by
    simp [Diagnostic.isError, hc] at h
  simp only [readToken] at h ⊢
  split at h
  · have hs := env.context.settled_resolve tok.literal tok.span
    cases hr : env.context.resolve tok.literal tok.span with
    | ok e =>
      rw [hr] at hs
      exact hs
    | error c =>
      rw [hr] at hs
      simp only [hr] at h
      exact (hrefuse hs h).elim
  · cases hn : Literal.readNumber? tok.literal with
    | none =>
      simp only [hn] at h
      exact (hrefuse rfl h).elim
    | some n => cases n <;> trivial
  · cases hc : Literal.readChar tok.literal with
    | ok v => trivial
    | error c =>
      simp only [hc] at h
      exact (hrefuse (Literal.isWarning_of_readChar hc) h).elim
  all_goals exact (hrefuse rfl h).elim

theorem explained_unclosed {i : Parsed} {e : Expr} {offset : Nat} {c : Complaint}
    (he : Diagnostic.anyError i.diagnostics = false → e.Complete) (hc : c.isWarning = false) :
    Parsed.Explained { i with
      expr := e
      diagnostics := if i.tooDeep then i.diagnostics else i.diagnostics ++ [⟨offset, c⟩] } := by
  intro hn
  simp only at hn
  split at hn
  · exact he hn
  · rw [Diagnostic.anyError_concat hc] at hn
    cases hn

theorem complete_apply (p : Prefixed) {x : Expr} (hx : x.Complete) : (p.apply x).Complete := by
  obtain ⟨mark, token⟩ := p
  cases mark <;> exact hx

theorem complete_applyAll (marks : List Prefixed) {x : Expr} (hx : x.Complete) :
    (applyAll marks x).Complete := by
  induction marks generalizing x with
  | nil => exact hx
  | cons p marks ih => exact ih (complete_apply p hx)

section
variable {sub : Reader} (hs : sub.Explains) {ts : List Token} {p : Parsed}
include hs

theorem explained_readAtom (h : AtomRun env sub ts p) : Parsed.Explained p := by
  cases h with
  | nil => exact explained_of_error rfl
  | closed _ hi => exact hi ▸ hs _ _
  | unclosed _ hi => exact explained_unclosed (hi ▸ hs _ _) rfl
  | @written tok rest p hw hp =>
    intro hn
    cases ht : p.type with
    | none =>
      subst hp
      rw [TypeExpr.anyError_read hw.2 ht] at hn
      cases hn
    | some t => trivial
  | token => exact complete_readToken

theorem explained_readPostfix {x : Expr} (hx : x.Complete) (h : PostfixRun sub x ts p) :
    Parsed.Explained p := by
  induction h with
  | stop => exact fun _ => hx
  | noName => exact explained_of_error rfl
  | member _ _ _ ih => exact ih hx
  | unclosed _ _ hi => exact explained_unclosed (fun hn => ⟨hx, (hi ▸ hs _ _) hn⟩) rfl
  | index _ _ hi _ _ _ ih =>
    intro hn
    simp only [after, Diagnostic.anyError_append, Bool.or_eq_false_iff] at hn
    exact ih ⟨hx, (hi ▸ hs _ _) hn.1⟩ hn.2

theorem explained_readOperand {budget : Nat} {marks : List Prefixed}
    (h : OperandRun env sub budget marks ts p) : Parsed.Explained p := by
  induction h with
  | core _ ha hf =>
    intro hn
    simp only [Diagnostic.anyError_append, Bool.or_eq_false_iff] at hn
    exact complete_applyAll _ (explained_readPostfix hs (explained_readAtom hs ha hn.1) hf hn.2)
  | sizeOfType => exact fun _ => complete_applyAll _ trivial
  | tooDeep => exact explained_of_error (Diagnostic.anyError_concat rfl)
  | mark _ _ _ ih =>
    intro hn
    simp only [after, Diagnostic.anyError_append, Bool.or_eq_false_iff] at hn
    exact ih hn.2

theorem explained_climb {ceiling : Nat} {left : Expr} (hl : left.Complete)
    (h : ClimbRun env sub ceiling left ts p) : Parsed.Explained p := by
  induction h with
  | stop => exact fun _ => hl
  | noColon => exact explained_of_error (Diagnostic.anyError_concat rfl)
  | noBranch => exact explained_of_error (Diagnostic.anyError_concat rfl)
  | conditional _ _ _ hyes _ _ _ hno _ ih =>
    intro hn
    simp only [Diagnostic.anyError_append, Bool.or_eq_false_iff] at hn
    exact ih ⟨hl, (hyes ▸ hs _ _) hn.1.1, (hno ▸ hs _ _) hn.1.2⟩ hn.2
  | noOperand => exact explained_of_error rfl
  | operator _ _ _ _ hright _ ih =>
    intro hn
    simp only [Diagnostic.anyError_append, Bool.or_eq_false_iff] at hn
    exact ih ⟨hl, (hright ▸ hs _ _) hn.1⟩ hn.2

end

theorem explains_reader (env : Env) (budget : Nat) : (reader env budget).Explains := by
  induction budget with
  | zero =>
    intro ceiling ts
    exact explained_of_error rfl
  | succ budget ih =>
    intro ceiling ts hn
    obtain ⟨first, whole, hfirst, hwhole, hr⟩ := reader_run env budget ceiling ts
    simp only [hr, Diagnostic.anyError_append, Bool.or_eq_false_iff] at hn ⊢
    exact explained_climb ih (explained_readOperand ih hfirst hn.1) hwhole hn.2

/-- A tree that was read without errors has no gaps. -/
theorem complete_parse {c : Context} {text : Text} {tokens : List Token}
    (h : Diagnostic.anyError (parse c text tokens).2 = false) :
    (parse c text tokens).1.Complete := by
  have hr := explains_reader ⟨c, text⟩ c.depthLimit maxPrecedence tokens
  rw [parse] at h ⊢
  split at h
  · cases h
  · rename_i ht
    simp only [if_neg ht] at h ⊢
    split at h
    · split at h
      · rename_i hd
        simp only [if_pos hd]
        exact hr h
      · rw [Diagnostic.anyError_concat rfl] at h
        cases h
    · exact hr h

end Parser

end WatchExpr
