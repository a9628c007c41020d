import WatchExpr.Proofs.Expression.Runs

namespace WatchExpr.Parser

/-- A property of what is read from single tokens and types, kept by all that is built on them. -/
structure Assembles (env : Env) (Q : Expr → Prop) (T : TypeExpr → Prop) : Prop where
  missing : Q .missing
  token : ∀ tok, Q (readToken env tok).1
  written : ∀ ts t, (TypeExpr.read env.context env.text ts).type = some t → T t
  type : ∀ t, T t → Q (.type t)
  member : ∀ span x field arrow, Q x → Q (.member span x field arrow)
  index : ∀ span x i, Q x → Q i → Q (.index span x i)
  unary : ∀ span op x, Q x → Q (.unary span op x)
  deref : ∀ span x, Q x → Q (.deref span x)
  addressOf : ∀ span x, Q x → Q (.addressOf span x)
  sizeof : ∀ span x, Q x → Q (.sizeof span x)
  cast : ∀ span t x, T t → Q x → Q (.cast span t x)
  binary : ∀ span op x y, Q x → Q y → Q (.binary span op x y)
  ternary : ∀ span c yes no, Q c → Q yes → Q no → Q (.ternary span c yes no)

section
variable {env : Env} {Q : Expr → Prop} {T : TypeExpr → Prop} (h : Assembles env Q T) {sub : Reader}
  {ts : List Token} {p : Parsed}
include h

theorem Assembles.readAtom (hs : ∀ ceiling ts, Q (sub.read ceiling ts).expr)
    (hr : AtomRun env sub ts p) : Q p.expr := by
  cases hr with
  | nil => exact h.missing
  | closed _ hi => exact hi ▸ hs _ _
  | unclosed _ hi => exact hi ▸ hs _ _
  | @written tok rest p _ hp =>
    cases ht : p.type with
    | none => exact h.missing
    | some t => exact h.type t (h.written _ t (hp ▸ ht))
  | token => exact h.token _

theorem Assembles.readPostfix (hs : ∀ ceiling ts, Q (sub.read ceiling ts).expr) {x : Expr}
    (hx : Q x) (hr : PostfixRun sub x ts p) : Q p.expr := by
  induction hr with
  | stop => exact hx
  | noName => exact hx
  | member _ _ _ ih => exact ih (h.member _ _ _ _ hx)
  | unclosed _ _ hi => exact h.index _ _ _ hx (hi ▸ hs _ _)
  | index _ _ hi _ _ _ ih => exact ih (h.index _ _ _ hx (hi ▸ hs _ _))

/-- The type of a prefix operator, if it is a cast, was written. -/
def Prefixed.Written (T : TypeExpr → Prop) (p : Prefixed) : Prop := ∀ t, p.mark = .cast t → T t

theorem Assembles.closedType {ts rest : List Token} {t : TypeExpr}
    (ht : readClosedType env ts = .ok (t, rest)) : T t :=
  h.written _ t (readClosedType_eq_ok ht).1

theorem Assembles.mark {tok : Token} {rest after : List Token} {ds : List Diagnostic} {t : TypeExpr}
    (hp : prefixStep env tok rest = .mark (.cast t) after ds) : T t := by
  cases markRun hp with
  | simple hm => exact absurd hm (simpleMark?_ne_cast t)
  | cast _ _ hc => exact h.closedType hc

theorem Assembles.apply {p : Prefixed} (hp : p.Written T) {x : Expr} (hx : Q x) :
    Q (p.apply x) := by
  obtain ⟨mark, token⟩ := p
  cases mark with
  | operator op => exact h.unary _ _ _ hx
  | deref => exact h.deref _ _ hx
  | addressOf => exact h.addressOf _ _ hx
  | sizeof => exact h.sizeof _ _ hx
  | cast t => exact h.cast _ _ _ (hp t rfl) hx

theorem Assembles.applyAll {marks : List Prefixed} (hm : ∀ p ∈ marks, p.Written T) {x : Expr}
    (hx : Q x) : Q (applyAll marks x) := by
  induction marks generalizing x with
  | nil => exact hx
  | cons p marks ih =>
    obtain ⟨hp, hm⟩ := List.forall_mem_cons.1 hm
    exact ih hm (h.apply hp hx)

theorem Assembles.readOperand (hs : ∀ ceiling ts, Q (sub.read ceiling ts).expr) {budget : Nat}
    {marks : List Prefixed} (hm : ∀ p ∈ marks, p.Written T)
    (hr : OperandRun env sub budget marks ts p) : Q p.expr := by
  induction hr with
  | core _ ha hf => exact h.applyAll hm (h.readPostfix hs (h.readAtom hs ha) hf)
  | sizeOfType hp =>
    obtain ⟨-, _, _, -, -, -, hc⟩ := prefixStep_eq_sizeOfType hp
    exact h.applyAll (List.forall_mem_cons.2 ⟨(by rintro t ⟨⟩), hm⟩) (h.type _ (h.closedType hc))
  | tooDeep => exact h.missing
  | mark hp _ _ ih =>
    refine ih (List.forall_mem_cons.2 ⟨fun t ht => ?_, hm⟩)
    cases ht
    exact h.mark hp

theorem Assembles.climb (hs : ∀ ceiling ts, Q (sub.read ceiling ts).expr) {ceiling : Nat}
    {left : Expr} (hl : Q left) (hr : ClimbRun env sub ceiling left ts p) : Q p.expr := by
  induction hr with
  | stop => exact hl
  | noColon _ _ _ hyes => exact h.ternary _ _ _ _ hl (hyes ▸ hs _ _) h.missing
  | noBranch _ _ _ hyes => exact h.ternary _ _ _ _ hl (hyes ▸ hs _ _) h.missing
  | conditional _ _ _ hyes _ _ _ hno _ ih =>
    exact ih (h.ternary _ _ _ _ hl (hyes ▸ hs _ _) (hno ▸ hs _ _))
  | noOperand => exact h.binary _ _ _ _ hl h.missing
  | operator _ _ _ _ hright _ ih => exact ih (h.binary _ _ _ _ hl (hright ▸ hs _ _))

theorem Assembles.reader (budget : Nat) (ceiling : Nat) (ts : List Token) :
    Q ((reader env budget).read ceiling ts).expr := by
  induction budget generalizing ceiling ts with
  | zero => exact h.missing
  | succ budget ih =>
    obtain ⟨first, whole, hfirst, hwhole, hr⟩ := reader_run env budget ceiling ts
    simp only [hr]
    exact h.climb ih (h.readOperand ih (List.forall_mem_nil _) hfirst) hwhole

end

theorem Assembles.parse {c : Context} {text : Text} {Q : Expr → Prop} {T : TypeExpr → Prop}
    (h : Assembles ⟨c, text⟩ Q T) (tokens : List Token) : Q (parse c text tokens).1 := by
  have hr := h.reader c.depthLimit maxPrecedence tokens
  rw [Parser.parse]
  split
  · exact h.missing
  · simp only
    split
    · split <;> exact hr
    · exact hr

end WatchExpr.Parser
