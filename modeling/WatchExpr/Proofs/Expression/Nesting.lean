import WatchExpr.Lexical.Lexer
import WatchExpr.Proofs.Expression.Binding
import WatchExpr.Proofs.Expression.Runs

namespace WatchExpr

/-- How often a symbol occurs among some tokens. -/
def symbols (s : Text) (ts : List Token) : Nat :=
  ts.countP fun t => t.kind == .symbol && t.literal == s

@[simp] theorem symbols_append (s : Text) (ts us : List Token) :
    symbols s (ts ++ us) = symbols s ts + symbols s us := List.countP_append

theorem symbols_cons (s : Text) (t : Token) (ts : List Token) :
    symbols s (t :: ts) = symbols s [t] + symbols s ts := symbols_append s [t] ts

theorem symbols_singleton {t : Token} {w : Text} (hk : t.kind = .symbol) (h : t.is w = true)
    (s : Text) : symbols s [t] = if w == s then 1 else 0 := by
  have hw : t.literal = w := eq_of_beq (Bool.and_eq_true_iff.1 h).2
  simp [symbols, List.countP_singleton, hk, hw]

/-- No name is written like a colon. -/
def Regular (ts : List Token) : Prop := ∀ t ∈ ts, t.is ":" = true → t.kind = .symbol

/-- Neither part of a conditional operator is among some tokens. -/
def Unconditional (ts : List Token) : Prop := symbols "?" ts = 0 ∧ symbols ":" ts = 0

namespace Unconditional

variable {t : Token} {ts us : List Token} {w : Text}

theorem nil : Unconditional [] := ⟨rfl, rfl⟩

theorem append (h : Unconditional ts) (h' : Unconditional us) : Unconditional (ts ++ us) :=
  ⟨by rw [symbols_append, h.1, h'.1], by rw [symbols_append, h.2, h'.2]⟩

theorem cons (h : Unconditional [t]) (h' : Unconditional ts) : Unconditional (t :: ts) :=
  h.append h'

theorem of_kind (h : t.kind ≠ .symbol) : Unconditional [t] := by
  have hk : (t.kind == .symbol) = false := beq_false_of_ne h
  simp [Unconditional, symbols, hk]

theorem of_literal (hq : t.literal ≠ "?") (hc : t.literal ≠ ":") : Unconditional [t] := by
  simp [Unconditional, symbols, hq, hc]

theorem of_is (h : t.is w = true) (hw : w ≠ "?" ∧ w ≠ ":") : Unconditional [t] := by
  simp only [Token.is, Bool.and_eq_true, beq_iff_eq] at h
  obtain ⟨-, rfl⟩ := h
  exact .of_literal hw.1 hw.2

end Unconditional

def Shallow (ds : List Diagnostic) : Prop := ∀ d ∈ ds, d.complaint ≠ .nestedTooDeeply

instance (ds : List Diagnostic) : Decidable (Shallow ds) :=
  inferInstanceAs (Decidable (∀ d ∈ ds, d.complaint ≠ .nestedTooDeeply))

namespace Shallow

variable {ds ds' : List Diagnostic}

theorem nil : Shallow [] := List.forall_mem_nil _

theorem append (h : Shallow ds) (h' : Shallow ds') : Shallow (ds ++ ds') :=
  List.forall_mem_append.2 ⟨h, h'⟩

theorem singleton {offset : Nat} {c : Complaint} (h : c ≠ .nestedTooDeeply) :
    Shallow [⟨offset, c⟩] :=
  List.forall_mem_singleton.2 h

theorem split_unique {d d' : Diagnostic} {before before' after after' : List Diagnostic}
    (hbefore : Shallow before) (hafter : Shallow after) (hd' : d'.complaint = .nestedTooDeeply)
    (h : before ++ d :: after = before' ++ d' :: after') :
    before = before' ∧ d = d' ∧ after = after' := by
  obtain ⟨ds, rfl, hds⟩ | ⟨ds, rfl, hds⟩ := List.append_eq_append_iff.1 h
  · cases ds with
    | nil =>
      cases hds
      exact ⟨(List.append_nil _).symm, rfl, rfl⟩
    | cons d₁ ds =>
      cases hds
      exact absurd hd' (hafter d' (by simp))
  · cases ds with
    | nil =>
      cases hds
      exact ⟨List.append_nil _, rfl, rfl⟩
    | cons d₁ ds =>
      cases hds
      exact absurd hd' (hbefore d' (by simp))

end Shallow

namespace TypeExpr

theorem consumed_readSuffixes (start : Nat) (t : TypeExpr) (ts : List Token) :
    Shallow (readSuffixes start t ts).diagnostics ∧
      ∃ us, ts = us ++ (readSuffixes start t ts).rest ∧ Unconditional us := by
  fun_induction readSuffixes start t ts with
  | case2 t tok rest hstar ih =>
    obtain ⟨hd, us, hts, hus⟩ := ih
    exact ⟨hd, tok :: us, congrArg (tok :: ·) hts, .cons (.of_is hstar (by decide)) hus⟩
  | case3 t tok hstar hopen n close after hn count hc ih =>
    obtain ⟨hd, us, hts, hus⟩ := ih
    have hkind : n.kind ≠ .symbol := by simp [hn.1]
    exact ⟨hd, tok :: n :: close :: us, congrArg (tok :: n :: close :: ·) hts,
      .cons (.of_is hopen (by decide))
        (.cons (.of_kind hkind) (.cons (.of_is hn.2 (by decide)) hus))⟩
  | case4 => exact ⟨.singleton (by simp), [], rfl, .nil⟩
  | _ => exact ⟨.nil, [], rfl, .nil⟩

theorem consumed_readSigned (text : Text) (tok : Token) (ts : List Token) :
    ∃ us, ts = us ++ (readSigned text tok ts).2 ∧ Unconditional us := by
  cases ts with
  | nil => exact ⟨[], rfl, .nil⟩
  | cons next after =>
    simp only [readSigned]
    split
    · rename_i k hk
      have hkind : next.kind ≠ .symbol := by
        intro h
        simp [h] at hk
      split
      · exact ⟨[next], rfl, .of_kind hkind⟩
      · exact ⟨[], rfl, .nil⟩
    · exact ⟨[], rfl, .nil⟩

theorem isSignWord_unconditional {tok : Token} (h : isSignWord tok) : Unconditional [tok] := by
  obtain h | h := Bool.or_eq_true_iff.1 h
  · exact .of_is h (by decide)
  · exact .of_is h (by decide)

theorem consumed_read (c : Context) (text : Text) (ts : List Token) :
    Shallow (read c text ts).diagnostics ∧
      ∃ us, ts = us ++ (read c text ts).rest ∧ Unconditional us := by
  cases ts with
  | nil => exact ⟨.nil, [], rfl, .nil⟩
  | cons tok rest =>
    simp only [read]
    split
    · rename_i hs
      obtain ⟨us, hts, hus⟩ := consumed_readSigned text tok rest
      obtain ⟨hd, vs, hvs, hvs'⟩ := consumed_readSuffixes tok.start (readSigned text tok rest).1
        (readSigned text tok rest).2
      refine ⟨hd, tok :: us ++ vs, ?_, .cons (isSignWord_unconditional hs) (hus.append hvs')⟩
      rw [List.append_assoc, ← hvs, List.cons_append, ← hts]
    · split
      · rename_i hk
        have hkind : tok.kind ≠ .symbol := by simp [hk]
        split
        · rename_i k _
          obtain ⟨hd, vs, hvs, hvs'⟩ := consumed_readSuffixes tok.start
            (.named tok.span tok.literal k) rest
          exact ⟨hd, tok :: vs, congrArg (tok :: ·) hvs, .cons (.of_kind hkind) hvs'⟩
        · exact ⟨.singleton (by simp), [], rfl, .nil⟩
      · exact ⟨.nil, [], rfl, .nil⟩

end TypeExpr

theorem Binding.ne_nestedTooDeeply {c : Context} {name : Text} {span : Span} {b : Binding}
    {d : Complaint} (h : b.read c name span = .error d) : d ≠ .nestedTooDeeply := by
  have hlocal {sym : Symbol} {d : Complaint} (h : c.localLeaf sym span = .error d) :
      d ≠ .nestedTooDeeply := by
    simp only [Context.localLeaf] at h
    split at h <;> cases h <;> nofun
  cases b with
  | localSymbol sym => exact hlocal h
  | memberOfThis this =>
    simp only [Binding.read] at h
    cases hl : c.localLeaf this span with
    | ok leaf =>
      rw [hl] at h
      cases h
    | error d' =>
      rw [hl] at h
      cases h
      exact hlocal hl
  | register offset size =>
    simp only [Binding.read, Context.registerLeaf] at h
    split at h <;> cases h
    nofun
  | outerSymbol base mode sym =>
    simp only [Binding.read, Context.baseLeaf] at h
    split at h <;> cases h
    nofun
  | type k => cases h
  | unknown =>
    cases h
    nofun

namespace Parser

variable {env : Env} {sub : Reader}

theorem shallow_readToken (env : Env) (tok : Token) :
    Shallow (readToken env tok).2 ∧ ((readToken env tok).2 = [] → tok.kind ≠ .symbol) := by
  simp only [readToken]
  split
  · rename_i hk
    refine ⟨?_, fun _ => by simp [hk]⟩
    obtain ⟨b, -, hb⟩ := env.context.exists_binding tok.literal
    rw [hb]
    split
    · exact .nil
    · rename_i d hd
      exact .singleton (b.ne_nestedTooDeeply hd)
  · rename_i hk
    refine ⟨?_, fun _ => by simp [hk]⟩
    split
    · exact .nil
    · exact .nil
    · exact .singleton (by simp)
  · rename_i hk
    refine ⟨?_, fun _ => by simp [hk]⟩
    split
    · split
      · exact .singleton (by simp)
      · exact .nil
    · rename_i d hd
      refine .singleton ?_
      simp only [Literal.readChar] at hd
      grind
  · exact ⟨.singleton (by simp), by simp⟩
  · exact ⟨.singleton (by simp), by simp⟩
  · exact ⟨.singleton (by simp), by simp⟩
  · exact ⟨.singleton (by simp), by simp⟩

/-- How a reading that started with some tokens ended. Where nothing was complained about, each
question mark has had its colon. The limit on nesting is reported where the reading stops, and then
once for each conditional that was waiting for its colon. -/
inductive Ended (env : Env) (ts : List Token) (p : Parsed) : Prop
  | finished (us : List Token) (deep : p.tooDeep = false) (tokens : ts = us ++ p.rest)
      (shallow : Shallow p.diagnostics)
      (closed : Regular ts → p.diagnostics = [] → symbols "?" us = symbols ":" us)
  | stopped (before : List Diagnostic) (front back : List Token) (waiting : Nat)
      (deep : p.tooDeep = true) (rest : p.rest = []) (tokens : ts = front ++ back)
      (diagnostics : p.diagnostics = before ++ ⟨env.position back, .nestedTooDeeply⟩ ::
        List.replicate waiting ⟨env.text.length, .expectedColon⟩)
      (shallow : Shallow before) (opened : waiting ≤ symbols "?" front)
      (closed : Regular ts → before = [] → symbols "?" front = symbols ":" front + waiting)

namespace Ended

variable {ts us : List Token} {p q : Parsed} {e : Expr} {ds : List Diagnostic}

/-- Nothing is left to read once nesting is too deep. -/
theorem rest_eq_nil (h : Ended env ts p) (hdeep : p.tooDeep = true) : p.rest = [] := by
  cases h with
  | finished us deep => rw [deep] at hdeep; cases hdeep
  | stopped _ _ _ _ _ rest => exact rest

theorem suffix (h : Ended env ts p) : p.rest <:+ ts := by
  cases h with
  | finished us deep tokens => exact ⟨us, tokens.symm⟩
  | stopped _ _ _ _ _ rest => exact rest ▸ List.nil_suffix

theorem finished_of_cons {tok : Token} {after : List Token} (h : Ended env ts p)
    (hr : p.rest = tok :: after) :
    p.tooDeep = false ∧ Shallow p.diagnostics ∧ ∃ us, ts = us ++ tok :: after ∧
      (Regular ts → p.diagnostics = [] → symbols "?" us = symbols ":" us) := by
  cases h with
  | finished us deep tokens shallow closed => exact ⟨deep, shallow, us, hr ▸ tokens, closed⟩
  | stopped _ _ _ _ _ hnil =>
    rw [hr] at hnil
    cases hnil

theorem of_expr (h : Ended env ts p) : Ended env ts { p with expr := e } := by
  cases h with
  | finished us deep tokens shallow closed => exact .finished us deep tokens shallow closed
  | stopped before front back waiting deep rest tokens diagnostics shallow opened closed =>
    exact .stopped before front back waiting deep rest tokens diagnostics shallow opened closed

theorem behind (h : Ended env ts p) (hd : Shallow ds)
    (hus : Regular (us ++ ts) → ds = [] → symbols "?" us = symbols ":" us) :
    Ended env (us ++ ts) { p with diagnostics := ds ++ p.diagnostics } := by
  have hlater (h : Regular (us ++ ts)) : Regular ts := (List.forall_mem_append.1 h).2
  cases h with
  | finished vs deep tokens shallow closed =>
    refine .finished (us ++ vs) deep (by rw [tokens, List.append_assoc]) (hd.append shallow) ?_
    intro hr hnil
    obtain ⟨hds, hp⟩ := List.append_eq_nil_iff.1 hnil
    rw [symbols_append, symbols_append, hus hr hds, closed (hlater hr) hp]
  | stopped before front back waiting deep rest tokens diagnostics shallow opened closed =>
    refine .stopped (ds ++ before) (us ++ front) back waiting deep rest
      (by rw [tokens, List.append_assoc]) ?_ (hd.append shallow) ?_ ?_
    · rw [List.append_assoc, ← diagnostics]
    · rw [symbols_append]
      omega
    · intro hr hnil
      obtain ⟨hds, hb⟩ := List.append_eq_nil_iff.1 hnil
      rw [symbols_append, symbols_append, hus hr hds, closed (hlater hr) hb]
      omega

theorem behind_unconditional (h : Ended env ts p) (us : List Token) (hus : Unconditional us) :
    Ended env (us ++ ts) p :=
  h.behind .nil fun _ _ => hus.1.trans hus.2.symm

theorem andThen (h : Ended env ts q) (h' : Ended env q.rest p)
    (hend : q.rest = [] → p.diagnostics = []) :
    Ended env ts { p with
      diagnostics := q.diagnostics ++ p.diagnostics, tooDeep := q.tooDeep || p.tooDeep } := by
  cases h with
  | finished us deep tokens shallow closed =>
    subst tokens
    rw [deep, Bool.false_or]
    exact h'.behind shallow closed
  | stopped before front back waiting deep rest tokens diagnostics shallow opened closed =>
    have hp := hend rest
    cases h' with
    | finished us _ tokens' =>
      rw [rest] at tokens'
      have hrest := (List.append_eq_nil_iff.1 tokens'.symm).2
      refine .stopped before front back waiting ?_ hrest tokens ?_ shallow opened closed
      · rw [deep, Bool.true_or]
      · rw [hp, List.append_nil, diagnostics]
    | stopped before' _ _ _ _ _ _ diagnostics' =>
      rw [hp] at diagnostics'
      simp at diagnostics'

theorem concat (h : Ended env ts p) (hdeep : p.tooDeep = false) (offset : Nat) (c : Complaint)
    (hc : c ≠ .nestedTooDeeply) :
    Ended env ts { p with diagnostics := p.diagnostics ++ [⟨offset, c⟩] } := by
  cases h with
  | finished us deep tokens shallow closed =>
    exact .finished us deep tokens (shallow.append (.singleton hc)) (by simp)
  | stopped _ _ _ _ deep => rw [hdeep] at deep; cases deep

/-- A closing token is missing behind what was read. -/
theorem unclosed (h : Ended env ts p) (e : Expr) (offset : Nat) (c : Complaint)
    (hc : c ≠ .nestedTooDeeply) :
    Ended env ts { p with
      expr := e
      diagnostics := if p.tooDeep then p.diagnostics else p.diagnostics ++ [⟨offset, c⟩] } := by
  split
  · exact h.of_expr
  · rename_i hdeep
    exact (h.concat (Bool.eq_false_iff.2 hdeep) offset c hc).of_expr

end Ended

def Reader.Ends (env : Env) (sub : Reader) : Prop :=
  ∀ ceiling ts, Ended env ts (sub.read ceiling ts)

theorem ended_readAtom (hs : sub.Ends env) {ts : List Token} {p : Parsed}
    (h : AtomRun env sub ts p) : Ended env ts p := by
  have hinner {tok : Token} (hopen : tok.is "(" = true) {rest : List Token} {i : Parsed}
      (hi : sub.read maxPrecedence rest = i) : Ended env (tok :: rest) i :=
    hi ▸ (hs maxPrecedence rest).behind_unconditional [tok] (.of_is hopen (by decide))
  cases h with
  | nil => exact .finished [] rfl rfl (.singleton (by simp)) fun _ _ => rfl
  | @closed tok close rest after i hopen hi hr hclose =>
    obtain ⟨deep, shallow, us, tokens, closed⟩ := (hinner hopen.2 hi).finished_of_cons hr
    have hun : Unconditional [close] := .of_is hclose (by decide)
    refine .finished (us ++ [close]) deep (by simpa using tokens) shallow fun hreg hd => ?_
    rw [symbols_append, symbols_append, closed hreg hd, hun.1, hun.2]
  | unclosed hopen hi => exact (hinner hopen.2 hi).unclosed _ _ .missingParenthesis (by simp)
  | @written tok rest p _ hp =>
    obtain ⟨hd, us, hts, hus⟩ := TypeExpr.consumed_read env.context env.text (tok :: rest)
    rw [hp] at hd hts
    exact .finished us rfl hts hd fun _ _ => hus.1.trans hus.2.symm
  | @token tok rest =>
    obtain ⟨hd, hk⟩ := shallow_readToken env tok
    refine .finished [tok] rfl rfl hd fun _ hnil => ?_
    have hun : Unconditional [tok] := .of_kind (hk hnil)
    rw [hun.1, hun.2]

theorem ended_readPostfix (hs : sub.Ends env) {x : Expr} {ts : List Token} {p : Parsed}
    (h : PostfixRun sub x ts p) : Ended env ts p := by
  have hindex {tok : Token} (hopen : tok.is "[" = true) {rest : List Token} {i : Parsed}
      (hi : sub.read maxPrecedence rest = i) : Ended env (tok :: rest) i :=
    hi ▸ (hs maxPrecedence rest).behind_unconditional [tok] (.of_is hopen (by decide))
  induction h with
  | stop => exact .finished [] rfl rfl .nil fun _ _ => rfl
  | @noName x tok rest => exact .finished [tok] rfl rfl (.singleton (by simp)) (by simp)
  | @member x tok name rest p hdot hname _ ih =>
    have hkind : name.kind ≠ .symbol := by simp [hname]
    have htok : Unconditional [tok] := by
      obtain h | h := Bool.or_eq_true_iff.1 hdot
      · exact .of_is h (by decide)
      · exact .of_is h (by decide)
    exact ih.behind_unconditional [tok, name] (.cons htok (.of_kind hkind))
  | unclosed _ hopen hi => exact (hindex hopen hi).unclosed _ _ .unclosedBracket (by simp)
  | @index x tok close rest after i p _ hopen hi hr hclose _ ih =>
    obtain ⟨-, shallow, us, tokens, closed⟩ := (hindex hopen hi).finished_of_cons hr
    have htokens : tok :: rest = (us ++ [close]) ++ after := by simpa using tokens
    rw [htokens] at closed ⊢
    refine ih.behind shallow fun hreg hd => ?_
    have hun : Unconditional [close] := .of_is hclose (by decide)
    rw [symbols_append, symbols_append, closed hreg hd, hun.1, hun.2]

theorem consumed_readClosedType {ts after : List Token} {t : TypeExpr}
    (h : readClosedType env ts = .ok (t, after)) : ∃ us, ts = us ++ after ∧ Unconditional us := by
  obtain ⟨-, us, hts, hus⟩ := TypeExpr.consumed_read env.context env.text ts
  obtain ⟨-, close, hr, hclose⟩ := readClosedType_eq_ok h
  refine ⟨us ++ [close], ?_, hus.append (.of_is hclose (by decide))⟩
  rw [List.append_assoc, List.singleton_append, ← hr, ← hts]

theorem shallow_readClosedType {ts : List Token} {ds : List Diagnostic}
    (h : readClosedType env ts = .error ds) : Shallow ds := by
  rw [readClosedType_eq_error h]
  exact (TypeExpr.consumed_read env.context env.text ts).1

theorem unconditional_of_simpleMark {tok : Token} {m : Mark} (h : simpleMark? tok = some m) :
    Unconditional [tok] := by
  simp only [simpleMark?] at h
  repeat' split at h
  all_goals first | exact .of_is ‹_› (by decide) | cases h

theorem consumed_prefixStep_mark {tok : Token} {rest after : List Token} {m : Mark}
    {ds : List Diagnostic} (h : prefixStep env tok rest = .mark m after ds) :
    Shallow ds ∧ ∃ us, tok :: rest = us ++ after ∧ Unconditional us := by
  cases markRun h with
  | simple hm => exact ⟨.nil, [tok], rfl, unconditional_of_simpleMark hm⟩
  | sizeof hw _ hds =>
    refine ⟨?_, [tok], rfl, .of_is hw.2 (by decide)⟩
    obtain rfl | ⟨paren, inner, -, hc⟩ := hds
    · exact .nil
    · exact shallow_readClosedType hc
  | cast ho _ hc =>
    obtain ⟨us, hts, hus⟩ := consumed_readClosedType hc
    exact ⟨.nil, tok :: us, congrArg (tok :: ·) hts, .cons (.of_is ho (by decide)) hus⟩

theorem consumed_prefixStep_sizeOfType {tok : Token} {rest after : List Token} {t : TypeExpr}
    (h : prefixStep env tok rest = .sizeOfType t after) :
    ∃ us, tok :: rest = us ++ after ∧ Unconditional us := by
  obtain ⟨hw, paren, inner, rfl, ho, -, hc⟩ := prefixStep_eq_sizeOfType h
  obtain ⟨us, hts, hus⟩ := consumed_readClosedType hc
  exact ⟨tok :: paren :: us, congrArg (tok :: paren :: ·) hts,
    .cons (.of_is hw.2 (by decide)) (.cons (.of_is ho (by decide)) hus)⟩

theorem ended_readOperand (hs : sub.Ends env) {budget : Nat} {marks : List Prefixed}
    {ts : List Token} {p : Parsed} (h : OperandRun env sub budget marks ts p) : Ended env ts p := by
  induction h with
  | core _ ha hf =>
    refine ((ended_readAtom hs ha).andThen (ended_readPostfix hs hf) fun hnil => ?_).of_expr
    rw [← hf.eq, hnil, readPostfix_nil]
  | sizeOfType hstep =>
    obtain ⟨us, hts, hus⟩ := consumed_prefixStep_sizeOfType hstep
    exact .finished us rfl hts .nil fun _ _ => hus.1.trans hus.2.symm
  | @tooDeep marks tok rest after m ds hstep =>
    have hd := (consumed_prefixStep_mark hstep).1
    exact .stopped ds [] (tok :: rest) 0 rfl rfl rfl rfl hd (Nat.le_refl _) fun _ _ => rfl
  | mark hstep _ _ ih =>
    obtain ⟨hd, us, hts, hus⟩ := consumed_prefixStep_mark hstep
    rw [hts]
    exact ih.behind hd fun _ _ => hus.1.trans hus.2.symm

theorem Ended.noColon {tok : Token} {rest : List Token} {p : Parsed} {e : Expr}
    (h : Ended env rest p) (hk : tok.kind = .symbol) (hq : tok.is "?" = true) :
    Ended env (tok :: rest) { p with
      expr := e
      diagnostics := p.diagnostics ++ [⟨env.position p.rest, .expectedColon⟩] } := by
  have hone : symbols "?" [tok] = 1 := symbols_singleton hk hq _
  have hnone : symbols ":" [tok] = 0 := symbols_singleton hk hq _
  cases h with
  | finished us deep tokens shallow closed =>
    exact .finished (tok :: us) deep (congrArg (tok :: ·) tokens)
      (shallow.append (.singleton (by simp))) (by simp)
  | stopped before front back waiting deep hnil tokens diagnostics shallow opened closed =>
    refine .stopped before (tok :: front) back (waiting + 1) deep hnil
      (congrArg (tok :: ·) tokens) ?_ shallow ?_ fun hreg hb => ?_
    · rw [diagnostics, hnil, List.append_assoc, List.cons_append, List.replicate_succ']
      rfl
    · rw [symbols_cons]
      omega
    · rw [symbols_cons, symbols_cons ":", closed (List.forall_mem_cons.1 hreg).2 hb]
      omega

theorem ended_climb (hs : sub.Ends env) {ceiling : Nat} {left : Expr} {ts : List Token} {p : Parsed}
    (h : ClimbRun env sub ceiling left ts p) : Ended env ts p := by
  induction h with
  | stop => exact .finished [] rfl rfl .nil fun _ _ => rfl
  | noColon hk hq _ hyes => exact (hyes ▸ hs _ _).noColon hk hq
  | @noBranch left tok colon rest yes _ _ _ hyes hr =>
    subst hyes
    obtain ⟨deep, shallow, us, tokens, -⟩ := (hs maxPrecedence rest).finished_of_cons hr
    exact .finished (tok :: us ++ [colon]) deep (by simp [tokens])
      (shallow.append (.singleton (by simp))) (by simp)
  | @conditional left tok colon rest after yes no whole hk hq _ hyes hr hcolon _ hno hwhole ih =>
    subst hyes hno
    have hlater := (hs ternaryPrecedence after).andThen ih fun hnil => by
      rw [← hwhole.eq, hnil, climb_nil]
    obtain ⟨-, shallow, us, tokens, closed⟩ := (hs maxPrecedence rest).finished_of_cons hr
    have htokens : tok :: rest = (tok :: us ++ [colon]) ++ after := by simp [tokens]
    rw [htokens, List.append_assoc (sub.read maxPrecedence rest).diagnostics]
    refine hlater.behind shallow fun hreg hd => ?_
    rw [← htokens] at hreg
    have hcolon' : colon.kind = .symbol := hreg colon (by simp [tokens]) hcolon
    have hopened : symbols "?" [tok] = 1 ∧ symbols ":" [tok] = 0 :=
      ⟨symbols_singleton hk hq _, symbols_singleton hk hq _⟩
    have hclosed : symbols "?" [colon] = 0 ∧ symbols ":" [colon] = 1 :=
      ⟨symbols_singleton hcolon' hcolon _, symbols_singleton hcolon' hcolon _⟩
    rw [symbols_append, symbols_append, symbols_cons, symbols_cons ":",
      closed (List.forall_mem_cons.1 hreg).2 hd]
    omega
  | @noOperand left tok => exact .finished [tok] rfl rfl (.singleton (by simp)) (by simp)
  | @operator left tok rest op right whole _ hop _ _ hright hwhole ih =>
    subst hright
    refine ((hs (op.precedence - 1) rest).andThen ih fun hnil => by
      rw [← hwhole.eq, hnil, climb_nil]).behind_unconditional [tok] ?_
    have hlit := List.find?_some hop
    refine .of_literal (fun h => ?_) fun h => ?_
    all_goals
      rw [h] at hlit
      cases op <;> cases hlit

theorem ends_reader (env : Env) (budget : Nat) : (reader env budget).Ends env := by
  induction budget with
  | zero =>
    intro ceiling ts
    exact .stopped [] [] ts 0 rfl rfl rfl rfl .nil (Nat.le_refl _) fun _ _ => rfl
  | succ budget ih =>
    intro ceiling ts
    obtain ⟨first, whole, hfirst, hwhole, hr⟩ := reader_run env budget ceiling ts
    rw [hr]
    refine (ended_readOperand ih hfirst).andThen (ended_climb ih hwhole) fun hnil => ?_
    rw [← hwhole.eq, hnil, climb_nil]

/-- The limit on nesting is reported where a reading stops, and only there. -/
theorem Ended.shallow_iff {ts : List Token} {p : Parsed} (h : Ended env ts p) :
    Shallow p.diagnostics ↔ p.tooDeep = false := by
  cases h with
  | finished us deep tokens shallow => exact ⟨fun _ => deep, fun _ => shallow⟩
  | stopped before front back waiting deep rest tokens diagnostics =>
    refine ⟨fun hs => ?_, fun hd => ?_⟩
    · rw [diagnostics] at hs
      exact absurd rfl (hs ⟨env.position back, .nestedTooDeeply⟩ (by simp))
    · rw [deep] at hd
      cases hd

theorem Ended.tooDeep_of_nil {ts : List Token} {p : Parsed} (h : Ended env ts p)
    (hd : p.diagnostics = []) : p.tooDeep = false :=
  h.shallow_iff.1 (hd ▸ .nil)

theorem Ended.unclosed_ne_nil {ts : List Token} {p : Parsed} (h : Ended env ts p) (d : Diagnostic) :
    (if p.tooDeep then p.diagnostics else p.diagnostics ++ [d]) ≠ [] := by
  intro hd
  split at hd
  · rename_i hdeep
    rw [h.tooDeep_of_nil hd] at hdeep
    cases hdeep
  · simp at hd

theorem shallow_parse_nil (c : Context) (text : Text) : Shallow (parse c text []).2 :=
  .singleton (by simp)

theorem parse_cases (c : Context) (text : Text) {ts : List Token} {p : Parsed} (hne : ts ≠ [])
    (hp : (reader ⟨c, text⟩ c.depthLimit).read maxPrecedence ts = p) :
    p.tooDeep = false ∧ Shallow (parse c text ts).2 ∨
      p.tooDeep = true ∧ parse c text ts = (p.expr, p.diagnostics) := by
  have hempty : ts.isEmpty = false := List.isEmpty_eq_false_iff.2 hne
  have hended := ends_reader ⟨c, text⟩ c.depthLimit maxPrecedence ts
  simp only [parse, hempty, Bool.false_eq_true, if_false, hp] at hended ⊢
  cases hdeep : p.tooDeep with
  | true =>
    right
    cases p.rest <;> exact ⟨rfl, rfl⟩
  | false =>
    left
    have hs := hended.shallow_iff.2 hdeep
    cases p.rest with
    | nil => exact ⟨rfl, hs⟩
    | cons tok rest => exact ⟨rfl, hs.append (.singleton (by simp))⟩

theorem regular_scanFrom (position : Nat) (text : Text) :
    Regular (Lexer.scanFrom position text) := by
  fun_induction Lexer.scanFrom position text with
  | case1 => exact List.forall_mem_nil _
  | case2 position c rest _ ih => exact ih
  | case3 position c rest _ kind length hk token ih =>
    refine List.forall_mem_cons.2 ⟨fun hcolon => ?_, ih⟩
    obtain rfl : c = 0x3a := (List.cons.inj (eq_of_beq (Bool.and_eq_true_iff.1 hcolon).2)).1
    have hkind : (Lexer.lexeme 0x3a rest).1 = .symbol := rfl
    rw [hk] at hkind
    exact hkind

open Lexer (scan)

/-- The limit on nesting is reported at most once. What follows its report are complaints about a
missing colon at the end of the text. They come from question marks in front of the place where the
limit was hit, and if nothing else was complained about, there is one for each question mark there
that still waits for its colon. -/
theorem nesting_reported_once (c : Context) (text : Text) {before after : List Diagnostic}
    {d : Diagnostic} (h : (parse c text (scan text)).2 = before ++ d :: after)
    (hd : d.complaint = .nestedTooDeeply) :
    Shallow before ∧ (∃ waiting, after = List.replicate waiting ⟨text.length, .expectedColon⟩) ∧
      ∃ front back, scan text = front ++ back ∧ d.offset = Env.position ⟨c, text⟩ back ∧
        after.length ≤ symbols "?" front ∧
        (before = [] → symbols "?" front = symbols ":" front + after.length) := by
  have hreported : ¬ Shallow (parse c text (scan text)).2 := fun hs => hs d (by simp [h]) hd
  have hne : scan text ≠ [] := by
    intro hnil
    rw [hnil] at hreported
    exact hreported (shallow_parse_nil c text)
  obtain ⟨-, hs⟩ | ⟨hdeep, hp⟩ := parse_cases c text hne rfl
  · exact absurd hs hreported
  rw [hp] at h
  cases ends_reader ⟨c, text⟩ c.depthLimit maxPrecedence (scan text) with
  | finished us deep => rw [deep] at hdeep; cases hdeep
  | stopped before' front back waiting _ _ tokens diagnostics shallow opened closed =>
    have hfollow : Shallow (List.replicate waiting ⟨text.length, .expectedColon⟩) := by
      intro d' hd'
      rw [List.eq_of_mem_replicate hd']
      nofun
    obtain ⟨rfl, rfl, rfl⟩ := shallow.split_unique hfollow hd (diagnostics.symm.trans h)
    refine ⟨shallow, ⟨waiting, rfl⟩, front, back, tokens, rfl, ?_⟩
    rw [List.length_replicate]
    exact ⟨opened, closed (regular_scanFrom 0 text)⟩

/-- Of two conditionals one waits for its colon where the limit is hit. -/
theorem nesting_reported_in_branch :
    (parse (.bare .x64 3) "1 ? 2 : 3 ? (4" (scan "1 ? 2 : 3 ? (4")).2 =
        [⟨13, .nestedTooDeeply⟩, ⟨14, .expectedColon⟩] ∧
      Shallow [] ∧ (∃ waiting, [⟨14, .expectedColon⟩] =
        List.replicate waiting (⟨14, .expectedColon⟩ : Diagnostic)) ∧
      ∃ front back, scan "1 ? 2 : 3 ? (4" = front ++ back ∧
        13 = Env.position ⟨.bare .x64 3, "1 ? 2 : 3 ? (4"⟩ back ∧ 1 ≤ symbols "?" front ∧
        (([] : List Diagnostic) = [] → symbols "?" front = symbols ":" front + 1) := by
  have h : (parse (.bare .x64 3) "1 ? 2 : 3 ? (4" (scan "1 ? 2 : 3 ? (4")).2 =
      [] ++ ⟨13, .nestedTooDeeply⟩ :: [⟨14, .expectedColon⟩] := by decide +kernel
  exact ⟨h, nesting_reported_once _ _ h rfl⟩

/-- The report of the limit is not the last one if a conditional waits for its colon. -/
theorem nesting_not_reported_last :
    ¬ ∀ (c : Context) (text : Text) (before after : List Diagnostic) (d : Diagnostic),
      (parse c text (scan text)).2 = before ++ d :: after → d.complaint = .nestedTooDeeply →
      after = [] := by
  intro h
  have hd : (parse (.bare .x64 1) "1 ? 2" (scan "1 ? 2")).2 =
      [] ++ ⟨4, .nestedTooDeeply⟩ :: [⟨5, .expectedColon⟩] := by decide +kernel
  cases h _ _ _ _ _ hd rfl

end Parser

end WatchExpr
