import WatchExpr.Proofs.Expression.CursorTypes

namespace WatchExpr.Cursor

open WatchExpr.Parser

section
variable {env : Env} {ts : List Token} {last : Token}

/-- Where a walk over an expression ended, and in which state. -/
structure Bounded (limit size level i : Nat) (s : State) (j : Nat) (s' : State) : Prop where
  le : i ≤ j
  inside : j ≤ size
  depth : s'.depth = s.depth
  deepest : s'.deepest ≤ max s.deepest (level + 1 + (limit - s.depth))

namespace Bounded

variable {limit size level i j k : Nat} {s s' s'' : State}

theorem refl (hi : i ≤ size) : Bounded limit size level i s i s :=
  ⟨Nat.le_refl i, hi, rfl, Nat.le_max_left _ _⟩

theorem trans (h : Bounded limit size level i s j s') (h' : Bounded limit size level j s' k s'') :
    Bounded limit size level i s k s'' := by
  refine ⟨Nat.le_trans h.le h'.le, h'.inside, h'.depth.trans h.depth, ?_⟩
  have hd := h'.deepest
  rw [h.depth] at hd
  exact Nat.le_trans hd (Nat.max_le.2 ⟨h.deepest, Nat.le_max_right _ _⟩)

theorem forth (h : Bounded limit size level i s j s') (hjk : j ≤ k) (hk : k ≤ size) :
    Bounded limit size level i s k s' :=
  { h with le := Nat.le_trans h.le hjk, inside := hk }

theorem back (h : Bounded limit size level j s k s') (hij : i ≤ j) :
    Bounded limit size level i s k s' :=
  { h with le := Nat.le_trans hij h.le }

theorem complained (h : Bounded limit size level i s j s') (ds : List Diagnostic) :
    Bounded limit size level i s j { s' with diagnostics := ds } :=
  { h with }

end Bounded

/-- A walk ended with what a reader found. -/
structure Agrees (ts : List Token) (s : State) (p : Parsed) (r : Expr × Nat) (s' : State) :
    Prop where
  expr : r.1 = p.expr
  rest : ts.drop r.2 = p.rest
  diagnostics : s'.diagnostics = s.diagnostics ++ p.diagnostics
  tooDeep : s'.tooDeep = (s.tooDeep || p.tooDeep)

/-- A walk that goes on no further reads nothing more. -/
theorem Agrees.quiet {ts rest : List Token} {i : Nat} (s : State) (x : Expr)
    (hrest : ts.drop i = rest) : Agrees ts s { expr := x, rest } (x, i) s :=
  ⟨rfl, hrest, (List.append_nil _).symm, (Bool.or_false _).symm⟩

/-- What a walk over an expression did. It agrees with a reader where it was in the condition to. -/
structure Walked (env : Env) (ts : List Token) (last : Token) (level i : Nat) (s : State)
    (fit : Prop) (p : Parsed) (r : Expr × Nat) (s' : State) : Prop where
  bounded : Bounded env.context.depthLimit ts.length level i s r.2 s'
  agrees : last.start = env.text.length → fit → Agrees ts s p r s'

/-- A walk over expressions reads what a reader of the budget that is left does, from some place
on. -/
def Follows (env : Env) (ts : List Token) (last : Token) (lo : Nat) (sub : Walker) : Prop :=
  ∀ level ceiling i s, lo ≤ i → i ≤ ts.length →
    Arrives (sub level ceiling i) s (Walked env ts last level i s (s.tooDeep = false)
      ((reader env (env.context.depthLimit - s.depth)).read ceiling (ts.drop i)))

theorem complainAbove_eq (offset : Nat) (c : Complaint) (s : State) :
    complainAbove offset c s = some ((), if s.tooDeep then s else
      { s with diagnostics := s.diagnostics ++ [⟨offset, c⟩] }) := by
  rw [complainAbove]
  split
  · rfl
  · rfl

theorem Bounded.complainAbove {limit size level i j : Nat} {s s' : State}
    (h : Bounded limit size level i s j s') (ds : List Diagnostic) :
    Bounded limit size level i s j (if s'.tooDeep then s' else { s' with diagnostics := ds }) := by
  split
  · exact h
  · exact h.complained ds

theorem Agrees.of_expr {s s' : State} {p : Parsed} {x y : Expr} {j : Nat}
    (h : Agrees ts s p (x, j) s') : Agrees ts s { p with expr := y } (y, j) s' :=
  { h with expr := rfl }

theorem Agrees.complain {s s' : State} {p : Parsed} {r : Expr × Nat} (h : Agrees ts s p r s')
    (d : Diagnostic) :
    Agrees ts s { p with diagnostics := p.diagnostics ++ [d] } r
      { s' with diagnostics := s'.diagnostics ++ [d] } := by
  refine ⟨h.expr, h.rest, ?_, h.tooDeep⟩
  rw [h.diagnostics, List.append_assoc]

theorem Agrees.complainAbove {s s' : State} {p : Parsed} {r : Expr × Nat}
    (h : Agrees ts s p r s') (hs : s.tooDeep = false) (d : Diagnostic) :
    Agrees ts s
      { p with diagnostics := if p.tooDeep then p.diagnostics else p.diagnostics ++ [d] } r
      (if s'.tooDeep then s' else { s' with diagnostics := s'.diagnostics ++ [d] }) := by
  have hdeep : s'.tooDeep = p.tooDeep := by rw [h.tooDeep, hs, Bool.false_or]
  by_cases hp : p.tooDeep = true
  · rw [if_pos hp, if_pos (hdeep.trans hp)]
    exact h
  · rw [if_neg hp, if_neg (hdeep ▸ hp)]
    exact h.complain d

theorem arrives_atom (h : EndMarked ts last) {lo steps i : Nat} {sub : Walker}
    (hs : Follows env ts last lo sub) (level : Nat) (hlo : lo ≤ i + 1) (hi : i ≤ ts.length)
    (hsteps : ts.length < steps + i + 1) (s : State) :
    Arrives (atom env (ts ++ [last]) sub level steps i) s
      (Walked env ts last level i s (s.tooDeep = false)
        (readAtom env (reader env (env.context.depthLimit - s.depth)) (ts.drop i))) := by
  rw [atom]
  obtain ⟨tok, hlook, hdrop, hkind, hlt⟩ | ⟨hlook, hdrop, -⟩ := h.cases hi
  · refine .bind (hlook s) ?_
    by_cases hopen : tok.kind = .symbol ∧ tok.is "("
    · rw [if_pos hopen, hdrop]
      obtain ⟨⟨x, j⟩, s', hrun, hb, ha⟩ := hs level maxPrecedence (i + 1) s hlo hlt
      refine .bind hrun ?_
      have hb := hb.back (Nat.le_succ i)
      generalize hp : (reader env (env.context.depthLimit - s.depth)).read maxPrecedence
        (ts.drop (i + 1)) = p at ha
      have hunclosed (hclose : ∀ close after, ts.drop j = close :: after → ¬ close.is ")") :
          Arrives (complainAbove tok.start .missingParenthesis >>= fun _ => pure (x, j)) s'
            fun r s' => Walked env ts last level i s (s.tooDeep = false)
              (readAtom env (reader env (env.context.depthLimit - s.depth))
                (tok :: ts.drop (i + 1))) r s' := by
        refine .bind (complainAbove_eq _ _ s') (.pure ⟨hb.complainAbove _, fun hstart hf => ?_⟩)
        have ha := ha hstart hf
        rw [(AtomRun.unclosed hopen hp fun close after hr =>
          hclose close after (ha.rest.trans hr)).eq]
        exact ha.complainAbove hf _
      obtain ⟨close, hlook', hdrop', -, hlt'⟩ | ⟨hlook', hdrop', -⟩ := h.cases hb.inside
      · refine .bind (hlook' s') ?_
        by_cases hclose : close.is ")" = true
        · rw [if_pos hclose]
          refine .pure ⟨hb.forth (Nat.le_succ j) hlt', fun hstart hf => ?_⟩
          have ha := ha hstart hf
          rw [(AtomRun.closed hopen hp (ha.rest.symm.trans hdrop') hclose).eq]
          exact { ha with rest := rfl }
        · rw [if_neg hclose]
          refine hunclosed fun close' after hr => ?_
          cases hdrop'.symm.trans hr
          exact hclose
      · refine .bind (hlook' s') ?_
        rw [h.is_mark, if_neg Bool.false_ne_true]
        exact hunclosed fun close after hr => by cases hdrop'.symm.trans hr
    · rw [if_neg hopen, hdrop]
      simp only [readAtom, if_neg hopen]
      by_cases hsign : tok.kind = .identifier ∧ TypeExpr.isSignWord tok = true
      · rw [if_pos hsign]
        simp only [if_pos hsign]
        obtain ⟨⟨t, j⟩, s', hrun, hle, hinside, htype, hrest, hstate⟩ :=
          arrives_typeExpr env h true hi hsteps s
        rw [if_pos rfl] at hstate
        subst hstate
        rw [hdrop] at htype hrest hrun
        refine .bind hrun (.pure ⟨⟨hle, hinside, rfl, Nat.le_max_left _ _⟩, fun _ _ => ?_⟩)
        exact ⟨congrArg (Option.elim · Expr.missing Expr.type) htype, hrest, rfl,
          (Bool.or_false _).symm⟩
      · rw [if_neg hsign, if_neg hkind]
        simp only [if_neg hsign]
        refine .bind (complain_eq _ s) (.pure ⟨⟨Nat.le_succ i, hlt, rfl, Nat.le_max_left _ _⟩,
          fun _ _ => ⟨rfl, rfl, rfl, (Bool.or_false _).symm⟩⟩)
  · refine .bind (hlook s) ?_
    have hsymbol : ¬ (last.kind = .symbol ∧ last.is "(") := by simp [h.mark]
    have hname : ¬ (last.kind = .identifier ∧ TypeExpr.isSignWord last = true) := by
      simp [h.mark]
    rw [if_neg hsymbol, if_neg hname, if_pos h.mark]
    refine .bind (complain_eq _ s) (.pure ⟨⟨Nat.le_refl i, hi, rfl, Nat.le_max_left _ _⟩,
      fun hstart _ => ?_⟩)
    rw [hdrop, hstart]
    exact ⟨rfl, hdrop, rfl, (Bool.or_false _).symm⟩

/-- One walk after another, where the second one goes on with what the first one found. -/
theorem Agrees.andThen {s s' s'' : State} {p q : Parsed} {r r' : Expr × Nat}
    (h : Agrees ts s p r s') (h' : Agrees ts s' q r' s'') :
    Agrees ts s { q with
      diagnostics := p.diagnostics ++ q.diagnostics
      tooDeep := p.tooDeep || q.tooDeep } r' s'' := by
  refine ⟨h'.expr, h'.rest, ?_, ?_⟩
  · rw [h'.diagnostics, h.diagnostics, List.append_assoc]
  · rw [h'.tooDeep, h.tooDeep, Bool.or_assoc]

theorem Agrees.not_tooDeep {s s' : State} {ceiling budget : Nat} {us : List Token}
    {r : Expr × Nat} (h : Agrees ts s ((reader env budget).read ceiling us) r s')
    (hs : s.tooDeep = false) {tok : Token} {rest : List Token} (hrest : ts.drop r.2 = tok :: rest) :
    ((reader env budget).read ceiling us).tooDeep = false ∧ s'.tooDeep = false := by
  have hp := ((ends_reader env budget ceiling us).finished_of_cons (h.rest.symm.trans hrest)).1
  exact ⟨hp, by rw [h.tooDeep, hs, hp]; rfl⟩

theorem Agrees.rest_eq_nil {s s' : State} {ceiling budget : Nat} {us : List Token}
    {r : Expr × Nat} (h : Agrees ts s ((reader env budget).read ceiling us) r s')
    (hs : s.tooDeep = false) (hdeep : s'.tooDeep = true) : ts.drop r.2 = [] := by
  rw [h.tooDeep, hs, Bool.false_or] at hdeep
  exact h.rest.trans ((ends_reader env budget ceiling us).rest_eq_nil hdeep)

/-- From some place on, the rest of a loop over accesses reads what the loop of the readers does. -/
def Accesses (env : Env) (ts : List Token) (last : Token) (level budget lo : Nat)
    (next : Expr → Nat → Walk (Expr × Nat)) : Prop :=
  ∀ x i s, lo ≤ i → i ≤ ts.length → budget = env.context.depthLimit - s.depth →
    Arrives (next x i) s (Walked env ts last level i s (s.tooDeep = true → ts.drop i = [])
      (readPostfix (reader env budget) x (ts.drop i)))

theorem arrives_index (h : EndMarked ts last) {lo level i : Nat} {sub : Walker}
    {next : Expr → Nat → Walk (Expr × Nat)} (hs : Follows env ts last lo sub) (hlo : lo ≤ i + 1)
    (x : Expr) {tok : Token} (hlt : i < ts.length) {s : State} (hdeep : s.tooDeep = false)
    (hn : Accesses env ts last level (env.context.depthLimit - s.depth) (i + 1) next)
    (hdot : ¬ (tok.is "." || tok.is "->") = true) (hopen : tok.is "[" = true) (fit : Prop) :
    Arrives (do
      let (y, j) ← sub level maxPrecedence (i + 1)
      let close ← look (ts ++ [last]) j
      if close.is "]" then next (.index ((x.spanOr tok).join close.span) x y) (j + 1)
      else do
        complainAbove tok.start .unclosedBracket
        return (.index ((x.spanOr tok).join (y.spanOr tok)) x y, j)) s
      (Walked env ts last level i s fit
        (readPostfix (reader env (env.context.depthLimit - s.depth)) x
          (tok :: ts.drop (i + 1)))) := by
  obtain ⟨⟨y, j⟩, s', hrun, hb, ha⟩ := hs level maxPrecedence (i + 1) s hlo hlt
  refine .bind hrun ?_
  have hle := hb.le
  have hb := hb.back (Nat.le_succ i)
  have hunclosed (hclose : ∀ close after, ts.drop j = close :: after → ¬ close.is "]") :
      Arrives (complainAbove tok.start .unclosedBracket >>= fun _ =>
        pure (.index ((x.spanOr tok).join (y.spanOr tok)) x y, j)) s'
        fun r s' => Walked env ts last level i s fit
          (readPostfix (reader env (env.context.depthLimit - s.depth)) x
            (tok :: ts.drop (i + 1))) r s' := by
    refine .bind (complainAbove_eq _ _ s') (.pure ⟨hb.complainAbove _, fun hstart _ => ?_⟩)
    have ha := ha hstart hdeep
    have hx : y = _ := ha.expr
    rw [(PostfixRun.unclosed hdot hopen rfl fun close after hr =>
      hclose close after (ha.rest.trans hr)).eq, ← hx]
    exact (ha.complainAbove hdeep _).of_expr
  obtain ⟨close, hlook, hdrop, -, hlt'⟩ | ⟨hlook, hdrop, -⟩ := h.cases hb.inside
  · refine .bind (hlook s') ?_
    by_cases hclose : close.is "]" = true
    · rw [if_pos hclose]
      refine (hn _ (j + 1) s' (Nat.le_succ_of_le hle) hlt' (by rw [hb.depth])).mono
        fun r s'' hw => ⟨(hb.forth (Nat.le_succ j) hlt').trans hw.bounded, fun hstart _ => ?_⟩
      have ha := ha hstart hdeep
      obtain ⟨hp, hdeep'⟩ := ha.not_tooDeep hdeep hdrop
      have hread := ha.andThen (hw.agrees hstart fun hd => absurd hd (by simp [hdeep']))
      have hx : y = _ := ha.expr
      rw [hp, Bool.false_or, hx] at hread
      rw [(PostfixRun.index hdot hopen rfl (ha.rest.symm.trans hdrop) hclose (postfixRun _ _)).eq]
      exact hread
    · rw [if_neg hclose]
      refine hunclosed fun close' after hr => ?_
      cases hdrop.symm.trans hr
      exact hclose
  · refine .bind (hlook s') ?_
    rw [h.is_mark, if_neg Bool.false_ne_true]
    exact hunclosed fun close after hr => by cases hdrop.symm.trans hr

theorem arrives_postfixes (h : EndMarked ts last) {lo level steps i : Nat} {sub : Walker}
    (hs : Follows env ts last lo sub) (hlo : lo ≤ i + 1) (x : Expr) (hi : i ≤ ts.length)
    (hsteps : ts.length < steps + i) (s : State) :
    Arrives (postfixes (ts ++ [last]) sub level steps x i) s
      (Walked env ts last level i s (s.tooDeep = true → ts.drop i = [])
        (readPostfix (reader env (env.context.depthLimit - s.depth)) x (ts.drop i))) := by
  induction steps generalizing x i s with
  | zero => omega
  | succ steps ih =>
    have hnext : Accesses env ts last level (env.context.depthLimit - s.depth) (i + 1)
        (postfixes (ts ++ [last]) sub level steps) := fun x' i' s' hlo' hi' hbudget => by
      rw [hbudget]
      exact ih (by omega) x' hi' (by omega) s'
    rw [postfixes]
    refine .bind (a := s) rfl ?_
    by_cases hdeep : s.tooDeep = true
    · rw [if_pos hdeep]
      refine .pure ⟨.refl hi, fun _ hf => ?_⟩
      rw [hf hdeep, readPostfix_nil]
      exact .quiet s _ (hf hdeep)
    rw [if_neg hdeep]
    have hdeep := Bool.eq_false_iff.2 hdeep
    obtain ⟨tok, hlook, hdrop, hkind, hlt⟩ | ⟨hlook, hdrop, -⟩ := h.cases hi
    · refine .bind (hlook s) ?_
      rw [hdrop]
      by_cases hdot : (tok.is "." || tok.is "->") = true
      · rw [readPostfix_cons, if_pos hdot, if_pos hdot]
        have hnone : Arrives (complain [⟨tok.start, .expectedMember tok.literal⟩] >>= fun _ =>
            pure (x, i + 1)) s (Walked env ts last level i s (s.tooDeep = true →
              tok :: ts.drop (i + 1) = [])
              ⟨x, ts.drop (i + 1), [⟨tok.start, .expectedMember tok.literal⟩], false⟩) :=
          .bind (complain_eq _ s) (.pure
            ⟨((Bounded.refl hi).forth (Nat.le_succ i) hlt).complained _, fun _ _ =>
              ⟨rfl, rfl, rfl, (Bool.or_false _).symm⟩⟩)
        obtain ⟨name, hlook₁, hdrop₁, -, hlt₁⟩ | ⟨hlook₁, hdrop₁, -⟩ := h.cases hlt
        · refine .bind (hlook₁ s) ?_
          rw [hdrop₁] at hnone ⊢
          by_cases hname : name.kind = .identifier
          · simp only [if_pos hname]
            refine (hnext _ (i + 2) s (Nat.le_succ _) hlt₁ rfl).mono fun r s' hw =>
              ⟨hw.bounded.back (by omega), fun hstart _ => hw.agrees hstart fun hd => ?_⟩
            rw [hdeep] at hd
            cases hd
          · simp only [if_neg hname]
            exact hnone
        · refine .bind (hlook₁ s) ?_
          rw [h.mark, if_neg (by decide)]
          rw [hdrop₁] at hnone ⊢
          exact hnone
      rw [if_neg hdot]
      by_cases hopen : tok.is "[" = true
      · rw [if_pos hopen]
        exact arrives_index h hs hlo x hlt hdeep hnext hdot hopen _
      · rw [readPostfix_cons, if_neg hdot, if_neg hopen, if_neg hopen]
        exact .pure ⟨.refl hi, fun _ _ => .quiet s x hdrop⟩
    · refine .bind (hlook s) ?_
      rw [h.is_mark, h.is_mark, h.is_mark, hdrop, readPostfix_nil]
      exact .pure ⟨.refl hi, fun _ _ => .quiet s x hdrop⟩

theorem arrives_core (h : EndMarked ts last) {lo steps i : Nat} {sub : Walker}
    (hs : Follows env ts last lo sub) (level : Nat) (hlo : lo ≤ i + 1) (hi : i ≤ ts.length)
    (hsteps : ts.length < steps + i) (s : State) :
    Arrives (core env (ts ++ [last]) sub level steps i) s
      (Walked env ts last level i s (s.tooDeep = false)
        (readCore env (reader env (env.context.depthLimit - s.depth)) (ts.drop i))) := by
  obtain ⟨⟨x, j⟩, s', hrun, hb, ha⟩ := arrives_atom h hs level hlo hi
    (Nat.lt_succ_of_lt hsteps) s
  refine .bind hrun ?_
  have hle := hb.le
  refine (arrives_postfixes h hs (by omega) x hb.inside (by omega) s').mono fun r s'' hw =>
    ⟨hb.trans hw.bounded, fun hstart hf => ?_⟩
  have ha := ha hstart hf
  have hp := hw.agrees hstart fun hd => by
    rw [ha.tooDeep, hf, Bool.false_or] at hd
    exact ha.rest.trans ((ended_readAtom (ends_reader env _) (atomRun _)).rest_eq_nil hd)
  have hread := ha.andThen hp
  have hx : x = _ := ha.expr
  rw [hb.depth, hx, ha.rest] at hread
  exact hread

theorem enter_over {s : State} {extra offset : Nat}
    (h : env.context.depthLimit < s.depth + 1 + extra) :
    enter env extra offset s = some (false, { s with
      depth := s.depth + 1
      tooDeep := true
      diagnostics := if s.tooDeep then s.diagnostics
        else s.diagnostics ++ [⟨offset, .nestedTooDeeply⟩] }) := by
  rw [enter, if_pos h]
  cases s with
  | mk depth tooDeep diagnostics deepest =>
    cases tooDeep <;> rfl

theorem enter_within {s : State} {extra : Nat} (offset : Nat)
    (h : ¬ env.context.depthLimit < s.depth + 1 + extra) :
    enter env extra offset s = some (true, { s with depth := s.depth + 1 }) := by
  rw [enter, if_neg h]

/-- Where nesting is too deep, the walk goes to the end mark. -/
theorem arrives_marked_over (last : Token) {count i : Nat} (offset level : Nat)
    (hi : i ≤ ts.length) (s : State)
    (next : Walk (Expr × Nat)) (hover : env.context.depthLimit < count + s.depth) :
    Arrives (marked env (ts ++ [last]) count offset next) s
      (Walked env ts last level i s (s.tooDeep = false)
        { expr := .missing, rest := [], diagnostics := [⟨offset, .nestedTooDeeply⟩],
          tooDeep := true }) := by
  have hend := endMark_eq ts last
  refine .bind (a := s) rfl ?_
  rw [if_pos hover]
  refine .bind (enter_over (by omega)) (.bind (a := ()) rfl (.pure ⟨⟨?_, ?_, rfl, ?_⟩, ?_⟩))
  · rwa [hend]
  · exact Nat.le_of_eq hend
  · exact Nat.le_max_left _ _
  · intro _ hf
    refine ⟨rfl, ?_, ?_, (Bool.or_true _).symm⟩
    · rw [hend, List.drop_length]
    · exact if_neg (Bool.eq_false_iff.1 hf)

theorem Walked.behind {level i j : Nat} {s s' : State} {ds : List Diagnostic} {p : Parsed}
    {r : Expr × Nat} (h : Walked env ts last level j { s with diagnostics := s.diagnostics ++ ds }
      (s.tooDeep = false) p r s') (hij : i ≤ j) :
    Walked env ts last level i s (s.tooDeep = false) (after ds p) r s' := by
  refine ⟨⟨Nat.le_trans hij h.bounded.le, h.bounded.inside, h.bounded.depth, h.bounded.deepest⟩,
    fun hstart hf => ?_⟩
  have ha := h.agrees hstart hf
  refine ⟨ha.expr, ha.rest, ?_, ha.tooDeep⟩
  rw [ha.diagnostics, List.append_assoc]
  rfl

/-- What a look at one prefix operator did. -/
inductive AheadRead (env : Env) (ts : List Token) (tok : Token) (i : Nat) (s : State) :
    Ahead → State → Prop
  | none (step : prefixStep env tok (ts.drop (i + 1)) = .none) : AheadRead env ts tok i s .none s
  | mark (m : Mark) (j : Nat) (ds : List Diagnostic) (lt : i < j) (inside : j ≤ ts.length)
      (step : prefixStep env tok (ts.drop (i + 1)) = .mark m (ts.drop j) ds) :
      AheadRead env ts tok i s (.mark m j) { s with diagnostics := s.diagnostics ++ ds }
  | sizeOfType (t : TypeExpr) (j : Nat) (lt : i < j) (inside : j ≤ ts.length)
      (step : prefixStep env tok (ts.drop (i + 1)) = .sizeOfType t (ts.drop j)) :
      AheadRead env ts tok i s (.sizeOfType t j) s

theorem AheadRead.quiet {tok : Token} {i j : Nat} {s : State} {m : Mark} (lt : i < j)
    (inside : j ≤ ts.length)
    (step : prefixStep env tok (ts.drop (i + 1)) = .mark m (ts.drop j) []) :
    AheadRead env ts tok i s (.mark m j) s := by
  have hmark := AheadRead.mark (s := s) m j [] lt inside step
  rw [List.append_nil] at hmark
  exact hmark

theorem arrives_ahead (env : Env) (h : EndMarked ts last) {steps i : Nat} (tok : Token)
    (hlt : i < ts.length) (hsteps : ts.length < steps + i) (s : State) :
    Arrives (ahead env (ts ++ [last]) tok steps i) s (AheadRead env ts tok i s) := by
  have hstep := prefixStep.eq_def env tok (ts.drop (i + 1))
  rw [ahead]
  cases hm : simpleMark? tok with
  | some m =>
    simp only [hm] at hstep
    exact .pure (.quiet (Nat.lt_succ_self i) hlt hstep)
  | none =>
    simp only [hm] at hstep
    by_cases hsizeof : tok.kind = .identifier ∧ tok.is "sizeof" = true
    · rw [if_pos hsizeof] at hstep
      simp only [if_pos hsizeof]
      have hbare (hstep : prefixStep env tok (ts.drop (i + 1)) =
          .mark .sizeof (ts.drop (i + 1)) []) :
          Arrives (pure (.mark .sizeof (i + 1))) s (AheadRead env ts tok i s) :=
        .pure (.quiet (Nat.lt_succ_self i) hlt hstep)
      obtain ⟨paren, hlook, hdrop, -, hlt'⟩ | ⟨hlook, hdrop, -⟩ := h.cases hlt
      · refine .bind (hlook s) ?_
        rw [hdrop] at hstep
        by_cases hopen : paren.is "(" = true
        · rw [if_pos hopen]
          simp only [hopen, Bool.true_and] at hstep
          obtain ⟨r, s', hrun, hclosed⟩ := arrives_closedType env h true hlt'
            (by omega : ts.length < steps + (i + 1 + 1) + 1) s
          refine .bind hrun ?_
          cases hclosed with
          | found t j le inside starts read =>
            simp only [starts, read, if_true, ← hdrop] at hstep
            exact .pure (.sizeOfType t (j + 1) (by omega) inside hstep)
          | broken ds starts read =>
            simp only [starts, read, if_true, ← hdrop] at hstep
            exact .pure (.mark .sizeof (i + 1) ds (Nat.lt_succ_self i) hlt hstep)
          | absent starts =>
            simp only [starts, Bool.false_eq_true, if_false, ← hdrop] at hstep
            exact hbare hstep
        · rw [if_neg hopen]
          simp only [hopen, Bool.false_and, Bool.false_eq_true, if_false, ← hdrop] at hstep
          exact hbare hstep
      · refine .bind (hlook s) ?_
        rw [h.is_mark, if_neg Bool.false_ne_true]
        rw [hdrop] at hstep
        refine hbare ?_
        rw [hdrop]
        exact hstep
    · rw [if_neg hsizeof] at hstep
      simp only [if_neg hsizeof]
      by_cases hopen : tok.is "(" = true
      · rw [if_pos hopen]
        simp only [hopen, Bool.true_and] at hstep
        obtain ⟨r, s', hrun, hclosed⟩ := arrives_closedType env h false hlt
          (by omega : ts.length < steps + (i + 1) + 1) s
        refine .bind hrun ?_
        cases hclosed with
        | found t j le inside starts read =>
          simp only [starts, read, if_true] at hstep
          exact .pure (.quiet (by omega) inside hstep)
        | broken ds starts read =>
          simp only [starts, read, if_true] at hstep
          rw [if_neg Bool.false_ne_true, List.append_nil]
          exact .pure (.none hstep)
        | absent starts =>
          simp only [starts, Bool.false_eq_true, if_false] at hstep
          exact .pure (.none hstep)
      · rw [if_neg hopen]
        simp only [hopen, Bool.false_and, Bool.false_eq_true, if_false] at hstep
        exact .pure (.none hstep)

theorem ahead_mark (h : EndMarked ts last) (steps i : Nat) :
    ahead env (ts ++ [last]) last steps i = pure .none := by
  have hm : simpleMark? last = none := by
    simp [simpleMark?, h.is_mark]
  rw [ahead, hm]
  simp only [h.is_mark, Bool.false_eq_true, and_false, if_false]

theorem arrives_operand (h : EndMarked ts last) {lo steps i : Nat} {sub : Walker}
    (hs : Follows env ts last lo sub) (level : Nat) (hlo : lo ≤ i + 1) (marks : List Prefixed)
    (hi : i ≤ ts.length) (hsteps : ts.length + 1 < steps + i) (s : State) :
    Arrives (operand env (ts ++ [last]) sub level steps marks i) s
      (Walked env ts last level i s (s.tooDeep = false)
        (readOperand env (reader env (env.context.depthLimit - s.depth))
          (env.context.depthLimit - s.depth) marks (ts.drop i))) := by
  induction steps generalizing marks i s with
  | zero => omega
  | succ steps ih =>
    have hsteps' : ts.length < steps + i := by omega
    have hbare {p : Parsed}
        (hp : p = { readCore env (reader env (env.context.depthLimit - s.depth)) (ts.drop i) with
          expr := applyAll marks
            (readCore env (reader env (env.context.depthLimit - s.depth)) (ts.drop i)).expr }) :
        Arrives (core env (ts ++ [last]) sub level steps i >>= fun r =>
          pure (applyAll marks r.1, r.2)) s
          (Walked env ts last level i s (s.tooDeep = false) p) := by
      obtain ⟨⟨x, j⟩, s', hrun, hb, ha⟩ := arrives_core h hs level hlo hi hsteps' s
      refine .bind hrun ?_
      refine .pure ⟨hb, fun hstart hf => ?_⟩
      have ha := ha hstart hf
      have hx : x = _ := ha.expr
      rw [hp, ← hx]
      exact ha.of_expr
    rw [operand]
    obtain ⟨tok, hlook, hdrop, hkind, hlt⟩ | ⟨hlook, hdrop, -⟩ := h.cases hi
    · refine .bind (hlook s) ?_
      obtain ⟨r, s', hrun, hahead⟩ := arrives_ahead env h tok hlt hsteps' s
      refine .bind hrun ?_
      rw [hdrop, readOperand_cons]
      cases hahead with
      | none step =>
        rw [step]
        exact hbare (by rw [hdrop])
      | sizeOfType t j lt inside step =>
        rw [step]
        exact .pure ⟨⟨Nat.le_of_lt lt, inside, rfl, Nat.le_max_left _ _⟩, fun _ _ => .quiet s _ rfl⟩
      | mark m j ds lt inside step =>
        rw [step]
        simp only
        have hle := Nat.le_of_lt lt
        by_cases hover : env.context.depthLimit < marks.length + 1 + s.depth
        · rw [if_pos (by omega)]
          have hw := arrives_marked_over last tok.start level inside
            { s with diagnostics := s.diagnostics ++ ds }
            (operand env (ts ++ [last]) sub level steps (⟨m, tok⟩ :: marks) j) hover
          exact hw.mono fun _ _ hw => Walked.behind hw hle
        · rw [if_neg (by omega)]
          refine .bind (a := { s with diagnostics := s.diagnostics ++ ds }) rfl ?_
          rw [if_neg hover]
          have hw := ih (by omega) (⟨m, tok⟩ :: marks) inside (by omega)
            { s with diagnostics := s.diagnostics ++ ds }
          exact hw.mono fun _ _ hw => Walked.behind hw hle
    · refine .bind (hlook s) ?_
      rw [ahead_mark h]
      refine .bind (a := Ahead.none) rfl ?_
      exact hbare (by rw [hdrop, readOperand_nil])

end

end WatchExpr.Cursor
