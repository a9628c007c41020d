import WatchExpr.Proofs.Expression.CursorOperands

namespace WatchExpr.Cursor

open WatchExpr.Parser

section
variable {env : Env} {ts : List Token} {last : Token}

/-- From some place on, the rest of a loop over operators reads what the loop of the readers
does. -/
def Continues (env : Env) (ts : List Token) (last : Token) (level ceiling budget lo : Nat)
    (next : Expr → Nat → Walk (Expr × Nat)) : Prop :=
  ∀ left i s, lo ≤ i → i ≤ ts.length → budget = env.context.depthLimit - s.depth →
    Arrives (next left i) s (Walked env ts last level i s (s.tooDeep = true → ts.drop i = [])
      (climb env (reader env budget) ceiling left (ts.drop i)))

theorem arrives_binary (h : EndMarked ts last) {lo level ceiling i : Nat} {sub : Walker}
    {next : Expr → Nat → Walk (Expr × Nat)} (hs : Follows env ts last lo sub) (hlo : lo ≤ i + 1)
    (left : Expr) {op : InfixOp} {tok : Token} (hlt : i < ts.length) {s : State}
    (hdeep : s.tooDeep = false)
    (hn : Continues env ts last level ceiling (env.context.depthLimit - s.depth) (i + 1) next)
    (hdrop : ts.drop i = tok :: ts.drop (i + 1)) (hsymbol : ¬ tok.kind ≠ .symbol)
    (hop : InfixOp.ofSymbol? tok.literal = some op)
    (hc : ¬ ceiling < op.precedence) (fit : Prop) :
    Arrives (binary (ts ++ [last]) sub level next left op tok i) s
      (Walked env ts last level i s fit
        (climb env (reader env (env.context.depthLimit - s.depth)) ceiling left (ts.drop i))) := by
  have hk := Decidable.not_not.1 hsymbol
  have hc := Nat.le_of_not_lt hc
  rw [hdrop]
  obtain ⟨first, hlook, hfirst, hkind, -⟩ | ⟨hlook, hfirst, -⟩ := h.cases hlt
  · refine .bind (hlook s) ?_
    rw [if_neg hkind]
    obtain ⟨⟨y, j⟩, s', hrun, hb, ha⟩ := hs level (op.precedence - 1) (i + 1) s hlo hlt
    refine .bind hrun ?_
    refine (hn _ j s' hb.le hb.inside (by rw [hb.depth])).mono fun r s'' hw =>
      ⟨(hb.back (Nat.le_succ i)).trans hw.bounded, fun hstart _ => ?_⟩
    have ha := ha hstart hdeep
    have hread := ha.andThen (hw.agrees hstart (ha.rest_eq_nil hdeep))
    have hx : y = _ := ha.expr
    rw [hx, ha.rest] at hread
    have hne : ts.drop (i + 1) ≠ [] := by rw [hfirst]; exact List.cons_ne_nil _ _
    rw [(ClimbRun.operator hk hop hc hne rfl (climbRun ceiling _ _)).eq]
    exact hread
  · refine .bind (hlook s) ?_
    rw [if_pos h.mark, hfirst, (ClimbRun.noOperand hk hop hc).eq]
    exact .bind (complain_eq _ s) (.pure ⟨((Bounded.refl (Nat.le_of_lt hlt)).forth (Nat.le_succ i)
      hlt).complained _, fun _ _ => ⟨rfl, hfirst, rfl, (Bool.or_false _).symm⟩⟩)

theorem arrives_conditional (h : EndMarked ts last) {lo level ceiling i : Nat} {sub : Walker}
    {next : Expr → Nat → Walk (Expr × Nat)} (hs : Follows env ts last lo sub) (hlo : lo ≤ i + 1)
    (left : Expr) {tok : Token} (hlt : i < ts.length) {s : State} (hdeep : s.tooDeep = false)
    (hn : Continues env ts last level ceiling (env.context.depthLimit - s.depth) (i + 1) next)
    (hdrop : ts.drop i = tok :: ts.drop (i + 1)) (hsymbol : ¬ tok.kind ≠ .symbol)
    (hq : tok.is "?" = true) (hc : ¬ ceiling < ternaryPrecedence) (fit : Prop) :
    Arrives (conditional (ts ++ [last]) sub level next left tok i) s
      (Walked env ts last level i s fit
        (climb env (reader env (env.context.depthLimit - s.depth)) ceiling left (ts.drop i))) := by
  have hk := Decidable.not_not.1 hsymbol
  have hc := Nat.le_of_not_lt hc
  rw [hdrop]
  obtain ⟨⟨y, j⟩, s', hrun, hb, ha⟩ := hs level maxPrecedence (i + 1) s hlo hlt
  refine .bind hrun ?_
  have hle := hb.le
  have hb := hb.back (Nat.le_succ i)
  have hnoColon (offset : Nat)
      (hposition : last.start = env.text.length → offset = env.position (ts.drop j))
      (hcolon : ∀ colon after, ts.drop j = colon :: after → ¬ colon.is ":") :
      Arrives (complain [⟨offset, .expectedColon⟩] >>= fun _ =>
        pure (.ternary (left.spanOr tok) left y .missing, j)) s'
        fun r s' => Walked env ts last level i s fit
          (climb env (reader env (env.context.depthLimit - s.depth)) ceiling left
            (tok :: ts.drop (i + 1))) r s' := by
    refine .bind (complain_eq _ s') (.pure ⟨hb.complained _, fun hstart _ => ?_⟩)
    have ha := ha hstart hdeep
    have hx : y = _ := ha.expr
    have hpos := hposition hstart
    rw [ha.rest] at hpos
    rw [(ClimbRun.noColon hk hq hc rfl fun colon after hr =>
      hcolon colon after (ha.rest.trans hr)).eq, ← hx, ← hpos]
    exact { (ha.complain _) with expr := rfl }
  obtain ⟨colon, hlook, hcolon, -, hlt'⟩ | ⟨hlook, hcolon, -⟩ := h.cases hb.inside
  · refine .bind (hlook s') ?_
    by_cases his : colon.is ":" = true
    · rw [if_pos his]
      obtain ⟨first, hlook₁, hfirst, hkind, -⟩ | ⟨hlook₁, hfirst, -⟩ := h.cases hlt'
      · refine .bind (hlook₁ s') ?_
        rw [if_neg hkind]
        obtain ⟨⟨z, k⟩, s'', hrun₁, hb₁, ha₁⟩ :=
          hs level ternaryPrecedence (j + 1) s' (by omega) hlt'
        refine .bind hrun₁ ?_
        have hle₁ := hb₁.le
        have hdepth : env.context.depthLimit - s.depth = env.context.depthLimit - s''.depth := by
          rw [hb₁.depth, hb.depth]
        refine (hn _ k s'' (by omega) hb₁.inside hdepth).mono fun r s₃ hw =>
          ⟨((hb.forth (Nat.le_succ j) hlt').trans hb₁).trans hw.bounded, fun hstart _ => ?_⟩
        have ha := ha hstart hdeep
        obtain ⟨hp, hdeep'⟩ := ha.not_tooDeep hdeep hcolon
        have ha₁ := ha₁ hstart hdeep'
        have hread := ha.andThen (ha₁.andThen (hw.agrees hstart (ha₁.rest_eq_nil hdeep')))
        have hx : y = _ := ha.expr
        have hz : z = _ := ha₁.expr
        rw [hp, Bool.false_or, hx, hz, ha₁.rest, hb.depth, ← List.append_assoc] at hread
        have hne : ts.drop (j + 1) ≠ [] := by rw [hfirst]; exact List.cons_ne_nil _ _
        rw [(ClimbRun.conditional hk hq hc rfl (ha.rest.symm.trans hcolon) his hne rfl
          (climbRun ceiling _ _)).eq]
        exact hread
      · refine .bind (hlook₁ s') ?_
        rw [if_pos h.mark]
        refine .bind (complain_eq _ s') (.pure ⟨(hb.forth (Nat.le_succ j) hlt').complained _,
          fun hstart _ => ?_⟩)
        have ha := ha hstart hdeep
        have hx : y = _ := ha.expr
        have hr := ha.rest.symm.trans (hcolon.trans (congrArg _ hfirst))
        rw [(ClimbRun.noBranch hk hq hc rfl hr his).eq, ← hx]
        exact { (ha.complain _) with expr := rfl, rest := hfirst }
    · rw [if_neg his]
      refine hnoColon colon.start (fun _ => by rw [hcolon]; rfl) fun colon' after hr => ?_
      cases hcolon.symm.trans hr
      exact his
  · refine .bind (hlook s') ?_
    rw [h.is_mark, if_neg Bool.false_ne_true]
    exact hnoColon last.start (fun hstart => by rw [hcolon]; exact hstart)
      fun colon after hr => by cases hcolon.symm.trans hr

theorem arrives_operators (h : EndMarked ts last) {lo steps i : Nat} {sub : Walker}
    (hs : Follows env ts last lo sub) (level ceiling : Nat) (hlo : lo ≤ i + 1) (left : Expr)
    (hi : i ≤ ts.length) (hsteps : ts.length < steps + i) (s : State) :
    Arrives (operators (ts ++ [last]) sub level ceiling steps left i) s
      (Walked env ts last level i s (s.tooDeep = true → ts.drop i = [])
        (climb env (reader env (env.context.depthLimit - s.depth)) ceiling left (ts.drop i))) := by
  induction steps generalizing left i s with
  | zero => omega
  | succ steps ih =>
    rw [operators]
    refine .bind (a := s) rfl ?_
    by_cases hdeep : s.tooDeep = true
    · rw [if_pos hdeep]
      refine .pure ⟨.refl hi, fun _ hf => ?_⟩
      rw [hf hdeep, climb_nil]
      exact .quiet s _ (hf hdeep)
    rw [if_neg hdeep]
    have hdeep := Bool.eq_false_iff.2 hdeep
    have hnext : Continues env ts last level ceiling (env.context.depthLimit - s.depth) (i + 1)
        (operators (ts ++ [last]) sub level ceiling steps) := by
      intro left j s' hij hj hbudget
      rw [hbudget]
      exact ih (by omega) left hj (by omega) s'
    have hstop (hends : Ends ceiling (ts.drop i)) :
        Arrives (pure (left, i)) s
          (Walked env ts last level i s (s.tooDeep = true → ts.drop i = [])
            (climb env (reader env (env.context.depthLimit - s.depth)) ceiling left
              (ts.drop i))) := by
      rw [(ClimbRun.stop hends).eq]
      exact .pure ⟨.refl hi, fun _ _ => .quiet s left rfl⟩
    obtain ⟨tok, hlook, hdrop, hkind, hlt⟩ | ⟨hlook, hdrop, -⟩ := h.cases hi
    · refine .bind (hlook s) ?_
      by_cases hsymbol : tok.kind ≠ .symbol
      · rw [if_pos hsymbol]
        refine hstop ?_
        rw [hdrop]
        exact fun hk => absurd hk hsymbol
      rw [if_neg hsymbol]
      by_cases hq : tok.is "?" = true
      · rw [if_pos hq]
        by_cases hc : ceiling < ternaryPrecedence
        · rw [if_pos hc]
          refine hstop ?_
          rw [hdrop]
          exact fun _ => ⟨fun _ => hc, fun op hop => absurd hq (not_mark_of_ofSymbol hop)⟩
        · rw [if_neg hc]
          exact arrives_conditional h hs hlo left hlt hdeep hnext hdrop hsymbol hq hc _
      · rw [if_neg hq]
        cases hop : InfixOp.ofSymbol? tok.literal with
        | none =>
          refine hstop ?_
          rw [hdrop]
          exact fun _ => ⟨fun h => absurd h hq, fun op h => by cases hop.symm.trans h⟩
        | some op =>
          simp only
          by_cases hc : ceiling < op.precedence
          · rw [if_pos hc]
            refine hstop ?_
            rw [hdrop]
            refine fun _ => ⟨fun h => absurd h hq, fun op' h => ?_⟩
            cases hop.symm.trans h
            exact hc
          · rw [if_neg hc]
            exact arrives_binary h hs hlo left hlt hdeep hnext hdrop hsymbol hop hc _
    · refine .bind (hlook s) ?_
      rw [h.mark, if_pos (by decide)]
      refine hstop ?_
      rw [hdrop]
      trivial

/-- There is a token at every place, and it stands where the reading of expressions is. -/
theorem EndMarked.exists_look (h : EndMarked ts last) (env : Env) {i : Nat} (hi : i ≤ ts.length) :
    ∃ tok, (∀ s, look (ts ++ [last]) i s = some (tok, s)) ∧
      (last.start = env.text.length → tok.start = env.position (ts.drop i)) := by
  obtain ⟨tok, hlook, hdrop, -, -⟩ | ⟨hlook, hdrop, -⟩ := h.cases hi
  · exact ⟨tok, hlook, fun _ => by rw [hdrop]; rfl⟩
  · exact ⟨last, hlook, fun hstart => by rw [hdrop]; exact hstart⟩

theorem Bounded.nested {limit size level i j : Nat} {s s' : State} (hdepth : s.depth < limit)
    (h : Bounded limit size (level + 1) i
      { s with depth := s.depth + 1, deepest := max s.deepest (level + 1) } j s') :
    Bounded limit size level i s j { s' with depth := s'.depth - 1 } := by
  refine ⟨h.le, h.inside, ?_, ?_⟩
  · rw [h.depth]
    rfl
  · have hd := h.deepest
    simp only at hd ⊢
    omega

theorem follows_expr (h : EndMarked ts last) {lo steps : Nat}
    (hsteps : ts.length + 2 < steps + lo) :
    Follows env ts last lo (expr env (ts ++ [last]) steps) := by
  induction steps generalizing lo with
  | zero =>
    intro level ceiling i s hlo hi
    omega
  | succ steps ih =>
    intro level ceiling i s hlo hi
    obtain ⟨tok, hlook, hposition⟩ := h.exists_look env hi
    refine .bind (a := ()) rfl (.bind (hlook _) ?_)
    by_cases hover : env.context.depthLimit < s.depth + 1
    · have hend := endMark_eq ts last
      have hzero : env.context.depthLimit - s.depth = 0 := by omega
      refine .bind (enter_over hover) (.bind (a := ()) rfl (.pure ⟨⟨?_, ?_, rfl, ?_⟩, ?_⟩))
      · rwa [hend]
      · exact Nat.le_of_eq hend
      · simp only
        omega
      · intro hstart hf
        rw [hzero]
        refine ⟨rfl, ?_, (if_neg (Bool.eq_false_iff.1 hf)).trans ?_, (Bool.or_true _).symm⟩
        · rw [hend, List.drop_length]
          rfl
        · rw [hposition hstart]
          rfl
    · have hdepth : s.depth < env.context.depthLimit := by omega
      obtain ⟨budget, hbudget⟩ : ∃ b, env.context.depthLimit - s.depth = b + 1 :=
        ⟨env.context.depthLimit - (s.depth + 1), by omega⟩
      have hinner : env.context.depthLimit - (s.depth + 1) = budget := by omega
      refine .bind (enter_within tok.start hover) ?_
      have hs : Follows env ts last (i + 1) (expr env (ts ++ [last]) steps) := ih (by omega)
      obtain ⟨⟨x, j⟩, s', hrun, hb, ha⟩ := arrives_operand h hs (level + 1)
        (Nat.le_refl (i + 1)) [] hi (by omega : ts.length + 1 < steps + i)
        { s with depth := s.depth + 1, deepest := max s.deepest (level + 1) }
      refine .bind hrun ?_
      have hle := hb.le
      obtain ⟨r, s'', hrun', hw⟩ := arrives_operators h hs (level + 1) ceiling
        (by omega) x hb.inside (by omega : ts.length < steps + j) s'
      refine .bind hrun' (.bind (a := ()) rfl (.pure ⟨(hb.trans hw.bounded).nested hdepth,
        fun hstart hf => ?_⟩))
      have ha := ha hstart hf
      rw [hb.depth] at hw
      simp only [hinner] at ha hw
      have hread := ha.andThen (hw.agrees hstart fun hd => by
        rw [ha.tooDeep, hf, Bool.false_or] at hd
        exact ha.rest.trans ((ended_readOperand (ends_reader env budget)
          (operandRun budget [] _)).rest_eq_nil hd))
      have hx : x = _ := ha.expr
      rw [hbudget, reader_succ, readOperation]
      rw [hx, ha.rest] at hread
      exact ⟨hread.expr, hread.rest, hread.diagnostics, hread.tooDeep⟩

/-- From every place of tokens that end with their only end mark, and in every state, each part of
the walk comes to an end. It looks at tokens that are there only, stops between its start and the
end mark, leaves the count of nesting as it was, and finds what the readers find. The number of
expressions that are open at one time is at most the limit and one. What a name stands for, with the
sizes that are asked for, is taken to be answered (`TypeTable.byteSize`). -/
theorem walk_stays_inside (env : Env) (h : EndMarked ts last) {steps i : Nat} (hi : i ≤ ts.length)
    (hsteps : ts.length + 2 < steps + i) (s : State) (level : Nat) :
    (∀ ceiling, Arrives (expr env (ts ++ [last]) steps level ceiling i) s
      (Walked env ts last level i s (s.tooDeep = false)
        ((reader env (env.context.depthLimit - s.depth)).read ceiling (ts.drop i)))) ∧
    Arrives (operand env (ts ++ [last]) (expr env (ts ++ [last]) steps) level steps [] i) s
      (Walked env ts last level i s (s.tooDeep = false)
        (readUnary env (reader env (env.context.depthLimit - s.depth))
          (env.context.depthLimit - s.depth) (ts.drop i))) ∧
    Arrives (atom env (ts ++ [last]) (expr env (ts ++ [last]) steps) level steps i) s
      (Walked env ts last level i s (s.tooDeep = false)
        (readAtom env (reader env (env.context.depthLimit - s.depth)) (ts.drop i))) ∧
    (∀ x, Arrives (postfixes (ts ++ [last]) (expr env (ts ++ [last]) steps) level steps x i) s
      (Walked env ts last level i s (s.tooDeep = true → ts.drop i = [])
        (readPostfix (reader env (env.context.depthLimit - s.depth)) x (ts.drop i)))) ∧
    (∀ report, Arrives (typeExpr env (ts ++ [last]) report steps i) s
      (TypeRead ts report i s (TypeExpr.read env.context env.text (ts.drop i)))) ∧
    ∀ ceiling, Arrives (expr env (ts ++ [last]) steps 0 ceiling i) { depth := 0 }
      fun _ s' => s'.deepest ≤ env.context.depthLimit + 1 := by
  have hs : Follows env ts last (i + 1) (expr env (ts ++ [last]) steps) :=
    follows_expr h (by omega)
  have hexpr : Follows env ts last i (expr env (ts ++ [last]) steps) := follows_expr h hsteps
  refine ⟨fun ceiling => hexpr level ceiling i s (Nat.le_refl i) hi, ?_, ?_, fun x => ?_,
    fun report => arrives_typeExpr _ h report hi (by omega) s, fun ceiling => ?_⟩
  · rw [readUnary_eq]
    exact arrives_operand h hs _ (Nat.le_refl _) [] hi (by omega) s
  · exact arrives_atom h hs _ (Nat.le_refl _) hi (by omega) s
  · exact arrives_postfixes h hs (Nat.le_refl _) x hi (by omega) s
  · refine (hexpr 0 ceiling i { depth := 0 } (Nat.le_refl i) hi).mono fun r s' hw => ?_
    have hd := hw.bounded.deepest
    simp only at hd
    omega

/-- From the inner parenthesis of nested ones, under a limit that is too low for them. -/
theorem walk_stays_inside_nested :
    EndMarked (Lexer.scan "((1 ? -2 : sizeof(int[3])))") (.eof 27) ∧
      1 ≤ (Lexer.scan "((1 ? -2 : sizeof(int[3])))").length ∧
      (Lexer.scan "((1 ? -2 : sizeof(int[3])))").length + 2 < 20 + 1 ∧
      Arrives (expr ⟨.bare .x64 3, "((1 ? -2 : sizeof(int[3])))"⟩
          (Lexer.scan "((1 ? -2 : sizeof(int[3])))" ++ [.eof 27]) 20 1 maxPrecedence 1) { depth := 1 }
        (Walked ⟨.bare .x64 3, "((1 ? -2 : sizeof(int[3])))"⟩
          (Lexer.scan "((1 ? -2 : sizeof(int[3])))") (.eof 27) 1 1 { depth := 1 }
          (({ depth := 1 } : State).tooDeep = false)
          ((reader ⟨.bare .x64 3, "((1 ? -2 : sizeof(int[3])))"⟩ 2).read maxPrecedence
            ((Lexer.scan "((1 ? -2 : sizeof(int[3])))").drop 1))) := by
  have h : EndMarked (Lexer.scan "((1 ? -2 : sizeof(int[3])))") (.eof 27) :=
    ⟨by decide +kernel, rfl⟩
  have hi : 1 ≤ (Lexer.scan "((1 ? -2 : sizeof(int[3])))").length := by decide +kernel
  have hsteps : (Lexer.scan "((1 ? -2 : sizeof(int[3])))").length + 2 < 20 + 1 := by
    decide +kernel
  exact ⟨h, hi, hsteps, (walk_stays_inside _ h hi hsteps { depth := 1 } 1).1 maxPrecedence⟩

/-- A parse is a walk from the first token, and a complaint about the token that it stops at. -/
theorem parse_eq_walk (c : Context) (text : Text) (h : EndMarked ts (.eof text.length))
    (hne : ts ≠ []) :
    ∃ x j s', expr ⟨c, text⟩ (ts ++ [.eof text.length]) (ts.length + 3) 0 maxPrecedence 0
        { depth := 0 } = some ((x, j), s') ∧
      parse c text ts = (x, s'.diagnostics ++
        match ts.drop j with
        | tok :: _ => if s'.tooDeep then [] else [⟨tok.start, .unexpectedToken tok.literal⟩]
        | [] => []) := by
  have hs : Follows ⟨c, text⟩ ts (.eof text.length) 0
      (expr ⟨c, text⟩ (ts ++ [.eof text.length]) (ts.length + 3)) :=
    follows_expr h (Nat.lt_succ_self _)
  obtain ⟨⟨x, j⟩, s', hrun, hw⟩ :=
    hs 0 maxPrecedence 0 { depth := 0 } (Nat.le_refl 0) (Nat.zero_le _)
  refine ⟨x, j, s', hrun, ?_⟩
  have ha := hw.agrees rfl rfl
  have hdiagnostics := ha.diagnostics
  have hdeep := ha.tooDeep
  have hx : x = _ := ha.expr
  have hempty : ts.isEmpty = false := List.isEmpty_eq_false_iff.2 hne
  simp only [List.nil_append, Bool.false_or, List.drop_zero, Nat.sub_zero] at hdiagnostics hdeep hx
  have hrest := ha.rest
  simp only [List.drop_zero, Nat.sub_zero] at hrest
  simp only [parse, hempty, Bool.false_eq_true, if_false, ← hrest, hdiagnostics, hdeep, hx]
  cases ts.drop j with
  | nil => simp only [List.append_nil]
  | cons tok rest =>
    simp only
    split
    · rw [List.append_nil]
    · rfl

end

end WatchExpr.Cursor
