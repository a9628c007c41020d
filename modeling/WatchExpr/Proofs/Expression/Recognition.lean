import WatchExpr.Proofs.Expression.Reading

namespace WatchExpr

namespace Token

/-- Identifiers, and no other tokens, start like identifiers. -/
def Proper (tok : Token) : Prop :=
  tok.kind = .identifier ↔ tok.literal.head?.any Lexer.isIdentifierStart = true

variable {tok : Token} {w : Text}

theorem Proper.symbol_of_is (h : tok.Proper) (hi : tok.is w = true)
    (hw : w.head?.any Lexer.isIdentifierStart = false) : tok.erase = .symbol w := by
  simp only [is, Bool.and_eq_true, Bool.or_eq_true, beq_iff_eq] at hi
  obtain ⟨hk | hk, rfl⟩ := hi
  · rw [erase, hk]
    rfl
  · rw [h.1 hk] at hw
    cases hw

theorem Proper.word_of_is (h : tok.Proper) (hi : tok.is w = true)
    (hw : w.head?.any Lexer.isIdentifierStart = true) : tok.erase = .word w := by
  simp only [is, Bool.and_eq_true, beq_iff_eq] at hi
  obtain ⟨-, rfl⟩ := hi
  rw [erase, h.2 hw]
  rfl

end Token

section Types
variable {c : Context} {text : Text} {ts : List Token}

theorem spells_of_readSuffixes {t : WrittenType} {us : List Token} {start : Nat} {e e' : TypeExpr}
    (hp : ∀ tok ∈ ts, tok.Proper) (ht : t.Spells c text us) (he : e.unplaced = t.tree c)
    (hr : (TypeExpr.readSuffixes start e ts).type = some e') :
    ∃ (t' : WrittenType) (vs : List Token), ts = vs ++ (TypeExpr.readSuffixes start e ts).rest ∧
      t'.Spells c text (us ++ vs) ∧ e'.unplaced = t'.tree c := by
  have hstop {ts : List Token} {t : WrittenType} {us : List Token} {e e' : TypeExpr}
      (ht : t.Spells c text us) (he : e.unplaced = t.tree c) (hr : some e = some e') :
      ∃ (t' : WrittenType) (vs : List Token), ts = vs ++ ts ∧ t'.Spells c text (us ++ vs) ∧
        e'.unplaced = t'.tree c := by
    cases hr
    exact ⟨t, [], rfl, by rwa [List.append_nil], he⟩
  fun_induction TypeExpr.readSuffixes start e ts generalizing t us with
  | case1 => exact hstop ht he hr
  | case2 e tok rest hstar ih =>
    obtain ⟨hp, hps⟩ := List.forall_mem_cons.1 hp
    have ht' := ht.pointer (hp.symbol_of_is hstar (by decide))
    obtain ⟨t', vs, hts, hs, he'⟩ := ih hps ht' (congrArg (TypeExpr.pointer .nowhere) he) hr
    exact ⟨t', tok :: vs, congrArg (tok :: ·) hts, by simpa using hs, he'⟩
  | case3 e tok hstar hopen n close after hn count hc ih =>
    simp only [List.forall_mem_cons] at hp
    obtain ⟨hp, -, hp', hps⟩ := hp
    have ht' := ht.array (hp.symbol_of_is hopen (by decide)) hn.1 (Option.isSome_of_eq_some hc)
      (hp'.symbol_of_is hn.2 (by decide))
    have htree : (TypeExpr.array ⟨start, close.stop⟩ e count).unplaced =
        (WrittenType.array t n.literal).tree c := by
      rw [TypeExpr.unplaced, he, WrittenType.tree, hc]
      rfl
    obtain ⟨t', vs, hts, hs, he'⟩ := ih hps ht' htree hr
    exact ⟨t', tok :: n :: close :: vs, congrArg (tok :: n :: close :: ·) hts, by simpa using hs,
      he'⟩
  | case4 => cases hr
  | case5 => exact hstop ht he hr
  | case6 => exact hstop ht he hr
  | case7 => exact hstop ht he hr

theorem isSome_readSuffixes {start : Nat} {e : TypeExpr}
    (hd : (TypeExpr.readSuffixes start e ts).diagnostics = []) :
    (TypeExpr.readSuffixes start e ts).type.isSome := by
  fun_induction TypeExpr.readSuffixes start e ts with
  | case2 _ _ _ _ ih => exact ih hd
  | case3 _ _ _ _ _ _ _ _ _ _ ih => exact ih hd
  | case4 => cases hd
  | _ => rfl

theorem signWord_of_isSignWord {tok : Token} (hp : tok.Proper) (hs : TypeExpr.isSignWord tok) :
    ∃ isUnsigned, tok.erase = .word (WrittenType.signWord isUnsigned) ∧
      tok.is "unsigned" = isUnsigned := by
  cases hu : tok.is "unsigned" with
  | true => exact ⟨true, hp.word_of_is hu (by decide), rfl⟩
  | false =>
    rw [TypeExpr.isSignWord, hu, Bool.false_or] at hs
    exact ⟨false, hp.word_of_is hs (by decide), rfl⟩

theorem readSigned_cases (text : Text) (tok : Token) (rest : List Token) :
    TypeExpr.readSigned text tok rest = (TypeExpr.signedType text tok tok .s32, rest) ∨
      ∃ next after k, rest = next :: after ∧ next.kind = .identifier ∧
        builtinType? next.literal = some k ∧ k.group.isInteger ∧
        TypeExpr.readSigned text tok rest = (TypeExpr.signedType text tok next k, after) := by
  cases rest with
  | nil => exact .inl rfl
  | cons next after =>
    simp only [TypeExpr.readSigned]
    split
    · rename_i k hk
      split
      · rename_i hi
        split at hk
        · rename_i hn
          exact .inr ⟨next, after, k, rfl, hn, hk, hi, rfl⟩
        · cases hk
      · exact .inl rfl
    · exact .inl rfl

theorem spells_of_read {e : TypeExpr} (hp : ∀ tok ∈ ts, tok.Proper)
    (hr : (TypeExpr.read c text ts).type = some e) :
    ∃ (t : WrittenType) (us : List Token), ts = us ++ (TypeExpr.read c text ts).rest ∧
      t.Spells c text us ∧ e.unplaced = t.tree c := by
  cases ts with
  | nil => cases hr
  | cons tok rest =>
    obtain ⟨htok, hrest⟩ := List.forall_mem_cons.1 hp
    simp only [TypeExpr.read] at hr ⊢
    split at hr
    · rename_i hs
      rw [if_pos hs]
      obtain ⟨isUnsigned, hword, hu⟩ := signWord_of_isSignWord htok hs
      obtain hread | ⟨next, after, k, rfl, hk, hb, hi, hread⟩ := readSigned_cases text tok rest
      · rw [hread] at hr ⊢
        have htree : (TypeExpr.signedType text tok tok .s32).unplaced =
            (WrittenType.signed isUnsigned none (slice text tok tok)).tree c := by
          rw [TypeExpr.signedType, hu]
          rfl
        obtain ⟨t, us, hts, ht, he⟩ := spells_of_readSuffixes hrest (.sign hword) htree hr
        exact ⟨t, tok :: us, congrArg (tok :: ·) hts, ht, he⟩
      · rw [hread] at hr ⊢
        have htree : (TypeExpr.signedType text tok next k).unplaced =
            (WrittenType.signed isUnsigned (some next.literal) (slice text tok next)).tree c := by
          rw [TypeExpr.signedType, hu, WrittenType.tree, Option.bind_some, hb]
          rfl
        obtain ⟨t, us, hts, ht, he⟩ := spells_of_readSuffixes
          (List.forall_mem_cons.1 hrest).2 (.signed hword hk hb hi) htree hr
        exact ⟨t, tok :: next :: us, congrArg (tok :: next :: ·) hts, ht, he⟩
    · rename_i hs
      rw [if_neg hs]
      split at hr
      · rename_i hk
        rw [if_pos hk]
        split at hr
        · rename_i k hn
          have htree : (TypeExpr.named tok.span tok.literal k).unplaced =
              (WrittenType.name tok.literal).tree c := by
            rw [TypeExpr.unplaced, WrittenType.tree, hn]
            rfl
          obtain ⟨t, us, hts, ht, he⟩ := spells_of_readSuffixes hrest
            (.name hk (Bool.eq_false_iff.2 hs) (Option.isSome_of_eq_some hn)) htree hr
          exact ⟨t, tok :: us, congrArg (tok :: ·) hts, ht, he⟩
        · cases hr
      · cases hr

theorem spells_of_readClosedType {env : Parser.Env} {e : TypeExpr} {after : List Token}
    (hp : ∀ tok ∈ ts, tok.Proper) (hr : Parser.readClosedType env ts = .ok (e, after)) :
    ∃ (t : WrittenType) (us : List Token) (ket : Token), ts = us ++ ket :: after ∧
      ket.erase = .symbol ")" ∧ t.Spells env.context env.text us ∧
      e.unplaced = t.tree env.context := by
  obtain ⟨ht, ket, hrest, hclose⟩ := Parser.readClosedType_eq_ok hr
  obtain ⟨t, us, hts, hs, he⟩ := spells_of_read hp ht
  rw [hrest] at hts
  have hket : ket ∈ ts := by simp [hts]
  exact ⟨t, us, ket, hts, (hp ket hket).symbol_of_is hclose (by decide), hs, he⟩

end Types

/-- What was read from the front of some tokens is written there in a given way. -/
structure Parsed.Spells (p : Parsed) (c : Context) (ts : List Token)
    (P : Written → List Token → Prop) : Prop where
  tooDeep : p.tooDeep = false
  written : ∃ w us, ts = us ++ p.rest ∧ P w us ∧ p.expr.unplaced = w.tree c

namespace Parsed.Spells

variable {p : Parsed} {c : Context} {ts : List Token}

theorem proper {P : Written → List Token → Prop} (h : p.Spells c ts P)
    (hp : ∀ tok ∈ ts, tok.Proper) : ∀ tok ∈ p.rest, tok.Proper := by
  obtain ⟨-, w, us, rfl, -⟩ := h
  exact (List.forall_mem_append.1 hp).2

theorem behind {P : Written → List Token → Prop} {us vs : List Token}
    (h : p.Spells c ts fun w ws => P w (us ++ vs ++ ws)) {deep : Bool} (hdeep : deep = false)
    (ds : List Diagnostic) :
    Parsed.Spells { p with diagnostics := ds, tooDeep := deep || p.tooDeep } c (vs ++ ts)
      fun w ws => P w (us ++ ws) := by
  obtain ⟨hdeep', w, ws, hts, hw, he⟩ := h
  refine ⟨by rw [hdeep, hdeep']; rfl, w, vs ++ ws, ?_, by rwa [← List.append_assoc], he⟩
  rw [List.append_assoc]
  exact congrArg (vs ++ ·) hts

end Parsed.Spells

namespace Parser

/-- What a reader reads without complaints is in a grammar. -/
def Recognizes (env : Env) (sub : Reader) (R : Nat → Written → List Token → Prop) : Prop :=
  ∀ ceiling ts, (∀ tok ∈ ts, tok.Proper) → (sub.read ceiling ts).diagnostics = [] →
    Ends ceiling (sub.read ceiling ts).rest ∧
      (sub.read ceiling ts).Spells env.context ts (R ceiling)

variable {env : Env} {sub : Reader} {R : Nat → Written → List Token → Prop}

theorem spells_readToken {tok : Token} (hs : TypeExpr.isSignWord tok = false)
    (hd : (readToken env tok).2 = []) : ∃ w, Written.Core env.context env.text R w [tok] ∧
      (readToken env tok).1.unplaced = w.tree env.context := by
  simp only [readToken] at hd ⊢
  split at hd
  · rename_i hk
    have hr := env.context.map_resolve tok.literal .nowhere tok.span Expr.placeless_unplaced
    cases he : env.context.resolve tok.literal tok.span with
    | error d => simp [he] at hd
    | ok e =>
      rw [he] at hr
      cases he' : env.context.resolve tok.literal .nowhere with
      | error d =>
        rw [he'] at hr
        cases hr
      | ok e' =>
        rw [he'] at hr
        refine ⟨.name tok.literal, .name hk hs he', ?_⟩
        rw [Written.tree, he']
        exact Except.ok.inj hr
  · rename_i hk
    cases hn : Literal.readNumber? tok.literal with
    | none => simp [hn] at hd
    | some n =>
      refine ⟨.number tok.literal, .number hk (Option.isSome_of_eq_some hn), ?_⟩
      cases n <;> simp [Written.tree, hn, Expr.unplaced]
  · rename_i hk
    cases hv : Literal.readChar tok.literal with
    | error d => simp [hv] at hd
    | ok r =>
      obtain ⟨v, more⟩ := r
      cases more with
      | true => simp [hv] at hd
      | false =>
        refine ⟨.char tok.literal, .char hk hv, ?_⟩
        simp [Written.tree, hv, Expr.unplaced]
  all_goals cases hd

section
variable (hsub : Recognizes env sub R) {ts : List Token} {p : Parsed}
include hsub

/-- A nesting that is too deep would have been complained about. -/
theorem Recognizes.unclosed_ne_nil {ceiling : Nat} {i : Parsed} (hp : ∀ tok ∈ ts, tok.Proper)
    (hi : sub.read ceiling ts = i) (d : Diagnostic) :
    (if i.tooDeep then i.diagnostics else i.diagnostics ++ [d]) ≠ [] := by
  subst hi
  intro hd
  split at hd
  · rename_i hdeep
    rw [(hsub ceiling ts hp hd).2.tooDeep] at hdeep
    cases hdeep
  · simp at hd

theorem spells_readAtom (hp : ∀ tok ∈ ts, tok.Proper) (hrun : AtomRun env sub ts p)
    (hd : p.diagnostics = []) :
    p.Spells env.context ts (Written.Core env.context env.text R) := by
  cases hrun with
  | nil => cases hd
  | @closed tok ket rest after i hopen hi hr hclose =>
    subst hi
    obtain ⟨htok, hrest⟩ := List.forall_mem_cons.1 hp
    obtain ⟨-, hdeep, w, us, hts, hw, he⟩ := hsub maxPrecedence rest hrest hd
    rw [hr] at hts
    have hbra := htok.symbol_of_is hopen.2 (by decide)
    have hket := (hrest ket (by simp [hts])).symbol_of_is hclose (by decide)
    exact ⟨hdeep, w, tok :: us ++ [ket], by simp [hts], .enclosed hbra hw hket, he⟩
  | unclosed _ hi =>
    exact absurd hd (hsub.unclosed_ne_nil (List.forall_mem_cons.1 hp).2 hi _)
  | @written tok rest p hsign hread =>
    subst hread
    have hsome : (TypeExpr.read env.context env.text (tok :: rest)).type.isSome := by
      simp only [TypeExpr.read, hsign.2, if_true] at hd ⊢
      exact isSome_readSuffixes hd
    obtain ⟨e, he⟩ := Option.isSome_iff_exists.1 hsome
    obtain ⟨t, us, hts, ht, htree⟩ := spells_of_read hp he
    refine ⟨rfl, .type t, us, hts, .type ht, ?_⟩
    rw [he, Written.tree, ← htree]
    rfl
  | @token tok rest hopen hsign =>
    have htok := (List.forall_mem_cons.1 hp).1
    have hsign : TypeExpr.isSignWord tok = false := by
      apply Bool.eq_false_iff.2
      intro hw
      obtain ⟨_, hword, -⟩ := signWord_of_isSignWord htok hw
      exact hsign ⟨Token.kind_word hword, hw⟩
    obtain ⟨w, hw, he⟩ := spells_readToken hsign hd
    exact ⟨rfl, w, [tok], rfl, hw, he⟩

theorem spells_readPostfix {x : Expr} {w : Written} {us : List Token} (hp : ∀ tok ∈ ts, tok.Proper)
    (hw : Written.Core env.context env.text R w us) (hx : x.unplaced = w.tree env.context)
    (hrun : PostfixRun sub x ts p) (hd : p.diagnostics = []) :
    p.Spells env.context ts fun w vs => Written.Core env.context env.text R w (us ++ vs) := by
  induction hrun generalizing w us with
  | stop => exact ⟨rfl, w, [], rfl, by rwa [List.append_nil], hx⟩
  | noName => cases hd
  | @member x tok name rest p hdot hname _ ih =>
    simp only [List.forall_mem_cons] at hp
    obtain ⟨hp, -, hps⟩ := hp
    have hsymbol : tok.erase = .symbol (if tok.is "->" then "->" else "." : String) := by
      cases ha : tok.is "->" with
      | true => exact hp.symbol_of_is ha (by decide)
      | false =>
        rw [ha, Bool.or_false] at hdot
        exact hp.symbol_of_is hdot (by decide)
    have he : (Expr.member ((x.spanOr tok).join name.span) x ⟨name.span, name.literal⟩
        (tok.is "->")).unplaced = (Written.member w name.literal (tok.is "->")).tree env.context := by
      rw [Expr.unplaced, hx, Written.tree]
    obtain ⟨hdeep, w', vs, hts, hw', he'⟩ := ih hps (hw.member hsymbol hname) he hd
    exact ⟨hdeep, w', tok :: name :: vs, congrArg (tok :: name :: ·) hts, by simpa using hw', he'⟩
  | unclosed _ _ hi =>
    exact absurd hd (hsub.unclosed_ne_nil (List.forall_mem_cons.1 hp).2 hi _)
  | @index x tok ket rest after i p _ hopen hi hr hclose _ ih =>
    subst hi
    obtain ⟨htok, hrest⟩ := List.forall_mem_cons.1 hp
    obtain ⟨hdi, hd⟩ := List.append_eq_nil_iff.1 hd
    obtain ⟨-, -, w', vs, hts, hinner, he⟩ := hsub maxPrecedence rest hrest hdi
    rw [hr] at hts
    have hafter : ∀ t ∈ after, t.Proper := fun t ht => hrest t (by simp [hts, ht])
    have htree : (Expr.index ((x.spanOr tok).join ket.span) x
        (sub.read maxPrecedence rest).expr).unplaced = (Written.index w w').tree env.context := by
      rw [Expr.unplaced, hx, he, Written.tree]
    have hbra := htok.symbol_of_is hopen (by decide)
    have hket := (hrest ket (by simp [hts])).symbol_of_is hclose (by decide)
    obtain ⟨hdeep, w'', vs', hts', hw', he'⟩ := ih hafter (hw.index hbra hinner hket) htree hd
    refine ⟨hdeep, w'', tok :: vs ++ ket :: vs', ?_, by simpa using hw', he'⟩
    rw [hts, List.append_assoc, List.cons_append, List.cons_append]
    exact congrArg (fun us => tok :: (vs ++ ket :: us)) hts'

end

inductive PrefixMark (env : Env) (tok : Token) (rest : List Token) : Mark → List Token → Prop
  | sigil {s : Sigil} (ht : tok.erase = .symbol s.symbol) : PrefixMark env tok rest s.mark rest
  | sizeof (ht : tok.erase = .word "sizeof")
      (hrest : ∀ paren inner, rest = paren :: inner → paren.is "(" → env.context.startsType inner →
        ∀ r, readClosedType env inner ≠ .ok r) : PrefixMark env tok rest .sizeof rest
  | cast {t : TypeExpr} {after : List Token} (ho : tok.erase = .symbol "(")
      (hs : env.context.startsType rest) (ht : readClosedType env rest = .ok (t, after)) :
      PrefixMark env tok rest (.cast t) after

theorem PrefixMark.proper {tok : Token} {rest after : List Token} {m : Mark}
    (h : PrefixMark env tok rest m after) (hp : ∀ t ∈ rest, t.Proper) : ∀ t ∈ after, t.Proper := by
  cases h with
  | sigil => exact hp
  | sizeof => exact hp
  | cast _ _ ht =>
    obtain ⟨_, us, ket, rfl, -⟩ := spells_of_readClosedType hp ht
    intro t hmem
    exact hp t (List.mem_append_right us (List.mem_cons_of_mem ket hmem))

theorem simpleMark?_eq_some {tok : Token} {m : Mark} (hp : tok.Proper)
    (h : simpleMark? tok = some m) : ∃ s : Sigil, tok.erase = .symbol s.symbol ∧ s.mark = m := by
  simp only [simpleMark?] at h
  split at h
  · rename_i hi
    cases h
    exact ⟨.operator .neg, hp.symbol_of_is hi (by decide), rfl⟩
  · split at h
    · rename_i hi
      cases h
      exact ⟨.operator .logNot, hp.symbol_of_is hi (by decide), rfl⟩
    · split at h
      · rename_i hi
        cases h
        exact ⟨.operator .bitNot, hp.symbol_of_is hi (by decide), rfl⟩
      · split at h
        · rename_i hi
          cases h
          exact ⟨.deref, hp.symbol_of_is hi (by decide), rfl⟩
        · split at h
          · rename_i hi
            cases h
            exact ⟨.addressOf, hp.symbol_of_is hi (by decide), rfl⟩
          · cases h

theorem prefixStep_eq_mark {tok : Token} {rest after : List Token} {m : Mark} {ds : List Diagnostic}
    (hp : tok.Proper) (h : prefixStep env tok rest = .mark m after ds) :
    PrefixMark env tok rest m after := by
  cases markRun h with
  | simple hm =>
    obtain ⟨s, hs, rfl⟩ := simpleMark?_eq_some hp hm
    exact .sigil hs
  | sizeof hw hrest =>
    refine .sizeof (hp.word_of_is hw.2 (by decide)) fun paren inner hcons hopen hs r hr => ?_
    rw [hrest paren inner hcons hopen hs] at hr
    cases hr
  | cast ho hs hc => exact .cast (hp.symbol_of_is ho (by decide)) hs hc

/-- Reading after some prefix operators gives an operand that they are applied to. A cast at its
front was seen as one. -/
structure OperandSpells (env : Env) (R : Nat → Written → List Token → Prop) (budget : Nat)
    (marks : List Prefixed) (ts : List Token) (p : Parsed) : Prop where
  tooDeep : p.tooDeep = false
  written : ∃ n w us e, marks.length + n ≤ budget ∧ ts = us ++ p.rest ∧
    Written.Unary env.context env.text R n w us ∧ p.expr = applyAll marks e ∧
    e.unplaced = w.tree env.context ∧
    (w.isCast → 0 < n → ∃ paren inner r, ts = paren :: inner ∧ paren.is "(" = true ∧
      env.context.startsType inner = true ∧ readClosedType env inner = .ok r)

theorem spells_readOperand (hsub : Recognizes env sub R) {budget : Nat} {marks : List Prefixed}
    {ts : List Token} {p : Parsed} (hp : ∀ tok ∈ ts, tok.Proper) (hm : marks.length ≤ budget)
    (hrun : OperandRun env sub budget marks ts p) (hd : p.diagnostics = []) :
    OperandSpells env R budget marks ts p := by
  induction hrun with
  | core _ ha hf =>
    obtain ⟨hda, hdf⟩ := List.append_eq_nil_iff.1 hd
    have hatom := spells_readAtom hsub hp ha hda
    have hrest := hatom.proper hp
    obtain ⟨hdeep, w, us, hts, hw, he⟩ := hatom
    obtain ⟨hdeep', w', vs, hts', hw', he'⟩ := spells_readPostfix hsub hrest hw he hf hdf
    refine ⟨by simp [hdeep, hdeep'], 0, w', us ++ vs, _, hm, ?_, .core hw', rfl, he',
      fun _ h => absurd h (Nat.lt_irrefl 0)⟩
    rw [List.append_assoc]
    exact hts.trans (congrArg (us ++ ·) hts')
  | @sizeOfType marks tok rest after t hstep =>
    obtain ⟨htok, hrest⟩ := List.forall_mem_cons.1 hp
    obtain ⟨hw, paren, inner, rfl, hopen, -, hclosed⟩ := prefixStep_eq_sizeOfType hstep
    obtain ⟨hparen, hinner⟩ := List.forall_mem_cons.1 hrest
    obtain ⟨t', us, ket, rfl, hket, ht, he⟩ := spells_of_readClosedType hinner hclosed
    refine ⟨rfl, 0, .sizeOfType t', tok :: paren :: us ++ [ket],
      Prefixed.apply ⟨.sizeof, tok⟩ (.type t), hm, by simp,
      .sizeOfType (htok.word_of_is hw.2 (by decide)) (hparen.symbol_of_is hopen (by decide)) ht
        hket, rfl, ?_, fun h => by cases h⟩
    rw [Written.tree, ← he]
    rfl
  | tooDeep => simp at hd
  | @mark marks tok rest after m ds p hstep hb _ ih =>
    obtain ⟨htok, hrest⟩ := List.forall_mem_cons.1 hp
    have hmark := prefixStep_eq_mark htok hstep
    obtain ⟨hdeep, n, w, us, e, hle, hts, hw, hexpr, he, hcast⟩ :=
      ih (hmark.proper hrest) hb (List.append_eq_nil_iff.1 hd).2
    rw [List.length_cons] at hle
    have hle : marks.length + (n + 1) ≤ budget := by omega
    cases hmark with
    | @sigil s ht =>
      refine ⟨hdeep, n + 1, .sigil s w, tok :: us, Prefixed.apply ⟨s.mark, tok⟩ e, hle,
        congrArg (tok :: ·) hts, .sigil ht hw, hexpr, ?_, fun h => by cases h⟩
      rw [Written.tree, ← he]
      cases s <;> rfl
    | sizeof ht hno =>
      refine ⟨hdeep, n + 1, .sizeof w, tok :: us, Prefixed.apply ⟨.sizeof, tok⟩ e, hle,
        congrArg (tok :: ·) hts, .sizeof ht hw fun hc => ?_, hexpr, ?_, fun h => by cases h⟩
      · apply Nat.eq_zero_of_not_pos
        intro hpos
        obtain ⟨paren, inner, r, hrest, hopen, hstart, hclosed⟩ := hcast hc hpos
        exact hno paren inner hrest hopen hstart r hclosed
      · rw [Written.tree, ← he]
        rfl
    | @cast t after ho hs hclosed =>
      obtain ⟨t', vs, ket, hvs, hket, ht, het⟩ := spells_of_readClosedType hrest hclosed
      refine ⟨hdeep, n + 1, .cast t' w, tok :: vs ++ ket :: us,
        Prefixed.apply ⟨.cast t, tok⟩ e, hle, ?_, .cast ho ht hket hw, hexpr, ?_,
        fun _ _ => ⟨tok, rest, _, rfl, Token.is_symbol ho _, hs, hclosed⟩⟩
      · rw [hvs, List.append_assoc, List.cons_append, List.cons_append]
        exact congrArg (fun us => tok :: (vs ++ ket :: us)) hts
      · rw [Written.tree, ← he, ← het]
        rfl

theorem symbol_of_ofSymbol {tok : Token} {op : InfixOp} (hk : tok.kind = .symbol)
    (h : InfixOp.ofSymbol? tok.literal = some op) : tok.erase = .symbol op.symbol := by
  have hsymbol := List.find?_some h
  rw [Token.erase, hk, eq_of_beq hsymbol]
  rfl

theorem le_of_closing {level ceiling : Nat} (h : closing level < ceiling)
    (hc : ceiling ≤ ternaryPrecedence) : level ≤ ceiling ∧ level ≤ ternaryPrecedence - 1 := by
  rw [closing] at h
  split at h <;> omega

/-- Operators are read after an operand that is no looser than what may come before them. -/
theorem spells_climb (hsub : Recognizes env sub R) {budget ceiling level : Nat} {left : Expr}
    {w : Written} {us ts : List Token} {p : Parsed} (hp : ∀ tok ∈ ts, tok.Proper)
    (hw : ∀ ceiling, level ≤ ceiling →
      Written.Operation env.context env.text R budget ceiling w us)
    (hl : left.unplaced = w.tree env.context) (hle : level ≤ ceiling) (he : Ends (closing level) ts)
    (hrun : ClimbRun env sub ceiling left ts p) (hd : p.diagnostics = []) :
    Ends ceiling p.rest ∧ p.Spells env.context ts fun w vs =>
      Written.Operation env.context env.text R budget ceiling w (us ++ vs) := by
  induction hrun generalizing w us level with
  | stop h => exact ⟨h, rfl, w, [], rfl, by rw [List.append_nil]; exact hw ceiling hle, hl⟩
  | noColon => exact absurd (List.append_eq_nil_iff.1 hd).2 (List.cons_ne_nil _ _)
  | noBranch => exact absurd (List.append_eq_nil_iff.1 hd).2 (List.cons_ne_nil _ _)
  | @conditional left tok colon rest after yes no whole hk hq hc hyes hr hcolon _ hno _ ih =>
    subst hyes hno
    obtain ⟨htok, hrest⟩ := List.forall_mem_cons.1 hp
    obtain ⟨hd, hdw⟩ := List.append_eq_nil_iff.1 hd
    obtain ⟨hdy, hdn⟩ := List.append_eq_nil_iff.1 hd
    have ht := htok.symbol_of_is hq (by decide)
    obtain ⟨-, -, wy, ys, hys, hwy, hey⟩ := hsub maxPrecedence rest hrest hdy
    rw [hr] at hys
    rw [hys] at hrest
    obtain ⟨hcol, hproper⟩ := List.forall_mem_cons.1 (List.forall_mem_append.1 hrest).2
    obtain ⟨hends, hspells⟩ := hsub ternaryPrecedence after hproper hdn
    have hproper := hspells.proper hproper
    obtain ⟨hdeep, wz, zs, hzs, hwz, hez⟩ := hspells
    -- what stands before the mark is no looser than the operator, or reading had not come here
    have hlevel := (le_of_closing ((he hk).1 hq) (Nat.le_refl _)).2
    have hw' (ceiling : Nat) (hle : ternaryPrecedence ≤ ceiling) :=
      Written.Operation.ternary hle (hw _ hlevel) ht hwy (hcol.symbol_of_is hcolon (by decide)) hwz
    have hlast : Ends (closing ternaryPrecedence) (sub.read ternaryPrecedence after).rest := hends
    have htree (span : Span) : (Expr.ternary span left (sub.read maxPrecedence rest).expr
        (sub.read ternaryPrecedence after).expr).unplaced =
          (Written.ternary w wy wz).tree env.context := by
      rw [Expr.unplaced, hl, hey, hez, Written.tree]
    obtain ⟨hends', hspells'⟩ := ih hproper hw' (htree _) hc hlast hdw
    have hts : tok :: rest =
        (tok :: ys ++ colon :: zs) ++ (sub.read ternaryPrecedence after).rest := by
      rw [List.append_assoc, List.cons_append, List.cons_append, ← hzs, ← hys]
    refine ⟨hends', ?_⟩
    rw [hts]
    exact Parsed.Spells.behind (by simpa using hspells') hdeep _
  | noOperand => cases hd
  | @operator left tok rest op right whole hk hop hc _ hright _ ih =>
    subst hright
    obtain ⟨htok, hrest⟩ := List.forall_mem_cons.1 hp
    obtain ⟨hdr, hdw⟩ := List.append_eq_nil_iff.1 hd
    have ht := symbol_of_ofSymbol hk hop
    obtain ⟨hends, hspells⟩ := hsub (op.precedence - 1) rest hrest hdr
    have hproper := hspells.proper hrest
    obtain ⟨hdeep, wy, ys, hys, hwy, hey⟩ := hspells
    have htern : op.precedence < ternaryPrecedence := Nat.lt_succ_of_le op.precedence_bounds.2
    have hlevel := (le_of_closing ((he hk).2 op hop) (Nat.le_of_lt htern)).1
    have hw' (ceiling : Nat) (hle : op.precedence ≤ ceiling) :=
      Written.Operation.binary hle (hw _ hlevel) ht hwy
    have hlast : Ends (closing op.precedence) (sub.read (op.precedence - 1) rest).rest := by
      rwa [closing, if_pos htern]
    have htree (span : Span) :
        (Expr.binary span op left (sub.read (op.precedence - 1) rest).expr).unplaced =
          (Written.binary op w wy).tree env.context := by
      rw [Expr.unplaced, hl, hey, Written.tree]
    obtain ⟨hends', hspells'⟩ := ih hproper hw' (htree _) hc hlast hdw
    refine ⟨hends', ?_⟩
    rw [show tok :: rest = tok :: ys ++ _ from congrArg (tok :: ·) hys]
    exact hspells'.behind hdeep _

theorem recognizes_reader (env : Env) (budget : Nat) :
    Recognizes env (reader env budget) (Written.Renders env.context env.text budget) := by
  induction budget with
  | zero =>
    intro ceiling ts _ hd
    cases hd
  | succ budget ih =>
    intro ceiling ts hp hd
    obtain ⟨first, whole, hfirst, hwhole, hr⟩ := reader_run env budget ceiling ts
    rw [hr] at hd ⊢
    obtain ⟨hdf, hdw⟩ := List.append_eq_nil_iff.1 hd
    have hnone : ([] : List Prefixed).length ≤ budget := Nat.zero_le _
    obtain ⟨hdeep, n, w, us, e, hn, hts, hw, hexpr, he, -⟩ :=
      spells_readOperand ih hp hnone hfirst hdf
    rw [List.length_nil, Nat.zero_add] at hn
    rw [hts] at hp
    have hstart (ts : List Token) : Ends (closing 0) ts := by
      cases ts with
      | nil => trivial
      | cons tok ts =>
        exact fun _ => ⟨fun _ => by decide,
          fun op _ => Nat.lt_of_lt_of_le (by decide) op.precedence_bounds.1⟩
    obtain ⟨hends, hdeep', w', vs, hvs, hop, he'⟩ := spells_climb ih
      (List.forall_mem_append.1 hp).2 (fun ceiling _ => .unary hw hn) (by rw [hexpr]; exact he)
      (Nat.zero_le ceiling) (hstart _) hwhole hdw
    refine ⟨hends, by simp [hdeep, hdeep'], w', us ++ vs, ?_, hop, he'⟩
    rw [List.append_assoc]
    exact hts.trans (congrArg (us ++ ·) hvs)

/-- Tokens that are read without complaints are those of a written expression with the tree that
was read, but for more parentheses. -/
theorem renders_of_parse {c : Context} {text : Text} {ts : List Token}
    (hp : ∀ tok ∈ ts, tok.Proper) (hd : (parse c text ts).2 = []) :
    ∃ w : Written, w.Renders c text c.depthLimit maxPrecedence ts ∧
      w.tree c = (parse c text ts).1.unplaced := by
  have hr := recognizes_reader ⟨c, text⟩ c.depthLimit maxPrecedence ts hp
  simp only [parse] at hd ⊢
  split at hd
  · cases hd
  · rename_i hne
    rw [if_neg hne]
    generalize (reader ⟨c, text⟩ c.depthLimit).read maxPrecedence ts = p at hd hr ⊢
    obtain ⟨e, rest, ds, deep⟩ := p
    cases rest with
    | nil =>
      obtain ⟨-, -, w, us, hts, hw, he⟩ := hr hd
      rw [List.append_nil] at hts
      exact ⟨w, hts ▸ hw, he.symm⟩
    | cons tok rest =>
      cases deep with
      | true => cases (hr hd).2.tooDeep
      | false => simp at hd

end Parser

end WatchExpr
