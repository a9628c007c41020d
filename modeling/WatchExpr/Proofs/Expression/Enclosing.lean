import WatchExpr.Proofs.Expression.RoundTrip
import WatchExpr.Proofs.Expression.Shifting
import WatchExpr.Proofs.Lexical.Tiling

namespace WatchExpr

/-- Tokens one place further on, with more behind them. -/
def inside (behind ts : List Token) : List Token := ts.map (Token.shift 1) ++ behind

/-- Behind some tokens a parenthesis is closed. -/
def Closing (behind : List Token) : Prop :=
  ∃ ket more, behind = ket :: more ∧ ket.erase = .symbol ")"

section
variable {behind : List Token}

@[simp] theorem inside_nil : inside behind [] = behind := rfl

@[simp] theorem inside_cons (t : Token) (ts : List Token) :
    inside behind (t :: ts) = t.shift 1 :: inside behind ts := rfl

/-- What was read of a type, one place further on. -/
def TypeParse.inside (behind : List Token) (p : TypeParse) : TypeParse :=
  ⟨p.type.map (TypeExpr.shift 1), WatchExpr.inside behind p.rest,
    p.diagnostics.map (Diagnostic.shift 1)⟩

/-- What was read without complaints, one place further on. -/
def Parsed.inside (behind : List Token) (p : Parsed) : Parsed :=
  { expr := p.expr.shift 1, rest := WatchExpr.inside behind p.rest }

theorem Parsed.inside_cons {p : Parsed} {tok : Token} {after : List Token}
    (hr : p.rest = tok :: after) :
    (p.inside behind).rest = tok.shift 1 :: WatchExpr.inside behind after := by
  rw [Parsed.inside, hr, WatchExpr.inside_cons]

namespace TypeExpr

theorem readSuffixes_inside (hb : Closing behind) (start : Nat) (t : TypeExpr) (ts : List Token) :
    readSuffixes (start + 1) (t.shift 1) (inside behind ts) =
      (readSuffixes start t ts).inside behind := by
  obtain ⟨ket, more, rfl, hket⟩ := hb
  have hstar : ket.is "*" = false := Token.is_symbol hket _
  have hopen : ket.is "[" = false := Token.is_symbol hket _
  have hclose : ket.is "]" = false := Token.is_symbol hket _
  have hkind : ket.kind ≠ .numeric := by
    rw [Token.kind_symbol hket]
    nofun
  fun_induction readSuffixes start t ts with
  | case1 t =>
    rw [inside_nil, readSuffixes_stop hstar hopen]
    rfl
  | case2 t tok rest hs ih =>
    rw [inside_cons, readSuffixes_cons, Token.shift_is, if_pos hs, ← ih, Token.shift_stop]
    rfl
  | case3 t tok hs ho n close after hn count hc ih =>
    rw [inside_cons, inside_cons, inside_cons, readSuffixes_cons, Token.shift_is, if_neg hs,
      Token.shift_is, if_pos ho]
    simp only [Token.shift_kind, Token.shift_is, if_pos hn, Token.shift_literal, hc,
      Token.shift_stop]
    exact ih
  | case4 t tok hs ho n close after hn hc =>
    rw [inside_cons, inside_cons, inside_cons, readSuffixes_cons, Token.shift_is, if_neg hs,
      Token.shift_is, if_pos ho]
    simp only [Token.shift_kind, Token.shift_is, if_pos hn, Token.shift_literal, hc]
    rfl
  | case5 t tok hs ho n close after hn =>
    rw [inside_cons, inside_cons, inside_cons, readSuffixes_cons, Token.shift_is, if_neg hs,
      Token.shift_is, if_pos ho]
    have hn : ¬ ((n.shift 1).kind = .numeric ∧ (close.shift 1).is "]" = true) := hn
    simp only [if_neg hn]
    rfl
  | case6 t tok rest hs ho hno =>
    rw [inside_cons, readSuffixes_cons, Token.shift_is, if_neg hs, Token.shift_is, if_pos ho]
    cases rest with
    | nil =>
      cases more with
      | nil => rfl
      | cons next more =>
        simp only [inside_nil]
        rw [if_neg (mt And.left hkind)]
        rfl
    | cons n rest =>
      cases rest with
      | nil =>
        simp only [inside_cons, inside_nil, hclose, Bool.false_eq_true, and_false, if_false]
        rfl
      | cons close after => exact absurd rfl (hno n close after)
  | case7 t tok rest hs ho =>
    rw [inside_cons, readSuffixes_cons, Token.shift_is, if_neg hs, Token.shift_is, if_neg ho]
    rfl

theorem readSigned_inside (hb : Closing behind) {text text' : Text} {tok : Token}
    {rest : List Token} (hslice : ∀ last, last = tok ∨ last ∈ rest →
      slice text' (tok.shift 1) (last.shift 1) = slice text tok last) :
    readSigned text' (tok.shift 1) (inside behind rest) =
      ((readSigned text tok rest).1.shift 1, inside behind (readSigned text tok rest).2) := by
  have hsigned (last : Token) (k : BasicKind) (h : last = tok ∨ last ∈ rest) :
      signedType text' (tok.shift 1) (last.shift 1) k = (signedType text tok last k).shift 1 := by
    rw [signedType, signedType, hslice last h, Token.shift_is, Token.shift_stop]
    rfl
  have hbare := hsigned tok .s32 (.inl rfl)
  obtain ⟨ket, more, rfl, hket⟩ := hb
  cases rest with
  | nil =>
    rw [inside_nil, readSigned_bare (Token.head_symbol hket more), hbare]
    rfl
  | cons next after =>
    rw [inside_cons]
    have hsame : (if (next.shift 1).kind = .identifier then
        builtinType? (next.shift 1).literal else none) =
      if next.kind = .identifier then builtinType? next.literal else none := rfl
    simp only [readSigned, hsame]
    cases if next.kind = .identifier then builtinType? next.literal else none with
    | none => exact congrArg (·, inside (ket :: more) (next :: after)) hbare
    | some k =>
      simp only
      split
      · exact congrArg (·, inside (ket :: more) after) (hsigned next k (.inr (by simp)))
      · exact congrArg (·, inside (ket :: more) (next :: after)) hbare

end TypeExpr

end

theorem WrittenType.Spells.not_close {c : Context} {text : Text} {t : WrittenType} {ts : List Token}
    (h : t.Spells c text ts) : ∀ tok ∈ ts, tok.erase ≠ .symbol ")" := by
  have hne {tok : Token} {w : Text} (h : tok.erase = .symbol w) (hw : w ≠ ")") :
      tok.erase ≠ .symbol ")" := fun hc => hw ((Token.literal_symbol h).symm.trans
        (Token.literal_symbol hc))
  have hkind {tok : Token} {k : TokenKind} (h : tok.kind = k) (hk : k ≠ .symbol) :
      tok.erase ≠ .symbol ")" := fun hc => hk (h.symm.trans (Token.kind_symbol hc))
  induction h with
  | name hk => exact List.forall_mem_singleton.2 (hkind hk nofun)
  | sign ht => exact List.forall_mem_singleton.2 (hkind (Token.kind_word ht) nofun)
  | signed ht hk =>
    exact List.forall_mem_cons.2
      ⟨hkind (Token.kind_word ht) nofun, List.forall_mem_singleton.2 (hkind hk nofun)⟩
  | pointer _ hs ih =>
    exact List.forall_mem_append.2 ⟨ih, List.forall_mem_singleton.2 (hne hs (by decide))⟩
  | array _ ho hk _ hc ih =>
    refine List.forall_mem_append.2 ⟨ih, ?_⟩
    simp only [List.forall_mem_cons]
    exact ⟨hne ho (by decide), hkind hk nofun, hne hc (by decide), List.forall_mem_nil _⟩

namespace Parser

/-- The surroundings of a text in parentheses, with a limit that is higher by one. -/
def Env.enclosed (env : Env) : Env :=
  ⟨{ env.context with maxDepth := env.context.depthLimit + 1 }, "(" ++ env.text ++ ")"⟩

def Fits (env : Env) (ts : List Token) : Prop := ∀ t ∈ ts, t.Proper ∧ t.stop ≤ env.text.length

section
variable {env : Env} {behind ts : List Token}

theorem slice_enclosed {first last : Token} (h : last.stop ≤ env.text.length) :
    slice env.enclosed.text (first.shift 1) (last.shift 1) = slice env.text first last := by
  have htake : env.enclosed.text.take (last.stop + 1) = 0x28 :: env.text.take last.stop := by
    change (0x28 :: (env.text ++ [0x29])).take (last.stop + 1) = _
    rw [List.take_succ_cons, List.take_append_of_le_length h]
  rw [slice, slice, Token.shift_stop, Token.shift_start, htake, List.drop_succ_cons]

theorem read_inside (hb : Closing behind) (hf : Fits env ts) :
    TypeExpr.read env.enclosed.context env.enclosed.text (inside behind ts) =
      (TypeExpr.read env.context env.text ts).inside behind := by
  cases ts with
  | nil =>
    obtain ⟨ket, more, rfl, hket⟩ := hb
    have hs : TypeExpr.isSignWord ket = false := by
      rw [TypeExpr.isSignWord, Token.is_symbol hket, Token.is_symbol hket]
      rfl
    rw [inside_nil, TypeExpr.read.eq_def]
    simp only [hs, Token.kind_symbol hket]
    rfl
  | cons tok rest =>
    obtain ⟨htok, hrest⟩ := List.forall_mem_cons.1 hf
    rw [inside_cons, TypeExpr.read, TypeExpr.read]
    by_cases hs : TypeExpr.isSignWord tok = true
    · have hs' : TypeExpr.isSignWord (tok.shift 1) = true := hs
      have hslice (last : Token) (hl : last = tok ∨ last ∈ rest) :
          slice env.enclosed.text (tok.shift 1) (last.shift 1) = slice env.text tok last := by
        obtain rfl | hl := hl
        · exact slice_enclosed htok.2
        · exact slice_enclosed (hrest last hl).2
      rw [if_pos hs, if_pos hs', TypeExpr.readSigned_inside hb hslice]
      exact TypeExpr.readSuffixes_inside hb _ _ _
    · have hs' : ¬ TypeExpr.isSignWord (tok.shift 1) = true := hs
      rw [if_neg hs, if_neg hs']
      by_cases hk : tok.kind = .identifier
      · have hk' : (tok.shift 1).kind = .identifier := hk
        have htype : env.enclosed.context.typeNamed? (tok.shift 1).literal =
            env.context.typeNamed? tok.literal := rfl
        rw [if_pos hk, if_pos hk', htype]
        cases env.context.typeNamed? tok.literal with
        | none => rfl
        | some k =>
          simp only [Token.span_shift]
          exact TypeExpr.readSuffixes_inside hb tok.start (.named tok.span tok.literal k) rest
      · have hk' : ¬ (tok.shift 1).kind = .identifier := hk
        rw [if_neg hk, if_neg hk']
        rfl

theorem readToken_enclosed {tok : Token} (hd : (readToken env tok).2 = []) :
    readToken env.enclosed (tok.shift 1) = ((readToken env tok).1.shift 1, []) := by
  have hresolve : env.enclosed.context.resolve (tok.shift 1).literal (tok.shift 1).span =
      (env.context.resolve tok.literal tok.span).map (Expr.shift 1) := by
    rw [Token.span_shift]
    exact env.context.resolve_shift tok.literal tok.span 1
  simp only [readToken, hresolve, Token.shift_kind] at hd ⊢
  split at hd
  · cases hr : env.context.resolve tok.literal tok.span with
    | ok e => rfl
    | error d => simp [hr] at hd
  · simp only [Token.shift_literal, Token.span_shift]
    cases hn : Literal.readNumber? tok.literal with
    | none => simp [hn] at hd
    | some n => cases n <;> rfl
  · simp only [Token.shift_literal, Token.span_shift]
    cases hv : Literal.readChar tok.literal with
    | error d => simp [hv] at hd
    | ok r =>
      obtain ⟨v, more⟩ := r
      cases more with
      | true => simp [hv] at hd
      | false => rfl
  all_goals cases hd

end

/-- In parentheses one reader reads what the other one reads without complaints. -/
def Encloses (env : Env) (behind : List Token) (sub sub' : Reader) : Prop :=
  ∀ ceiling ts, Fits env ts → (sub.read ceiling ts).diagnostics = [] →
    sub'.read ceiling (inside behind ts) = (sub.read ceiling ts).inside behind

section
variable {env : Env} {behind ts : List Token} {sub sub' : Reader} {p : Parsed}

theorem Fits.tail {tok : Token} (hf : Fits env (tok :: ts)) : Fits env ts :=
  (List.forall_mem_cons.1 hf).2

theorem Fits.rest (hf : Fits env ts) (h : Ended env ts p) : Fits env p.rest :=
  fun t ht => hf t (h.suffix.mem ht)

theorem Fits.read (hf : Fits env ts) (he : sub.Ends env) {ceiling : Nat}
    (hp : sub.read ceiling ts = p) : Fits env p.rest :=
  hf.rest (hp ▸ he ceiling ts)

theorem Fits.read_cons (hf : Fits env ts) (he : sub.Ends env) {ceiling : Nat}
    (hp : sub.read ceiling ts = p) {tok : Token} {after : List Token} (hr : p.rest = tok :: after) :
    Fits env after := by
  have hfits := hf.read he hp
  rw [hr] at hfits
  exact hfits.tail

theorem Encloses.read (hs : Encloses env behind sub sub') {ceiling : Nat} {i : Parsed}
    (hf : Fits env ts) (hi : sub.read ceiling ts = i) (hd : i.diagnostics = []) :
    sub'.read ceiling (inside behind ts) = i.inside behind := by
  subst hi
  exact hs ceiling ts hf hd

theorem ends_inside (hb : Closing behind) {ceiling : Nat} (h : Ends ceiling ts) :
    Ends ceiling (inside behind ts) := by
  cases ts with
  | nil =>
    obtain ⟨ket, more, rfl, hket⟩ := hb
    exact (ends_bracket hket (.inl rfl) ceiling more).1
  | cons tok rest => exact h

theorem detached_inside (hb : Closing behind) (h : Detached ts) : Detached (inside behind ts) := by
  cases ts with
  | nil =>
    obtain ⟨ket, more, rfl, hket⟩ := hb
    exact (ends_bracket hket (.inl rfl) 0 more).2
  | cons tok rest => exact h

section
variable (hs : Encloses env behind sub sub') (he : sub.Ends env) (hb : Closing behind)
include hs he hb

theorem atomRun_inside (hf : Fits env ts) (h : AtomRun env sub ts p) (hd : p.diagnostics = []) :
    AtomRun env.enclosed sub' (inside behind ts) (p.inside behind) := by
  cases h with
  | nil => cases hd
  | @closed tok close rest after i hopen hi hr hclose =>
    have hrun : AtomRun env.enclosed sub' (tok.shift 1 :: inside behind rest) _ :=
      .closed hopen (hs.read hf.tail hi hd) (Parsed.inside_cons hr) hclose
    exact hrun
  | unclosed _ hi => exact absurd hd ((hi ▸ he _ _).unclosed_ne_nil _)
  | @written tok rest q hw hq =>
    have hrun : AtomRun env.enclosed sub' (tok.shift 1 :: inside behind rest) _ :=
      .written hw (hq ▸ read_inside hb hf)
    obtain ⟨type, rest', ds⟩ := q
    cases hd
    cases type <;> exact hrun
  | @token tok rest hopen hw =>
    have hrun : AtomRun env.enclosed sub' (tok.shift 1 :: inside behind rest) _ :=
      .token hopen hw
    rw [readToken_enclosed hd] at hrun
    exact hrun

theorem postfixRun_inside {x : Expr} (hf : Fits env ts) (h : PostfixRun sub x ts p)
    (hd : p.diagnostics = []) :
    PostfixRun sub' (x.shift 1) (inside behind ts) (p.inside behind) := by
  induction h with
  | stop h => exact .stop (detached_inside hb h)
  | noName => cases hd
  | @member x tok name rest p hdot hname _ ih =>
    have htree : (Expr.member ((x.spanOr tok).join name.span) x ⟨name.span, name.literal⟩
        (tok.is "->")).shift 1 =
          .member (((x.shift 1).spanOr (tok.shift 1)).join (name.shift 1).span) (x.shift 1)
            ⟨(name.shift 1).span, name.literal⟩ (tok.is "->") := by
      rw [Token.span_shift, Expr.spanOr_shift, Span.join_shift]
      rfl
    exact .member hdot hname (htree ▸ ih hf.tail.tail hd)
  | unclosed _ _ hi => exact absurd hd ((hi ▸ he _ _).unclosed_ne_nil _)
  | @index x tok close rest after i p hdot hopen hi hr hclose _ ih =>
    obtain ⟨hdi, hd⟩ := List.append_eq_nil_iff.1 hd
    have htree : (Expr.index ((x.spanOr tok).join close.span) x i.expr).shift 1 =
        .index (((x.shift 1).spanOr (tok.shift 1)).join (close.shift 1).span) (x.shift 1)
          (i.inside behind).expr := by
      rw [Token.span_shift, Expr.spanOr_shift, Span.join_shift]
      rfl
    have hlater := ih (hf.tail.read_cons he hi hr) hd
    rw [htree] at hlater
    have hrun : PostfixRun sub' (x.shift 1) (tok.shift 1 :: inside behind rest) _ :=
      .index hdot hopen (hs.read hf.tail hi hdi) (Parsed.inside_cons hr) hclose hlater
    exact hrun

end

/-- All of some tokens are a type, and are looked at as one. -/
def Whole (env : Env) (ts : List Token) : Prop :=
  env.context.startsType ts = true ∧ (TypeExpr.read env.context env.text ts).type.isSome ∧
    (TypeExpr.read env.context env.text ts).rest = []

instance (env : Env) (ts : List Token) : Decidable (Whole env ts) :=
  inferInstanceAs (Decidable (_ ∧ _ ∧ _))

theorem startsType_inside (hb : Closing behind) (ts : List Token) :
    env.enclosed.context.startsType (inside behind ts) = env.context.startsType ts := by
  cases ts with
  | nil =>
    obtain ⟨ket, more, rfl, hket⟩ := hb
    simp [Context.startsType, Token.kind_symbol hket]
  | cons tok rest => rfl

theorem readClosedType_inside (hb : Closing behind) (hf : Fits env ts)
    (hs : env.context.startsType ts = true) (hw : ¬ Whole env ts) :
    readClosedType env.enclosed (inside behind ts) =
      match readClosedType env ts with
      | .ok (t, after) => .ok (t.shift 1, inside behind after)
      | .error ds => .error (ds.map (Diagnostic.shift 1)) := by
  rw [readClosedType, readClosedType, read_inside hb hf]
  cases ht : (TypeExpr.read env.context env.text ts).type with
  | none => simp only [TypeParse.inside, ht]; rfl
  | some t =>
    cases hr : (TypeExpr.read env.context env.text ts).rest with
    | nil => exact absurd ⟨hs, by rw [ht]; rfl, hr⟩ hw
    | cons close rest =>
      simp only [TypeParse.inside, ht, hr, Option.map_some, inside_cons, Token.shift_is]
      split <;> rfl

/-- What stands in front of an operand, one place further on. -/
def PrefixStep.inside (behind : List Token) : PrefixStep → PrefixStep
  | .none => .none
  | .mark m rest ds =>
    .mark (m.shift 1) (WatchExpr.inside behind rest) (ds.map (Diagnostic.shift 1))
  | .sizeOfType t rest => .sizeOfType (t.shift 1) (WatchExpr.inside behind rest)

theorem simpleMark_shift {tok : Token} {m : Mark} (h : simpleMark? tok = some m) :
    m.shift 1 = m := by
  simp only [simpleMark?] at h
  repeat' split at h
  all_goals cases h
  all_goals rfl

theorem Whole.readClosedType (hw : Whole env ts) : ∃ ds, readClosedType env ts = .error ds := by
  obtain ⟨-, -, hr⟩ := hw
  rw [Parser.readClosedType, hr]
  cases (TypeExpr.read env.context env.text ts).type <;> exact ⟨_, rfl⟩

theorem prefixStep_inside (hb : Closing behind) (tok : Token) {rest : List Token}
    (hf : Fits env rest) (hparen : tok.is "(" = true → ¬ Whole env rest)
    (hsizeof : ∀ paren inner ds, rest = paren :: inner → paren.is "(" = true →
      prefixStep env tok rest = .mark .sizeof rest ds → ¬ Whole env inner) :
    prefixStep env.enclosed (tok.shift 1) (inside behind rest) =
      (prefixStep env tok rest).inside behind := by
  have hmark : simpleMark? (tok.shift 1) = simpleMark? tok := rfl
  simp only [prefixStep] at hsizeof ⊢
  rw [hmark]
  cases hm : simpleMark? tok with
  | some m =>
    simp only [PrefixStep.inside, simpleMark_shift hm]
    rfl
  | none =>
    simp only [hm] at hsizeof
    simp only [Token.shift_kind, Token.shift_is, startsType_inside hb]
    by_cases hsz : tok.kind = .identifier ∧ tok.is "sizeof" = true
    · simp only [if_pos hsz] at hsizeof ⊢
      cases rest with
      | nil =>
        obtain ⟨ket, more, rfl, hket⟩ := hb
        have hopen : ket.is "(" = false := Token.is_symbol hket _
        simp only [inside_nil, hopen, Bool.false_and, Bool.false_eq_true, if_false]
        rfl
      | cons paren inner =>
        have hinner := (List.forall_mem_cons.1 hf).2
        simp only [inside_cons, Token.shift_is, startsType_inside hb]
        by_cases ht : (paren.is "(" && env.context.startsType inner) = true
        · obtain ⟨hopen, hstart⟩ := Bool.and_eq_true_iff.1 ht
          have hw : ¬ Whole env inner := fun hw => by
            obtain ⟨ds, hc⟩ := hw.readClosedType
            exact hsizeof paren inner ds rfl hopen (by simp only [if_pos ht, hc]) hw
          rw [if_pos ht, if_pos ht, readClosedType_inside hb hinner hstart hw]
          cases readClosedType env inner <;> rfl
        · rw [if_neg ht, if_neg ht]
          rfl
    · simp only [if_neg hsz]
      by_cases ht : (tok.is "(" && env.context.startsType rest) = true
      · obtain ⟨hopen, hstart⟩ := Bool.and_eq_true_iff.1 ht
        rw [if_pos ht, if_pos ht, readClosedType_inside hb hf hstart (hparen hopen)]
        cases readClosedType env rest <;> rfl
      · rw [if_neg ht, if_neg ht]
        rfl

theorem Whole.spells (hf : Fits env ts) (hw : Whole env ts) :
    ∃ t : WrittenType, t.Spells env.context env.text ts := by
  obtain ⟨-, htype, hrest⟩ := hw
  obtain ⟨e, he⟩ := Option.isSome_iff_exists.1 htype
  obtain ⟨t, us, hts, hus, -⟩ := spells_of_read (fun t ht => (hf t ht).1) he
  rw [hrest, List.append_nil] at hts
  exact ⟨t, hts ▸ hus⟩

theorem Whole.not_close (hf : Fits env ts) (hw : Whole env ts) : ∀ t ∈ ts, t.is ")" = false := by
  intro t ht
  obtain ⟨w, hw⟩ := hw.spells hf
  exact Bool.eq_false_iff.2 fun hc =>
    hw.not_close t ht ((hf t ht).1.symbol_of_is hc (by decide))

/-- What stands in a parenthesis that is opened and closed again is not a type to the end. -/
theorem not_whole_of_atomRun (he : sub.Ends env) {tok : Token} {rest : List Token}
    (hf : Fits env (tok :: rest)) (ho : tok.is "(" = true) (h : AtomRun env sub (tok :: rest) p)
    (hd : p.diagnostics = []) : ¬ Whole env rest := by
  intro hw
  have hk := Token.kind_symbol ((hf tok List.mem_cons_self).1.symbol_of_is ho (by decide))
  cases h with
  | @closed _ close _ after i _ hi hr hclose =>
    have hend : Ended env rest i := hi ▸ he _ _
    have hmem : close ∈ rest := hend.suffix.mem (hr ▸ List.mem_cons_self)
    rw [hw.not_close hf.tail close hmem] at hclose
    cases hclose
  | unclosed _ hi => exact (hi ▸ he _ _).unclosed_ne_nil _ hd
  | written hs => cases hk.symm.trans hs.1
  | token hopen => exact hopen ⟨hk, ho⟩

theorem not_whole_of_operandRun (he : sub.Ends env) {budget : Nat} {marks : List Prefixed}
    {tok : Token} {rest : List Token} (hf : Fits env (tok :: rest)) (ho : tok.is "(" = true)
    (h : OperandRun env sub budget marks (tok :: rest) p) (hd : p.diagnostics = []) :
    ¬ Whole env rest := by
  intro hw
  have hopen := (hf tok List.mem_cons_self).1.symbol_of_is ho (by decide)
  obtain ⟨ds, hc⟩ := hw.readClosedType
  have hnone : prefixStep env tok rest = .none := by rw [prefixStep_paren hopen hw.1, hc]
  cases h with
  | core _ ha => exact not_whole_of_atomRun he hf ho ha (List.append_eq_nil_iff.1 hd).1 hw
  | sizeOfType h => cases hnone.symm.trans h
  | tooDeep h => cases hnone.symm.trans h
  | mark h => cases hnone.symm.trans h

/-- A type up to the end would leave a parenthesis open, which is complained about. -/
theorem prefixStep_inside_of_run (he : sub.Ends env) (hb : Closing behind) {budget : Nat}
    {marks : List Prefixed} {tok : Token} {rest : List Token} (hf : Fits env (tok :: rest))
    (h : OperandRun env sub budget marks (tok :: rest) p) (hd : p.diagnostics = []) :
    prefixStep env.enclosed (tok.shift 1) (inside behind rest) =
      (prefixStep env tok rest).inside behind := by
  refine prefixStep_inside hb tok hf.tail (fun ho => not_whole_of_operandRun he hf ho h hd) ?_
  rintro paren inner ds rfl ho hstep
  cases h with
  | core h => cases (h _ _ rfl).symm.trans hstep
  | sizeOfType h => cases h.symm.trans hstep
  | tooDeep => simp at hd
  | mark h _ hp =>
    cases h.symm.trans hstep
    exact not_whole_of_operandRun he hf.tail ho hp (List.append_eq_nil_iff.1 hd).2

section
variable (hs : Encloses env behind sub sub') (he : sub.Ends env) (hb : Closing behind)
include hs he hb

theorem operandRun_inside {budget : Nat} {marks : List Prefixed} (hf : Fits env ts)
    (h : OperandRun env sub budget marks ts p) (hd : p.diagnostics = []) :
    OperandRun env.enclosed sub' budget (marks.map (Prefixed.shift 1)) (inside behind ts)
      (p.inside behind) := by
  induction h with
  | @core marks ts atom full hnone ha hfull =>
    obtain ⟨hda, hdf⟩ := List.append_eq_nil_iff.1 hd
    have ha' := atomRun_inside hs he hb hf ha hda
    have hf' := postfixRun_inside hs he hb (hf.rest (ended_readAtom he ha)) hfull hdf
    have hnone' (tok : Token) (rest : List Token) (hts : inside behind ts = tok :: rest) :
        prefixStep env.enclosed tok rest = .none := by
      cases ts with
      | nil =>
        cases ha
        cases hda
      | cons tok rest =>
        cases hts
        have hrun : OperandRun env sub budget marks (tok :: rest) _ := .core hnone ha hfull
        have hstep := prefixStep_inside_of_run he hb hf hrun hd
        rw [hnone tok rest rfl] at hstep
        exact hstep
    have hrun : OperandRun env.enclosed sub' budget (marks.map (Prefixed.shift 1)) _ _ :=
      .core hnone' ha' hf'
    rw [Parsed.inside, ← applyAll_shift]
    exact hrun
  | @sizeOfType marks tok rest after t hstep =>
    have hrun : OperandRun env sub budget marks (tok :: rest) _ := .sizeOfType hstep
    have hstep' := prefixStep_inside_of_run he hb hf hrun rfl
    rw [hstep] at hstep'
    rw [Parsed.inside, ← applyAll_shift]
    exact .sizeOfType hstep'
  | tooDeep => simp at hd
  | @mark marks tok rest after m ds p hstep hbudget hp ih =>
    have hstep' := prefixStep_inside_of_run he hb hf (.mark hstep hbudget hp) hd
    rw [hstep] at hstep'
    obtain ⟨hds, hd⟩ := List.append_eq_nil_iff.1 hd
    obtain ⟨-, us, hts, -⟩ := consumed_prefixStep_mark hstep
    have hafter : Fits env after := fun t ht => hf t (hts ▸ List.mem_append_right us ht)
    subst hds
    exact .mark hstep' (by simpa using hbudget) (ih hafter hd)

theorem climbRun_inside {ceiling : Nat} {left : Expr} (hf : Fits env ts)
    (h : ClimbRun env sub ceiling left ts p) (hd : p.diagnostics = []) :
    ClimbRun env.enclosed sub' ceiling (left.shift 1) (inside behind ts) (p.inside behind) := by
  have hne {ts : List Token} (h : ts ≠ []) : inside behind ts ≠ [] := by
    cases ts with
    | nil => exact absurd rfl h
    | cons tok rest => exact List.cons_ne_nil _ _
  induction h with
  | stop h => exact .stop (ends_inside hb h)
  | noColon => exact absurd (List.append_eq_nil_iff.1 hd).2 (List.cons_ne_nil _ _)
  | noBranch => exact absurd (List.append_eq_nil_iff.1 hd).2 (List.cons_ne_nil _ _)
  | @conditional left tok colon rest after yes no whole hk hq hc hyes hr hcolon hafter hno _ ih =>
    obtain ⟨hd, hdw⟩ := List.append_eq_nil_iff.1 hd
    obtain ⟨hdy, hdn⟩ := List.append_eq_nil_iff.1 hd
    have hfits := hf.tail.read_cons he hyes hr
    have htree : (Expr.ternary ((left.spanOr tok).join (no.expr.spanOr colon)) left yes.expr
        no.expr).shift 1 =
          .ternary (((left.shift 1).spanOr (tok.shift 1)).join
            ((no.inside behind).expr.spanOr (colon.shift 1))) (left.shift 1)
              (yes.inside behind).expr (no.inside behind).expr := by
      simp only [Parsed.inside, Expr.spanOr_shift, Span.join_shift]
      rfl
    have hlater := ih (hfits.read he hno) hdw
    rw [htree] at hlater
    have hrun : ClimbRun env.enclosed sub' ceiling (left.shift 1)
        (tok.shift 1 :: inside behind rest) _ :=
      .conditional hk hq hc (hs.read hf.tail hyes hdy) (Parsed.inside_cons hr) hcolon (hne hafter)
        (hs.read hfits hno hdn) hlater
    exact hrun
  | noOperand => cases hd
  | @operator left tok rest op right whole hk hop hc hrest hright _ ih =>
    obtain ⟨hdr, hdw⟩ := List.append_eq_nil_iff.1 hd
    have htree : (Expr.binary ((left.spanOr tok).join (right.expr.spanOr tok)) op left
        right.expr).shift 1 =
          .binary (((left.shift 1).spanOr (tok.shift 1)).join
            ((right.inside behind).expr.spanOr (tok.shift 1))) op (left.shift 1)
              (right.inside behind).expr := by
      simp only [Parsed.inside, Expr.spanOr_shift, Span.join_shift]
      rfl
    have hlater := ih (hf.tail.read he hright) hdw
    rw [htree] at hlater
    have hrun : ClimbRun env.enclosed sub' ceiling (left.shift 1)
        (tok.shift 1 :: inside behind rest) _ :=
      .operator hk hop hc (hne hrest) (hs.read hf.tail hright hdr) hlater
    exact hrun

end

theorem encloses_reader (hb : Closing behind) (budget : Nat) :
    Encloses env behind (reader env budget) (reader env.enclosed budget) := by
  induction budget with
  | zero => exact fun ceiling ts hf hd => absurd hd (List.cons_ne_nil _ _)
  | succ budget ih =>
    intro ceiling ts hf hd
    obtain ⟨first, whole, hfirst, hwhole, hr⟩ := reader_run env budget ceiling ts
    rw [hr] at hd ⊢
    obtain ⟨hdf, hdw⟩ := List.append_eq_nil_iff.1 hd
    have he := ends_reader env budget
    have hfirst' := operandRun_inside ih he hb hf hfirst hdf
    have hwhole' := climbRun_inside ih he hb (hf.rest (ended_readOperand he hfirst)) hwhole hdw
    exact reader_eq hfirst' hwhole'

/-- What is not a type to its end opens no cast where its parentheses have their partners. -/
theorem prefixStep_enclosed (hb : Closing behind) {paren : Token} (ho : paren.erase = .symbol "(")
    (hf : Fits env ts) (ht : Tidy ts) (hw : ¬ Whole env ts) :
    prefixStep env.enclosed paren (inside behind ts) = .none := by
  by_cases hs : env.enclosed.context.startsType (inside behind ts) = true
  · rw [prefixStep_paren ho hs]
    rw [startsType_inside hb] at hs
    rw [readClosedType_inside hb hf hs hw]
    cases hc : readClosedType env ts with
    | error ds => rfl
    | ok r =>
      obtain ⟨w, us, ket, hts, hket, hus, -⟩ :=
        spells_of_readClosedType (fun t ht => (hf t ht).1) hc
      have hclose : ket.nest 0 = none := by
        rw [Token.nest, Token.kind_symbol hket, Token.literal_symbol hket]
        rfl
      have hb := ht.balanced 0
      rw [hts, nesting_append, hus.tidy.balanced, Option.bind_some, nesting_cons, hclose] at hb
      cases hb
  · exact Opening.prefixStep (.paren ho fun h => absurd h hs)

theorem read_enclosed (paren ket : Token) (ho : paren.erase = .symbol "(")
    (hc : ket.erase = .symbol ")") (hf : Fits env ts) (ht : Tidy ts) (hw : ¬ Whole env ts)
    {limit : Nat} (hd : ((reader env limit).read maxPrecedence ts).diagnostics = [])
    (hr : ((reader env limit).read maxPrecedence ts).rest = []) :
    (reader env.enclosed (limit + 1)).read maxPrecedence (paren :: inside [ket] ts) =
      { expr := ((reader env limit).read maxPrecedence ts).expr.shift 1, rest := [] } := by
  have hb : Closing [ket] := ⟨ket, [], rfl, hc⟩
  have hopen : paren.kind = .symbol ∧ paren.is "(" := ⟨Token.kind_symbol ho, Token.is_symbol ho _⟩
  have hclose : ket.is ")" = true := Token.is_symbol hc _
  have hinner := encloses_reader hb limit maxPrecedence ts hf hd
  rw [reader_succ, readOperation, readOperand_cons, prefixStep_enclosed hb ho hf ht hw]
  simp only [readCore, readAtom_paren hopen, hinner, Parsed.inside, hr, inside_nil, if_pos hclose,
    readPostfix_nil, climb_nil]
  rfl

theorem read_enclosed_of_whole (paren ket : Token) (ho : paren.erase = .symbol "(")
    (hc : ket.erase = .symbol ")") (hf : Fits env ts) (hw : Whole env ts) (limit : Nat) :
    ((reader env.enclosed (limit + 1)).read maxPrecedence
      (paren :: inside [ket] ts)).diagnostics ≠ [] := by
  have hb : Closing [ket] := ⟨ket, [], rfl, hc⟩
  have hclose : ket.is ")" = true := Token.is_symbol hc _
  obtain ⟨hs, htype, hrest⟩ := hw
  obtain ⟨t, ht⟩ := Option.isSome_iff_exists.1 htype
  have hcast : prefixStep env.enclosed paren (inside [ket] ts) =
      .mark (.cast (t.shift 1)) [] [] := by
    rw [prefixStep_paren ho ((startsType_inside hb ts).trans hs), readClosedType, read_inside hb hf]
    simp only [TypeParse.inside, ht, hrest, inside_nil, Option.map_some, if_pos hclose]
  rw [reader_succ, readOperation, readOperand_cons, hcast]
  simp only
  split
  · simp
  · rw [readOperand_nil]
    simp [readCore, readAtom, Parser.after]

theorem fits_scan (env : Env) : Fits env (Lexer.scan env.text) := by
  intro t ht
  have hstop := (Lexer.tiles_scanFrom 0 env.text).bounds t ht
  exact ⟨Lexer.proper_scanFrom 0 env.text t ht, by omega⟩

theorem read_of_parse {c : Context} {text : Text} {ts : List Token} {tree : Expr}
    (h : parse c text ts = (tree, [])) :
    ((reader ⟨c, text⟩ c.depthLimit).read maxPrecedence ts).expr = tree ∧
      ((reader ⟨c, text⟩ c.depthLimit).read maxPrecedence ts).rest = [] ∧
      ((reader ⟨c, text⟩ c.depthLimit).read maxPrecedence ts).diagnostics = [] := by
  have hend := ends_reader ⟨c, text⟩ c.depthLimit maxPrecedence ts
  simp only [parse] at h
  split at h
  · cases h
  · generalize (reader ⟨c, text⟩ c.depthLimit).read maxPrecedence ts = p at h hend ⊢
    split at h
    · rename_i tok rest hr
      split at h
      · rename_i hdeep
        rw [hend.rest_eq_nil hdeep] at hr
        cases hr
      · exact absurd (congrArg Prod.snd h) (by simp)
    · rename_i hr
      exact ⟨congrArg Prod.fst h, hr, congrArg Prod.snd h⟩

theorem parse_of_read {c : Context} {text : Text} {tok : Token} {rest : List Token} {tree : Expr}
    (h : (reader ⟨c, text⟩ c.depthLimit).read maxPrecedence (tok :: rest) =
      { expr := tree, rest := [] }) : parse c text (tok :: rest) = (tree, []) := by
  simp only [parse, h]
  rfl

/-- Behind a parenthesis, that of a cast or of `sizeof`, some tokens are taken as a type. -/
def TakenAsType (env : Env) (ts : List Token) : Prop :=
  ∃ paren : Token, paren.erase = .symbol "(" ∧
    (prefixStep env paren ts ≠ .none ∨
      ∃ word t after, prefixStep env word (paren :: ts) = .sizeOfType t after)

theorem TakenAsType.startsType (h : TakenAsType env ts) : env.context.startsType ts = true := by
  obtain ⟨paren, ho, h | ⟨word, t, after, h⟩⟩ := h
  · by_contra hs
    exact h (Opening.prefixStep (.paren ho fun hs' => absurd hs' hs))
  · simp only [prefixStep] at h
    split at h
    · cases h
    · split at h
      · split at h
        · rename_i hs
          exact (Bool.and_eq_true_iff.1 hs).2
        · cases h
      · split at h
        · split at h <;> cases h
        · cases h

/-- No member of `this`, no register and nothing outside the procedure has a name. -/
def Unbound (c : Context) (name : Text) (span : Span) : Prop :=
  c.registerNamed? name span = none ∧ ∀ r, c.resolver = some r →
    c.memberOfThis? r name span = none ∧ Context.outerNamed? r name span = none

end

theorem depthLimit_succ (c : Context) :
    { c with maxDepth := c.depthLimit + 1 }.depthLimit = c.depthLimit + 1 := by
  generalize c.depthLimit = limit
  simp only [Context.depthLimit]
  split <;> omega

open Lexer (scan)

/-- A text that is a type to its end is in parentheses a cast that has no operand, which is
complained about. -/
theorem parse_enclosed_of_whole {c : Context} {text : Text} (hticks : 0x60 ∉ text)
    (hw : Whole ⟨c, text⟩ (scan text)) :
    (parse { c with maxDepth := c.depthLimit + 1 } ("(" ++ text ++ ")")
      (scan ("(" ++ text ++ ")"))).2 ≠ [] := by
  intro hd
  have hf := fits_scan ⟨c, text⟩
  obtain ⟨t, hspells⟩ := hw.spells hf
  have hread := (read_of_parse (Prod.ext rfl hd)).2.2
  rw [Lexer.scan_enclosed hticks hspells.tidy.terminated, depthLimit_succ] at hread
  exact read_enclosed_of_whole ⟨.symbol, "(", 0⟩ ⟨.symbol, ")", text.length + 1⟩ rfl rfl hf hw _
    hread

/-- Parentheses are transparent. A text that is read without complaints is read in parentheses to
the same tree, one place further on, where nesting may be deeper by one, unless the whole of it is a
type. An identifier behind a parenthesis is taken as a type only if no local has its name and a type
has; where nothing else has its name either, it stands for that type. -/
theorem parse_enclosed (c : Context) :
    (∀ (text : Text) (tree : Expr), 0x60 ∉ text → parse c text (scan text) = (tree, []) →
      ¬ Whole ⟨c, text⟩ (scan text) →
      parse { c with maxDepth := c.depthLimit + 1 } ("(" ++ text ++ ")")
        (scan ("(" ++ text ++ ")")) = (tree.shift 1, [])) ∧
    (∀ (text : Text) (tok : Token) (rest : List Token), TakenAsType ⟨c, text⟩ (tok :: rest) →
      tok.kind = .identifier ∧ (TypeExpr.isSignWord tok = true ∨
        (∀ r, c.resolver = some r → r.localSymbol? tok.literal = none) ∧
        ∃ k, c.typeNamed? tok.literal = some k ∧ (Unbound c tok.literal tok.span →
          c.resolve tok.literal tok.span = .ok (.type (.named tok.span tok.literal k))))) := by
  refine ⟨fun text tree hticks hparse hw => ?_, fun text tok rest ht => ?_⟩
  · have htidy := tidy_of_parse (Lexer.proper_scanFrom 0 text) (congrArg Prod.snd hparse)
    obtain ⟨hexpr, hrest, hd⟩ := read_of_parse hparse
    have hread := read_enclosed ⟨.symbol, "(", 0⟩ ⟨.symbol, ")", text.length + 1⟩ rfl rfl
      (fits_scan ⟨c, text⟩) htidy hw hd hrest
    rw [hexpr, ← depthLimit_succ] at hread
    rw [Lexer.scan_enclosed hticks htidy.terminated]
    exact parse_of_read hread
  · have hs := ht.startsType
    simp only [Context.startsType, Bool.and_eq_true, Bool.or_eq_true, beq_iff_eq] at hs
    obtain ⟨hk, hs | ⟨hlocal, htype⟩⟩ := hs
    · exact ⟨hk, .inl hs⟩
    have hnone : ∀ r, c.resolver = some r → r.localSymbol? tok.literal = none := by
      intro r hr
      simpa [hr] using hlocal
    obtain ⟨k, hkey⟩ := Option.isSome_iff_exists.1 htype
    refine ⟨hk, .inr ⟨hnone, k, hkey, fun hfree => ?_⟩⟩
    obtain ⟨hregister, hfree⟩ := hfree
    cases hr : c.resolver with
    | none => simp only [Context.resolve, hr, Option.bind_none, hregister, Option.or_none, hkey]
    | some r =>
      obtain ⟨hmember, houter⟩ := hfree r hr
      simp only [Context.resolve, hr, Option.bind_some, hmember, hnone r hr, hregister, houter,
        Option.map_none, Option.or_none, hkey]

/-- A sum that starts like a type, and a cast to that type. -/
theorem parse_enclosed_sum :
    (0x60 ∉ ("int[1]+2" : Text) ∧
      parse (.bare .x64) "int[1]+2" (scan "int[1]+2") =
        (.binary ⟨0, 8⟩ .add (.index ⟨0, 6⟩ (.type (.named ⟨0, 3⟩ "int" (.basic .s32)))
          (.int ⟨4, 5⟩ 1 false)) (.int ⟨7, 8⟩ 2 false), []) ∧
      ¬ Whole ⟨.bare .x64, "int[1]+2"⟩ (scan "int[1]+2") ∧
      parse (.bare .x64 257) "(int[1]+2)" (scan "(int[1]+2)") =
        (.binary ⟨1, 9⟩ .add (.index ⟨1, 7⟩ (.type (.named ⟨1, 4⟩ "int" (.basic .s32)))
          (.int ⟨5, 6⟩ 1 false)) (.int ⟨8, 9⟩ 2 false), [])) ∧
    (TakenAsType ⟨.bare .x64, "(int)1"⟩ ((scan "(int)1").drop 1) ∧
      Unbound (.bare .x64) "int" ⟨1, 4⟩ ∧
      (Context.bare .x64).resolve "int" ⟨1, 4⟩ =
        .ok (.type (.named ⟨1, 4⟩ "int" (.basic .s32)))) := by
  have hticks : 0x60 ∉ ("int[1]+2" : Text) := by decide
  have hparse : parse (.bare .x64) "int[1]+2" (scan "int[1]+2") =
      (.binary ⟨0, 8⟩ .add (.index ⟨0, 6⟩ (.type (.named ⟨0, 3⟩ "int" (.basic .s32)))
        (.int ⟨4, 5⟩ 1 false)) (.int ⟨7, 8⟩ 2 false), []) := by decide +kernel
  have hwhole : ¬ Whole ⟨.bare .x64, "int[1]+2"⟩ (scan "int[1]+2") := by decide +kernel
  have htokens : (scan "(int)1").drop 1 =
      [⟨.identifier, "int", 1⟩, ⟨.symbol, ")", 4⟩, ⟨.numeric, "1", 5⟩] := by decide +kernel
  have htype : TakenAsType ⟨.bare .x64, "(int)1"⟩ ((scan "(int)1").drop 1) := by
    have hcast : prefixStep ⟨.bare .x64, "(int)1"⟩ ⟨.symbol, "(", 0⟩
        [⟨.identifier, "int", 1⟩, ⟨.symbol, ")", 4⟩, ⟨.numeric, "1", 5⟩] =
          .mark (.cast (.named ⟨1, 4⟩ "int" (.basic .s32))) [⟨.numeric, "1", 5⟩] [] := rfl
    rw [htokens]
    exact ⟨⟨.symbol, "(", 0⟩, rfl, .inl (hcast ▸ nofun)⟩
  have hname : Unbound (.bare .x64) "int" ⟨1, 4⟩ := by
    refine ⟨?_, ?_⟩
    · rfl
    · nofun
  refine ⟨⟨hticks, hparse, hwhole, (parse_enclosed (.bare .x64)).1 _ _ hticks hparse hwhole⟩, htype,
    hname, ?_⟩
  rw [htokens] at htype
  obtain ⟨-, hs | ⟨-, k, hk, hresolve⟩⟩ := (parse_enclosed (.bare .x64)).2 _ _ _ htype
  · cases hs
  · cases hk
    exact hresolve hname

/-- In parentheses an array type is a cast that has no operand. -/
theorem array_not_transparent :
    ¬ ∀ (c : Context) (text : Text) (tree : Expr), 0x60 ∉ text →
      parse c text (scan text) = (tree, []) → (∀ t, tree ≠ .type t) →
      parse { c with maxDepth := c.depthLimit + 1 } ("(" ++ text ++ ")")
        (scan ("(" ++ text ++ ")")) = (tree.shift 1, []) := by
  intro h
  have hread := h (.bare .x64) "int[3]"
    (.index ⟨0, 6⟩ (.type (.named ⟨0, 3⟩ "int" (.basic .s32))) (.int ⟨4, 5⟩ 3 false)) (by decide)
    (by decide +kernel) nofun
  have hcomplaint : (parse { Context.bare .x64 with maxDepth := (Context.bare .x64).depthLimit + 1 }
      ("(" ++ "int[3]" ++ ")") (scan ("(" ++ "int[3]" ++ ")"))).2 =
        [⟨8, .expectedExpression⟩] := by decide +kernel
  rw [hread] at hcomplaint
  cases hcomplaint

end Parser

end WatchExpr
