import WatchExpr.Proofs.Expression.Assembly
import WatchExpr.Proofs.Lowering.Explained
import WatchExpr.Proofs.Lowering.Repetition

namespace WatchExpr

namespace Context

structure Closed (c : Context) : Prop where
  types : c.types.Closed
  symbols : ∀ r name sym, c.resolver = some r →
    r.localSymbol? name = some sym ∨ r.globalSymbol? name = some sym ∨
      r.threadLocal? name = some sym ∨ r.procedure? name = some sym → c.types.Has sym.type

variable {c : Context} {t : TypeTable}

theorem bound_congr {c c' : Context} {name : Text} {span : Span} (ha : c'.arch = c.arch)
    (hr : c'.resolver = c.resolver)
    (hscope : ∀ r, c.resolver = some r →
      (c'.memberOfThis? r name span).or ((r.localSymbol? name).map (c'.localLeaf · span)) =
        (c.memberOfThis? r name span).or ((r.localSymbol? name).map (c.localLeaf · span))) :
    c'.bound? name span = c.bound? name span := by
  have hregister : c'.registerNamed? name span = c.registerNamed? name span := by
    rw [registerNamed?, registerNamed?, ha]
  rw [bound?, bound?, hr, hregister]
  cases hc : c.resolver with
  | none => simp only [Option.bind_none]
  | some r => simp only [Option.bind_some, hscope r hc]

section Agreement
variable (hc : c.Closed) (hg : c.types.Grows t)
include hc hg

theorem Closed.localLeaf_grows {sym : Symbol} (hs : c.types.Has sym.type) (span : Span) :
    localLeaf { c with types := t } sym span = c.localLeaf sym span := by
  have hv : registerValue { c with types := t } sym = c.registerValue sym := by
    simp only [registerValue]
    rw [hg.byteSize hc.types hs, hg.unwrapEnum hc.types hs]
    rfl
  simp only [localLeaf, hv, registerAddress, pointerBytes]

theorem Closed.memberOfThis_grows {r : Resolver} (hr : c.resolver = some r) (name : Text)
    (span : Span) :
    memberOfThis? { c with types := t } r name span = c.memberOfThis? r name span := by
  simp only [memberOfThis?]
  split
  · rfl
  · split
    · rfl
    · rename_i sym hs
      have hk := hc.symbols r _ sym hr (.inl hs)
      simp only [hg.pointee hc.types hk, hg.members (hc.types.has_pointee _),
        hc.localLeaf_grows hg hk]

theorem Closed.bound_grows (name : Text) (span : Span) :
    bound? { c with types := t } name span = c.bound? name span := by
  refine bound_congr rfl rfl fun r hr => ?_
  rw [hc.memberOfThis_grows hg hr]
  cases hs : r.localSymbol? name with
  | none => simp only [Option.map_none]
  | some sym =>
    have hsym := hc.symbols r name sym hr (.inl hs)
    rw [Option.map_some, Option.map_some, hc.localLeaf_grows hg hsym]

/-- Names mean the same after the table has grown. -/
theorem Closed.agrees : c.Agrees { c with types := t } where
  resolve name span := by
    have ht : typeNamed? { c with types := t } name = c.typeNamed? name := by
      simp only [typeNamed?, hg.lookup?]
    rw [resolve_eq_getD, resolve_eq_getD, hc.bound_grows hg, ht]
  typeNamed? name := by simp only [typeNamed?, hg.lookup?]
  resolver := rfl
  depthLimit := rfl

end Agreement

theorem within_localLeaf {sym : Symbol} {span : Span} {e : Expr} (hs : c.types.Has sym.type)
    (h : c.localLeaf sym span = .ok e) : e.Within c.types := by
  simp only [localLeaf] at h
  split at h <;> cases h <;> exact hs

theorem within_baseLeaf {base : Base} {mode : Mode} {sym : Symbol} {span : Span} {e : Expr}
    (hs : c.types.Has sym.type) (h : baseLeaf base mode sym span = .ok e) : e.Within c.types := by
  simp only [baseLeaf] at h
  split at h <;> cases h
  exact hs

theorem within_registerLeaf {name : Text} {span : Span} {offset size : Nat} {e : Expr}
    (h : registerLeaf name span offset size = .ok e) : e.Within c.types := by
  simp only [registerLeaf] at h
  split at h <;> cases h <;> exact TypeTable.has_basic

theorem within_readSuffixes {start : Nat} {e e' : TypeExpr} (he : e.Within t) {ts : List Token}
    (h : (TypeExpr.readSuffixes start e ts).type = some e') : e'.Within t := by
  fun_induction TypeExpr.readSuffixes start e ts with
  | case1 e => cases h; exact he
  | case2 e tok rest _ ih => exact ih he h
  | case3 e tok _ _ n close after _ count _ ih => exact ih he h
  | case4 => cases h
  | case5 => cases h; exact he
  | case6 => cases h; exact he
  | case7 => cases h; exact he

section Trees
variable (hc : c.Closed)
include hc

theorem Closed.has_typeNamed {name : Text} {k : TypeKey} (h : c.typeNamed? name = some k) :
    c.types.Has k := by
  simp only [typeNamed?] at h
  split at h
  · rename_i hl
    cases h
    exact hc.types.names _ (TypeTable.mem_of_lookup hl)
  · obtain ⟨b, -, rfl⟩ := Option.map_eq_some_iff.1 h
    exact TypeTable.has_basic

theorem Closed.within_binding {name : Text} {b : Binding} (hb : c.Binds name b) {span : Span}
    {e : Expr} (h : b.read c name span = .ok e) : e.Within c.types := by
  cases hb with
  | localSymbol hr hs => exact within_localLeaf (hc.symbols _ _ _ hr (.inl hs)) h
  | @memberOfThis _ this hr hs =>
    simp only [Binding.read] at h
    cases hl : c.localLeaf this span with
    | error d => rw [hl] at h; cases h
    | ok leaf =>
      have hw := within_localLeaf (hc.symbols _ _ _ hr (.inl hs)) hl
      rw [hl] at h
      cases h
      exact hw
  | register => exact within_registerLeaf h
  | globalSymbol hr hs => exact within_baseLeaf (hc.symbols _ _ _ hr (.inr (.inl hs))) h
  | threadLocal hr hs => exact within_baseLeaf (hc.symbols _ _ _ hr (.inr (.inr (.inl hs)))) h
  | procedure hr hs => exact within_baseLeaf (hc.symbols _ _ _ hr (.inr (.inr (.inr hs)))) h
  | type hk =>
    cases h
    exact hc.has_typeNamed hk
  | unknown => cases h

theorem Closed.within_resolve {name : Text} {span : Span} {e : Expr}
    (h : c.resolve name span = .ok e) : e.Within c.types := by
  obtain ⟨b, hb, hread⟩ := c.exists_binding name
  exact hc.within_binding hb ((hread span).symm.trans h)

theorem Closed.within_read {text : Text} {ts : List Token} {e : TypeExpr}
    (h : (TypeExpr.read c text ts).type = some e) : e.Within c.types := by
  have hsigned (tok : Token) (rest : List Token) :
      (TypeExpr.readSigned text tok rest).1.Within c.types := by
    simp only [TypeExpr.readSigned]
    split
    · split
      · split <;> exact TypeTable.has_basic
      · exact TypeTable.has_basic
    · exact TypeTable.has_basic
  simp only [TypeExpr.read] at h
  split at h
  · cases h
  · split at h
    · exact within_readSuffixes (hsigned _ _) h
    · split at h
      · split at h
        · rename_i k hk
          exact within_readSuffixes (e := .named _ _ k) (hc.has_typeNamed hk) h
        · cases h
      · cases h

theorem Closed.within_readToken (text : Text) (tok : Token) :
    (Parser.readToken ⟨c, text⟩ tok).1.Within c.types := by
  simp only [Parser.readToken]
  split
  · split
    · rename_i e he
      exact hc.within_resolve he
    · trivial
  · split <;> trivial
  · split <;> trivial
  all_goals trivial

theorem Closed.assembles (text : Text) :
    Parser.Assembles ⟨c, text⟩ (·.Within c.types) (·.Within c.types) where
  missing := trivial
  token := hc.within_readToken text
  written _ _ ht := hc.within_read ht
  type _ ht := ht
  member _ _ _ _ hx := hx
  index _ _ _ hx hi := ⟨hx, hi⟩
  unary _ _ _ hx := hx
  deref _ _ hx := hx
  addressOf _ _ hx := hx
  sizeof _ _ hx := hx
  cast _ _ _ ht hx := ⟨ht, hx⟩
  binary _ _ _ _ hx hy := ⟨hx, hy⟩
  ternary _ _ _ _ h hyes hno := ⟨h, hyes, hno⟩

theorem Closed.within_parse (text : Text) (tokens : List Token) :
    (Parser.parse c text tokens).1.Within c.types :=
  (hc.assembles text).parse tokens

end Trees

end Context

/-- Two compilations that are the same up to the places in the text. -/
structure Compiled.Same (c c' : Compiled) : Prop where
  lowered : c'.lowered = c.lowered
  code : c'.code = c.code
  valueTree : c'.valueTree = c.valueTree
  valueCode : c'.valueCode = c.valueCode
  diagnostics : c'.diagnostics = c.diagnostics

/-- A compilation without complaints has lowered and encoded its tree. -/
theorem compile_of_no_diagnostics {c : Context} {text : Text}
    (hd : (compile c text).1.diagnostics = []) :
    (Parser.parse c text (Lexer.scan text)).2 = [] ∧ ∃ r s code,
      (Lowering.lower (Parser.parse c text (Lexer.scan text)).1).run { types := c.types } =
        (some r, s) ∧ s.diagnostics = [] ∧ r.node.encode = .ok code := by
  have hcode : (compile c text).1.code ≠ none := by
    rw [Ne, compile_code_iff_anyError, hd]
    nofun
  simp only [compile] at hd hcode
  generalize Parser.parse c text (Lexer.scan text) = p at hd hcode ⊢
  generalize hl : (Lowering.lower p.1).run { types := c.types } = out at hd hcode ⊢
  obtain ⟨o, s⟩ := out
  cases o with
  | none => exact absurd rfl hcode
  | some r =>
    simp only at hd hcode
    split at hd
    · rename_i he
      rw [if_pos he] at hcode
      exact absurd rfl hcode
    · rename_i he
      rw [if_neg he] at hcode
      cases hr : r.node.encode with
      | error e =>
        simp only [hr] at hcode
        exact absurd rfl hcode
      | ok code =>
        have hds : p.2 ++ s.diagnostics = [] := by
          simp only [hr] at hd
          split at hd
          · exact hd
          · split at hd
            · exact hd
            · simp at hd
        obtain ⟨hp, hs⟩ := List.append_eq_nil_iff.1 hds
        exact ⟨hp, r, s, code, rfl, hs, hr⟩

/-- The result of compiling a tree that is lowered and encoded without complaints. -/
theorem compile_eq_of_lower {c : Context} {text : Text} {r : Lowered} {s : Lowering.State}
    {code : List UInt8} {o : Option Lowered} {t : TypeTable}
    (hp : (Parser.parse c text (Lexer.scan text)).2 = [])
    (hr : (Lowering.lower (Parser.parse c text (Lexer.scan text)).1).run { types := c.types } =
      (some r, s)) (hs : s.diagnostics = []) (hcode : r.node.encode = .ok code)
    (hl : s.types.load r = (o, t)) :
    compile c text =
      (⟨text, (Parser.parse c text (Lexer.scan text)).1, some r, some code, o.map (·.node),
        o.bind (·.node.encode.toOption), []⟩, t) := by
  have he : Diagnostic.anyError ([] ++ s.diagnostics) = false := by rw [hs]; rfl
  simp only [compile, hp, hr, he, hcode, hl]
  cases o with
  | none => simp [hs]
  | some v =>
    obtain ⟨valueCode, hv⟩ := TypeTable.encode_load hl hcode
    simp [hs, hv, Except.toOption]

section
variable {c : Context} (hc : c.Closed)
include hc

/-- Compiling only interns types, and leaves the table closed. -/
theorem compile_grows (text : Text) :
    c.types.Grows (compile c text).2 ∧ (compile c text).2.Closed := by
  have ha := Lowering.again_lower (s := { types := c.types }) rfl hc.types
    (hc.within_parse text (Lexer.scan text))
  obtain ⟨hg, hclosed, -, -⟩ := ha
  simp only [compile]
  generalize (Lowering.lower (Parser.parse c text (Lexer.scan text)).1).run { types := c.types } =
    out at hg hclosed
  obtain ⟨o, s⟩ := out
  cases o with
  | none => exact ⟨hg, hclosed⟩
  | some r =>
    have hload : c.types.Grows (s.types.load r).2 ∧ (s.types.load r).2.Closed :=
      ⟨hg.trans (TypeTable.grows_load s.types r), hclosed.load_closed r⟩
    simp only
    split
    · exact ⟨hg, hclosed⟩
    · split
      · exact ⟨hg, hclosed⟩
      · split
        · rename_i hl
          rw [hl] at hload
          exact hload
        · rename_i hl
          rw [hl] at hload
          split <;> exact hload

/-- A text without complaints compiles to the same code in every later table, and nothing is added
to it then; so does a text with the same tokens. -/
theorem compile_again {text text' : Text} {t : TypeTable}
    (ht : (Lexer.scan text').map Token.erase = (Lexer.scan text).map Token.erase)
    (hd : (compile c text).1.diagnostics = []) (hg : (compile c text).2.Grows t) :
    (compile c text).1.Same (compile { c with types := t } text').1 ∧
      (compile { c with types := t } text').2 = t := by
  obtain ⟨hp, r, s, code, hr, hs, hcode⟩ := compile_of_no_diagnostics hd
  have hw := hc.within_parse text (Lexer.scan text)
  have hgc := (compile_grows hc text).1.trans hg
  obtain ⟨he, hp'⟩ : _ ∧ Diagnostic.complaints (Parser.parse _ text' _).2 =
      Diagnostic.complaints (Parser.parse c text _).2 := Parser.erase_parse (hc.agrees hgc) ht
  rw [hp, Diagnostic.complaints_nil, Diagnostic.complaints_eq_nil] at hp'
  have ha := Lowering.again_lower (s := { types := c.types }) he hc.types hw
  obtain ⟨-, hclosed, hhas, hagain⟩ := ha
  rw [hr] at hclosed hhas hagain
  obtain ⟨⟨o, t₁⟩, hl⟩ : ∃ out, s.types.load r = out := ⟨_, rfl⟩
  have hfirst := compile_eq_of_lower hp hr hs hcode hl
  rw [hfirst] at hg
  have hl₂ := TypeTable.load_again hclosed (hhas r rfl) hl hg
  have hgs : s.types.Grows t := by
    have := TypeTable.grows_load s.types r
    rw [hl] at this
    exact this.trans hg
  have hr₂ := hagain r rfl { types := t } hgs
  rw [hfirst, compile_eq_of_lower hp' hr₂ rfl hcode hl₂]
  exact ⟨⟨rfl, rfl, rfl, rfl, rfl⟩, rfl⟩

end

end WatchExpr
