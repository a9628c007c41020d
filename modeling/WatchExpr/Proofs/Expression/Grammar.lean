import WatchExpr.Proofs.Expression.Written

namespace WatchExpr

/-- The text from the start of a token to the end of one. -/
def slice (text : Text) (first last : Token) : Text := (text.take last.stop).drop first.start

inductive WrittenType.Spells (c : Context) (text : Text) : WrittenType → List Token → Prop
  | name {tok : Token} (hk : tok.kind = .identifier) (hs : TypeExpr.isSignWord tok = false)
      (ht : (c.typeNamed? tok.literal).isSome) : Spells c text (.name tok.literal) [tok]
  | sign {tok : Token} {isUnsigned : Bool} (ht : tok.erase = .word (signWord isUnsigned)) :
      Spells c text (.signed isUnsigned none (slice text tok tok)) [tok]
  | signed {tok next : Token} {isUnsigned : Bool} {k : BasicKind}
      (ht : tok.erase = .word (signWord isUnsigned)) (hk : next.kind = .identifier)
      (hb : builtinType? next.literal = some k) (hi : k.group.isInteger) :
      Spells c text (.signed isUnsigned (some next.literal) (slice text tok next)) [tok, next]
  | pointer {elem : WrittenType} {ts : List Token} {star : Token} (h : Spells c text elem ts)
      (hs : star.erase = .symbol "*") : Spells c text (.pointer elem) (ts ++ [star])
  | array {elem : WrittenType} {ts : List Token} {bra count ket : Token}
      (h : Spells c text elem ts) (ho : bra.erase = .symbol "[") (hk : count.kind = .numeric)
      (hn : (Literal.readCount? (Literal.trimIntSuffix count.literal)).isSome)
      (hc : ket.erase = .symbol "]") :
      Spells c text (.array elem count.literal) (ts ++ [bra, count, ket])

namespace Written

section
variable (c : Context) (text : Text) (R : Nat → Written → List Token → Prop)

/-- An atom with the member accesses and indexes after it. -/
inductive Core : Written → List Token → Prop
  | number {tok : Token} (hk : tok.kind = .numeric)
      (hn : (Literal.readNumber? tok.literal).isSome) : Core (.number tok.literal) [tok]
  | char {tok : Token} {v : UInt64} (hk : tok.kind = .char)
      (hv : Literal.readChar tok.literal = .ok (v, false)) : Core (.char tok.literal) [tok]
  | name {tok : Token} {e : Expr} (hk : tok.kind = .identifier)
      (hs : TypeExpr.isSignWord tok = false) (he : c.resolve tok.literal .nowhere = .ok e) :
      Core (.name tok.literal) [tok]
  | type {t : WrittenType} {ts : List Token} (ht : t.Spells c text ts) : Core (.type t) ts
  | enclosed {w : Written} {ts : List Token} {bra ket : Token} (ho : bra.erase = .symbol "(")
      (hw : R maxPrecedence w ts) (hc : ket.erase = .symbol ")") : Core w (bra :: ts ++ [ket])
  | member {w : Written} {ts : List Token} {dot field : Token} {arrow : Bool} (hw : Core w ts)
      (hd : dot.erase = .symbol (if arrow then "->" else "." : String))
      (hk : field.kind = .identifier) : Core (.member w field.literal arrow) (ts ++ [dot, field])
  | index {w i : Written} {ts us : List Token} {bra ket : Token} (hw : Core w ts)
      (ho : bra.erase = .symbol "[") (hi : R maxPrecedence i us) (hc : ket.erase = .symbol "]") :
      Core (.index w i) (ts ++ bra :: us ++ [ket])

/-- Some prefix operators before an atom, or the size of a type. -/
inductive Unary : Nat → Written → List Token → Prop
  | core {w : Written} {ts : List Token} (hw : Core c text R w ts) : Unary 0 w ts
  | sigil {n : Nat} {w : Written} {ts : List Token} {tok : Token} {s : Sigil}
      (ht : tok.erase = .symbol s.symbol) (hw : Unary n w ts) :
      Unary (n + 1) (.sigil s w) (tok :: ts)
  | sizeof {n : Nat} {w : Written} {ts : List Token} {tok : Token} (ht : tok.erase = .word "sizeof")
      (hw : Unary n w ts) (hcast : w.isCast → n = 0) : Unary (n + 1) (.sizeof w) (tok :: ts)
  | cast {n : Nat} {t : WrittenType} {w : Written} {ts us : List Token} {bra ket : Token}
      (ho : bra.erase = .symbol "(") (ht : t.Spells c text us) (hc : ket.erase = .symbol ")")
      (hw : Unary n w ts) : Unary (n + 1) (.cast t w) (bra :: us ++ ket :: ts)
  | sizeOfType {t : WrittenType} {us : List Token} {tok bra ket : Token}
      (hs : tok.erase = .word "sizeof") (ho : bra.erase = .symbol "(") (ht : t.Spells c text us)
      (hc : ket.erase = .symbol ")") : Unary 0 (.sizeOfType t) (tok :: bra :: us ++ [ket])

/-- Operands with operators between them that bind no looser than a ceiling. -/
inductive Operation (budget : Nat) : Nat → Written → List Token → Prop
  | unary {n ceiling : Nat} {w : Written} {ts : List Token} (hw : Unary c text R n w ts)
      (hn : n ≤ budget) : Operation budget ceiling w ts
  | binary {ceiling : Nat} {op : InfixOp} {x y : Written} {ts us : List Token} {tok : Token}
      (hp : op.precedence ≤ ceiling) (hx : Operation budget op.precedence x ts)
      (ht : tok.erase = .symbol op.symbol) (hy : R (op.precedence - 1) y us) :
      Operation budget ceiling (.binary op x y) (ts ++ tok :: us)
  | ternary {ceiling : Nat} {x y z : Written} {ts us vs : List Token} {mark colon : Token}
      (hp : ternaryPrecedence ≤ ceiling) (hx : Operation budget (ternaryPrecedence - 1) x ts)
      (hm : mark.erase = .symbol "?") (hy : R maxPrecedence y us)
      (hc : colon.erase = .symbol ":") (hz : R ternaryPrecedence z vs) :
      Operation budget ceiling (.ternary x y z) (ts ++ mark :: us ++ colon :: vs)

end

/-- The token sequences of an expression under a ceiling, nested at most `budget` deep. -/
def Renders (c : Context) (text : Text) :
    (budget : Nat) → (ceiling : Nat) → Written → List Token → Prop
  | 0 => fun _ _ _ => False
  | budget + 1 => Operation c text (Renders c text budget) budget

end Written

theorem WrittenType.Spells.map_erase {c : Context} {text : Text} {t : WrittenType}
    {ts : List Token} (h : t.Spells c text ts) : ts.map Token.erase = t.tokens := by
  have hword {tok : Token} (hk : tok.kind = .identifier) : tok.erase = .word tok.literal := by
    rw [Token.erase, hk]
    rfl
  induction h with
  | name hk => exact congrArg ([·]) (hword hk)
  | sign ht => exact congrArg ([·]) ht
  | signed ht hk =>
    rw [List.map_cons, List.map_cons, ht, hword hk]
    rfl
  | pointer _ hs ih =>
    rw [List.map_append, ih]
    exact congrArg (_ ++ [·]) hs
  | array _ ho hk _ hc ih =>
    rw [List.map_append, ih, List.map_cons, List.map_cons, List.map_cons, ho, hc, Token.erase, hk]
    rfl

theorem InfixOp.precedence_bounds (op : InfixOp) : 3 ≤ op.precedence ∧ op.precedence ≤ 12 := by
  cases op <;> decide

namespace Written

theorem level_le (w : Written) : w.level ≤ maxPrecedence := by
  cases w with
  | binary op => exact Nat.le_trans op.precedence_bounds.2 (by decide)
  | _ => exact Nat.le_of_ble_eq_true rfl

section Wrapping
variable {c : Context} {text : Text} {R : Nat → Written → List Token → Prop}
  (hR : ∀ ceiling w ts, 2 ≤ ceiling → R ceiling w ts →
    Wrapped (enclose (ceiling < w.level) w.tokens) (ts.map Token.erase))
include hR

theorem wrapped_of_max {w : Written} {ts : List Token} (h : R maxPrecedence w ts) :
    Wrapped w.tokens (ts.map Token.erase) := by
  have hlevel : decide (maxPrecedence < w.level) = false :=
    decide_eq_false (Nat.not_lt.2 w.level_le)
  have hw := hR maxPrecedence w ts (by decide) h
  rwa [hlevel] at hw

theorem Core.wrapped {w : Written} {ts : List Token} (h : Core c text R w ts) :
    Wrapped (enclose (1 < w.level) w.tokens) (ts.map Token.erase) := by
  have hone {tok : Token} {kind : TokenKind} (hk : tok.kind = kind) :
      Wrapped [⟨kind, tok.literal, 0⟩] ([tok].map Token.erase) := by
    subst hk
    exact .refl _
  induction h with
  | number hk => exact hone hk
  | char hk => exact hone hk
  | name hk => exact hone hk
  | type ht =>
    rw [ht.map_erase]
    exact .refl _
  | @enclosed w ts bra ket ho hw hc =>
    have hw : Wrapped (enclose true w.tokens) (enclose true (ts.map Token.erase)) :=
      ((wrapped_of_max hR hw).append (.refl [.symbol ")"])).cons (.symbol "(")
    rw [List.map_append, List.map_cons, List.map_singleton, ho, hc]
    exact (Wrapped.enclose_of_imp (fun _ => rfl) _).trans hw
  | member _ hd hk ih =>
    rw [List.map_append, List.map_cons, hd]
    exact ih.append (.cons _ (hone hk))
  | index _ ho hi hc ih =>
    rw [List.map_append, List.map_append, List.map_cons, List.map_singleton, ho, hc]
    exact (ih.append (.cons _ (wrapped_of_max hR hi))).append (.refl _)

theorem Unary.wrapped {n : Nat} {w : Written} {ts : List Token} (h : Unary c text R n w ts) :
    Wrapped (enclose (2 < w.level) w.tokens) (ts.map Token.erase) ∧
      (w.isCast → n = 0 → Wrapped (enclose true w.tokens) (ts.map Token.erase)) := by
  induction h with
  | @core w ts hw =>
    have hw := hw.wrapped hR
    refine ⟨(Wrapped.enclose_of_imp (fun h => ?_) _).trans hw, fun hcast _ => ?_⟩
    · simp only [decide_eq_true_eq] at h ⊢
      omega
    · cases w with
      | cast t x => exact hw
      | _ => cases hcast
  | sigil ht _ ih =>
    rw [List.map_cons, ht]
    exact ⟨.cons _ ih.1, nofun⟩
  | @sizeof n w ts tok ht _ hcast ih =>
    rw [List.map_cons, ht]
    refine ⟨.cons _ ?_, nofun⟩
    cases hw : w.isCast with
    | true =>
      rw [Bool.or_true]
      exact ih.2 hw (hcast hw)
    | false =>
      rw [Bool.or_false]
      exact ih.1
  | cast ho ht hc _ ih =>
    rw [List.map_append, List.map_cons, List.map_cons, ho, hc, ht.map_erase]
    exact ⟨(Wrapped.refl _).append (.cons _ ih.1), nofun⟩
  | sizeOfType hs ho ht hc =>
    rw [List.map_append, List.map_cons, List.map_cons, List.map_singleton, hs, ho, hc, ht.map_erase]
    exact ⟨.refl _, nofun⟩

theorem Operation.wrapped {budget ceiling : Nat} {w : Written} {ts : List Token}
    (h : Operation c text R budget ceiling w ts) (hceiling : 2 ≤ ceiling) :
    Wrapped (enclose (ceiling < w.level) w.tokens) (ts.map Token.erase) := by
  have hbare {w : Written} {ceiling : Nat} (hle : w.level ≤ ceiling) :
      enclose (ceiling < w.level) w.tokens = w.tokens := by
    rw [decide_eq_false (Nat.not_lt.2 hle)]
    rfl
  induction h with
  | unary hw =>
    refine (Wrapped.enclose_of_imp (fun h => ?_) _).trans (hw.wrapped hR).1
    simp only [decide_eq_true_eq] at h ⊢
    omega
  | @binary ceiling op x y ts us tok hp _ ht hy ih =>
    have hb := op.precedence_bounds
    rw [hbare (w := .binary op x y) hp, List.map_append, List.map_cons, ht]
    exact (ih (by omega)).append (.cons _ (hR _ _ _ (by omega) hy))
  | @ternary ceiling x y z ts us vs mark colon hp _ hm hy hc hz ih =>
    rw [hbare (w := .ternary x y z) hp, List.map_append, List.map_append, List.map_cons,
      List.map_cons, hm, hc]
    exact ((ih (by decide)).append (.cons _ (wrapped_of_max hR hy))).append
      (.cons _ (hR _ _ _ (by decide) hz))

end Wrapping

/-- The tokens of an expression are those with the fewest parentheses, but for more parentheses. -/
theorem Renders.wrapped {c : Context} {text : Text} {budget ceiling : Nat} {w : Written}
    {ts : List Token} (hceiling : 2 ≤ ceiling) (h : w.Renders c text budget ceiling ts) :
    Wrapped (enclose (ceiling < w.level) w.tokens) (ts.map Token.erase) := by
  induction budget generalizing ceiling w ts with
  | zero => exact h.elim
  | succ budget ih => exact Operation.wrapped (fun _ _ _ hc hw => ih hc hw) h hceiling

end Written

end WatchExpr
