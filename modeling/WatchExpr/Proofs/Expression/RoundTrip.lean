import WatchExpr.Debug.Info
import WatchExpr.Proofs.Expression.Recognition
import WatchExpr.Proofs.Lexical.Spacing
import WatchExpr.Proofs.Types.Growth

namespace WatchExpr

theorem spaced_isPrefix (ts us : List Token) : spaced ts <+: spaced (ts ++ us) := by
  induction ts with
  | nil => exact List.nil_prefix
  | cons t ts ih =>
    by_cases hne : ts = []
    · subst hne
      by_cases hu : us = []
      · subst hu
        exact List.prefix_refl _
      · rw [List.singleton_append, spaced_cons t hu]
        exact List.prefix_append _ _
    · have hne' : ts ++ us ≠ [] := List.append_ne_nil_of_left_ne_nil hne us
      rw [List.cons_append, spaced_cons t hne, spaced_cons t hne']
      exact (List.prefix_append_right_inj _).2 (List.cons_prefix_cons.2 ⟨rfl, ih⟩)

theorem spaced_tail {text : Text} {position : Nat} {t : Token} {ts : List Token}
    (h : spaced (t :: ts) <+: text.drop position) :
    spaced ts <+: text.drop (position + t.literal.length + 1) := by
  by_cases hne : ts = []
  · subst hne
    exact List.nil_prefix
  · rw [spaced_cons t hne] at h
    obtain ⟨tail, h⟩ := h
    refine ⟨tail, ?_⟩
    rw [Nat.add_assoc, ← List.drop_drop, ← h]
    simp [List.drop_append]

/-- Tokens that stand in a text with blanks between them. -/
def Laid (text : Text) (us ts : List Token) : Prop :=
  ∃ position, us = place position ts ∧ spaced ts <+: text.drop position

namespace Laid

variable {text : Text} {us ts ts' : List Token} {t : Token}

theorem cons (h : Laid text us (t :: ts)) :
    ∃ u us', us = u :: us' ∧ u.erase = t.erase ∧ Laid text us' ts := by
  obtain ⟨p, rfl, h⟩ := h
  exact ⟨_, _, rfl, rfl, p + t.literal.length + 1, rfl, spaced_tail h⟩

theorem singleton (h : Laid text us [t]) : ∃ u, us = [u] ∧ u.erase = t.erase := by
  obtain ⟨p, rfl, -⟩ := h
  exact ⟨_, rfl, rfl⟩

theorem append (h : Laid text us (ts ++ ts')) :
    ∃ vs vs', us = vs ++ vs' ∧ Laid text vs ts ∧ Laid text vs' ts' := by
  obtain ⟨p, rfl, h⟩ := h
  suffices hs : ∃ q, place p (ts ++ ts') = place p ts ++ place q ts' ∧ spaced ts' <+: text.drop q by
    obtain ⟨q, heq, hq⟩ := hs
    exact ⟨_, _, heq, ⟨p, rfl, (spaced_isPrefix ts ts').trans h⟩, q, rfl, hq⟩
  induction ts generalizing p with
  | nil => exact ⟨p, rfl, h⟩
  | cons t ts ih =>
    obtain ⟨q, heq, hq⟩ := ih _ (spaced_tail h)
    exact ⟨q, congrArg (_ :: ·) heq, hq⟩

theorem slice_one {u : Token} (h : Laid text [u] [t]) : slice text u u = t.literal := by
  obtain ⟨p, hp, h⟩ := h
  cases hp
  rw [slice, List.drop_take, Token.stop, Nat.add_sub_cancel_left]
  exact (List.prefix_iff_eq_take.1 h).symm

theorem slice_two {t' u u' : Token} (h : Laid text [u, u'] [t, t']) :
    slice text u u' = t.literal ++ 0x20 :: t'.literal := by
  obtain ⟨p, hp, h⟩ := h
  cases hp
  rw [spaced_cons t (by simp)] at h
  have hlen : (⟨t'.kind, t'.literal, p + t.literal.length + 1⟩ : Token).stop - p =
      (t.literal ++ 0x20 :: t'.literal).length := by
    simp only [Token.stop, List.length_append, List.length_cons]
    omega
  rw [slice, List.drop_take, hlen]
  exact (List.prefix_iff_eq_take.1 h).symm

end Laid

/-- A type whose name is seen as one, with the wording its tokens have. -/
def WrittenType.Legible (c : Context) : WrittenType → Prop
  | name literal =>
    Lexer.Stands .identifier literal ∧ literal ≠ "signed" ∧ literal ≠ "unsigned" ∧
      (c.typeNamed? literal).isSome ∧ ∀ r, c.resolver = some r → r.localSymbol? literal = none
  | signed isUnsigned integer wording =>
    (∀ i, integer = some i → ∃ k, builtinType? i = some k ∧ k.group.isInteger) ∧
      wording = spaced (signed isUnsigned integer wording).tokens
  | pointer elem => elem.Legible c
  | array elem count =>
    elem.Legible c ∧ Lexer.Stands .numeric count ∧
      (Literal.readCount? (Literal.trimIntSuffix count)).isSome

/-- An expression whose literals have values, whose names stand for something and are neither types
nor words of the language, and whose types are legible. -/
def Written.Legible (c : Context) : Written → Prop
  | number literal => Lexer.Stands .numeric literal ∧ (Literal.readNumber? literal).isSome
  | char literal => Lexer.Stands .char literal ∧ ∃ v, Literal.readChar literal = .ok (v, false)
  | name literal =>
    Lexer.Stands .identifier literal ∧
      literal ≠ "sizeof" ∧ literal ≠ "signed" ∧ literal ≠ "unsigned" ∧
      c.typeNamed? literal = none ∧ ∃ e, c.resolve literal .nowhere = .ok e
  | type _ => False
  | sizeOfType t => t.Legible c
  | cast t x => t.Legible c ∧ x.Legible c
  | sigil _ x | sizeof x => x.Legible c
  | member x field _ => x.Legible c ∧ Lexer.Stands .identifier field
  | binary _ x y | index x y => x.Legible c ∧ y.Legible c
  | ternary x y z => x.Legible c ∧ y.Legible c ∧ z.Legible c

namespace Lexer

theorem Stands.head {t : Text} (h : Stands .identifier t) :
    t.head?.any isIdentifierStart = true := by
  cases t with
  | nil => exact h.elim
  | cons c t => exact lexeme_eq_identifier.1 (congrArg Prod.fst h.2)

theorem proper_scanFrom (position : Nat) (text : Text) :
    ∀ tok ∈ scanFrom position text, tok.Proper := by
  fun_induction scanFrom position text with
  | case1 => simp
  | case2 position c rest _ ih => exact ih
  | case3 position c rest _ kind length hk token ih =>
    refine List.forall_mem_cons.2 ⟨?_, ih⟩
    have hkind : kind = (lexeme c rest).1 := by rw [hk]
    simp only [Token.Proper, token, hkind, lexeme_eq_identifier, List.head?_cons, Option.any_some]

end Lexer

theorem stands_builtin {literal : Text} {k : BasicKind} (h : builtinType? literal = some k) :
    Lexer.Stands .identifier literal := by
  have hall : ∀ p ∈ builtinTypes, Lexer.Stands .identifier p.1 := by decide +kernel
  exact hall _ (TypeTable.mem_of_lookup h)

namespace WrittenType

variable {c : Context} {text : Text} {t : WrittenType} {us : List Token}

theorem Legible.visible (h : t.Legible c) : t.Visible c := by
  induction t with
  | name literal => exact h.2.2.2.2
  | signed => trivial
  | pointer elem ih => exact ih h
  | array elem count ih => exact ih h.1

theorem Legible.stands (h : t.Legible c) : ∀ tok ∈ t.tokens, Lexer.Stands tok.kind tok.literal := by
  induction t with
  | name literal => exact List.forall_mem_singleton.2 h.1
  | signed isUnsigned integer wording =>
    refine List.forall_mem_cons.2 ⟨by cases isUnsigned <;> decide +kernel, ?_⟩
    cases integer with
    | none => nofun
    | some i =>
      obtain ⟨k, hk, -⟩ := h.1 i rfl
      exact List.forall_mem_singleton.2 (stands_builtin hk)
  | pointer elem ih =>
    exact List.forall_mem_append.2 ⟨ih h, List.forall_mem_singleton.2 (by decide +kernel)⟩
  | array elem count ih =>
    obtain ⟨he, hs, -⟩ := h
    refine List.forall_mem_append.2 ⟨ih he, List.forall_mem_cons.2 ⟨by decide +kernel, ?_⟩⟩
    exact List.forall_mem_cons.2 ⟨hs, List.forall_mem_singleton.2 (by decide +kernel)⟩

theorem Legible.spells (h : t.Legible c) (hl : Laid text us t.tokens) : t.Spells c text us := by
  induction t generalizing us with
  | name literal =>
    obtain ⟨-, hsigned, hunsigned, hk, -⟩ := h
    obtain ⟨tok, rfl, ht⟩ := hl.singleton
    have hkind : tok.kind = .identifier := congrArg Token.kind ht
    obtain rfl : tok.literal = literal := congrArg Token.literal ht
    refine .name hkind ?_ hk
    simp [TypeExpr.isSignWord, Token.is, hsigned, hunsigned]
  | signed isUnsigned integer wording =>
    obtain ⟨hi, hw⟩ := h
    cases integer with
    | none =>
      have hslice := hl
      obtain ⟨tok, rfl, ht⟩ := hl.singleton
      obtain rfl : wording = slice text tok tok := hw.trans hslice.slice_one.symm
      exact .sign ht
    | some i =>
      obtain ⟨k, hk, hint⟩ := hi i rfl
      have hslice := hl
      obtain ⟨tok, us, rfl, ht, hl⟩ := hl.cons
      obtain ⟨next, rfl, hnext⟩ := hl.singleton
      obtain rfl : wording = slice text tok next :=
        hw.trans ((spaced_cons _ (by simp)).trans hslice.slice_two.symm)
      have hkind : next.kind = .identifier := congrArg Token.kind hnext
      obtain rfl : next.literal = i := congrArg Token.literal hnext
      exact .signed ht hkind hk hint
  | pointer elem ih =>
    obtain ⟨vs, ws, rfl, hv, hw⟩ := hl.append
    obtain ⟨star, rfl, hstar⟩ := hw.singleton
    exact .pointer (ih h hv) hstar
  | array elem count ih =>
    obtain ⟨vs, ws, rfl, hv, hw⟩ := hl.append
    obtain ⟨bra, ws, rfl, hbra, hw⟩ := hw.cons
    obtain ⟨n, ws, rfl, hn, hw⟩ := hw.cons
    obtain ⟨ket, rfl, hket⟩ := hw.singleton
    have hkind : n.kind = .numeric := congrArg Token.kind hn
    obtain rfl : n.literal = count := congrArg Token.literal hn
    exact .array (ih h.1 hv) hbra hkind h.2.2 hket

end WrittenType

namespace Written

variable {c : Context} {text : Text} {w : Written} {us : List Token}

theorem Legible.plain (h : w.Legible c) : w.Plain c := by
  induction w with
  | number => trivial
  | char => trivial
  | name literal =>
    obtain ⟨hstands, hsizeof, -, -, htype, -⟩ := h
    exact ⟨hstands.head, hsizeof, htype⟩
  | type t => exact h
  | sigil s x ih => exact ih h
  | sizeof x ih => exact ih h
  | sizeOfType t => exact WrittenType.Legible.visible h
  | cast t x ih => exact ⟨h.1.visible, ih h.2⟩
  | binary op x y ihx ihy => exact ⟨ihx h.1, ihy h.2⟩
  | ternary x y z ihx ihy ihz => exact ⟨ihx h.1, ihy h.2.1, ihz h.2.2⟩
  | member x field arrow ih => exact ih h.1
  | index x i ihx ihi => exact ⟨ihx h.1, ihi h.2⟩

def AllStand (ts : List Token) : Prop := ∀ tok ∈ ts, Lexer.Stands tok.kind tok.literal

theorem Legible.stands (h : w.Legible c) : AllStand w.tokens := by
  have hcons {t : Token} {ts : List Token} (ht : Lexer.Stands t.kind t.literal)
      (hts : AllStand ts) : AllStand (t :: ts) := List.forall_mem_cons.2 ⟨ht, hts⟩
  have happend {ts ts' : List Token} (h : AllStand ts) (h' : AllStand ts') : AllStand (ts ++ ts') :=
    List.forall_mem_append.2 ⟨h, h'⟩
  have hone {t : Token} (ht : Lexer.Stands t.kind t.literal) : AllStand [t] :=
    List.forall_mem_singleton.2 ht
  have hsizeof : Lexer.Stands .identifier "sizeof" := by decide +kernel
  have hopen : Lexer.Stands .symbol "(" := by decide +kernel
  have hclose : Lexer.Stands .symbol ")" := by decide +kernel
  have henclose {ts : List Token} (needed : Bool) (h : AllStand ts) :
      AllStand (enclose needed ts) := by
    cases needed with
    | true => exact hcons hopen (happend h (hone hclose))
    | false => exact h
  induction w with
  | number => exact hone h.1
  | char => exact hone h.1
  | name => exact hone h.1
  | type => exact h.elim
  | sigil s x ih =>
    refine hcons ?_ (henclose _ (ih h))
    cases s with
    | operator op => cases op <;> decide +kernel
    | deref => decide +kernel
    | addressOf => decide +kernel
  | sizeof x ih => exact hcons hsizeof (henclose _ (ih h))
  | sizeOfType t =>
    exact hcons hsizeof (hcons hopen (happend (WrittenType.Legible.stands h) (hone hclose)))
  | cast t x ih =>
    exact hcons hopen (happend h.1.stands (hcons hclose (henclose _ (ih h.2))))
  | binary op x y ihx ihy =>
    refine happend (henclose _ (ihx h.1)) (hcons ?_ (henclose _ (ihy h.2)))
    cases op <;> decide +kernel
  | ternary x y z ihx ihy ihz =>
    refine happend (happend (henclose _ (ihx h.1)) (hcons ?_ (ihy h.2.1)))
      (hcons ?_ (henclose _ (ihz h.2.2))) <;> decide +kernel
  | member x field arrow ih =>
    refine happend (henclose _ (ih h.1)) (hcons ?_ (hone h.2))
    cases arrow <;> decide +kernel
  | index x i ihx ihi =>
    refine happend (happend (henclose _ (ihx h.1)) (hcons ?_ (ihi h.2))) (hone ?_) <;>
      decide +kernel

theorem nest_pos {needed : Bool} {depth : Nat} (h : 0 < depth) : 0 < nest needed depth := by
  cases needed with
  | true => exact depth.succ_pos
  | false => exact h

theorem depth_pos (w : Written) : 0 < w.depth := by
  induction w with
  | number | char | name | type | sizeOfType => exact Nat.one_pos
  | sigil | sizeof | cast => exact Nat.lt_of_lt_of_le (Nat.succ_pos _) (Nat.le_max_left _ _)
  | binary _ _ _ ih _ => exact Nat.lt_of_lt_of_le (nest_pos ih) (Nat.le_max_left _ _)
  | ternary _ _ _ ih _ _ => exact Nat.lt_of_lt_of_le (nest_pos ih) (Nat.le_max_left _ _)
  | member _ _ _ ih => exact nest_pos ih
  | index _ _ ih _ => exact Nat.lt_of_lt_of_le (nest_pos ih) (Nat.le_max_left _ _)

theorem marks_lt_depth (w : Written) : w.marks < w.depth := by
  cases w with
  | sigil | sizeof | cast => exact Nat.le_max_left _ _
  | _ => exact depth_pos _

theorem marks_of_level (h : w.level ≤ 1) : w.marks = 0 := by
  cases w with
  | sigil | sizeof | cast => cases Nat.le_of_succ_le_succ h
  | _ => rfl

/-- An expression whose tokens are derived in the grammar wherever they are laid, in the tightest
layer it belongs to and in the looser ones. -/
structure Fits (c : Context) (text : Text) (w : Written) : Prop where
  core {budget : Nat} {us : List Token} (hd : w.depth ≤ budget + 1) (hl : Laid text us w.tokens)
    (h : w.level ≤ 1) : Core c text (Renders c text budget) w us
  unary {budget : Nat} {us : List Token} (hd : w.depth ≤ budget + 1) (hl : Laid text us w.tokens)
    (h : w.level ≤ 2) : Unary c text (Renders c text budget) w.marks w us
  operation {budget ceiling : Nat} {us : List Token} (hd : w.depth ≤ budget + 1)
    (hl : Laid text us w.tokens) (h : w.level ≤ ceiling) :
    Operation c text (Renders c text budget) budget ceiling w us

theorem fits_of_unary (hlevel : w.level = 2)
    (h : ∀ {budget us}, w.depth ≤ budget + 1 → Laid text us w.tokens →
      Unary c text (Renders c text budget) w.marks w us) : w.Fits c text where
  core _ _ hle := absurd hle (by omega)
  unary hd hl _ := h hd hl
  operation hd hl _ := .unary (h hd hl) (Nat.le_of_lt_succ (Nat.lt_of_lt_of_le w.marks_lt_depth hd))

theorem fits_of_core (hlevel : w.level = 1)
    (h : ∀ {budget us}, w.depth ≤ budget + 1 → Laid text us w.tokens →
      Core c text (Renders c text budget) w us) : w.Fits c text where
  core hd hl _ := h hd hl
  unary hd hl hle := by
    rw [marks_of_level (Nat.le_of_eq hlevel)]
    exact .core (h hd hl)
  operation hd hl _ := .unary (.core (h hd hl)) (Nat.zero_le _)

theorem fits_of_operation (hlevel : 2 < w.level)
    (h : ∀ {budget ceiling us}, w.depth ≤ budget + 1 → Laid text us w.tokens →
      w.level ≤ ceiling → Operation c text (Renders c text budget) budget ceiling w us) :
    w.Fits c text where
  core _ _ hle := absurd hle (by omega)
  unary _ _ hle := absurd hle (by omega)
  operation := h

namespace Fits

variable {budget ceiling : Nat}

theorem enclosed (h : w.Fits c text) (hd : w.depth + 1 ≤ budget + 1)
    (hl : Laid text us (enclose true w.tokens)) : Core c text (Renders c text budget) w us := by
  obtain ⟨bra, us, rfl, hbra, hl⟩ := hl.cons
  obtain ⟨us, ws, rfl, hus, hws⟩ := hl.append
  obtain ⟨ket, rfl, hket⟩ := hws.singleton
  obtain ⟨budget, rfl⟩ : ∃ b, budget = b + 1 := ⟨budget - 1, by have := w.depth_pos; omega⟩
  exact .enclosed hbra (h.operation (by omega) hus w.level_le) hket

variable {needed : Bool}

theorem core_operand (h : w.Fits c text) (hd : nest needed w.depth ≤ budget + 1)
    (hl : Laid text us (enclose needed w.tokens)) (hle : needed = false → w.level ≤ 1) :
    Core c text (Renders c text budget) w us := by
  cases needed with
  | true => exact h.enclosed hd hl
  | false => exact h.core hd hl (hle rfl)

theorem unary_operand (h : w.Fits c text) (hd : nest needed w.depth ≤ budget + 1)
    (hl : Laid text us (enclose needed w.tokens)) (hle : needed = false → w.level ≤ 2) :
    Unary c text (Renders c text budget) (if needed then 0 else w.marks) w us := by
  cases needed with
  | true => exact .core (h.enclosed hd hl)
  | false => exact h.unary hd hl (hle rfl)

theorem operation_operand (h : w.Fits c text) (hd : nest needed w.depth ≤ budget + 1)
    (hl : Laid text us (enclose needed w.tokens)) (hle : needed = false → w.level ≤ ceiling) :
    Operation c text (Renders c text budget) budget ceiling w us := by
  cases needed with
  | true => exact .unary (.core (h.enclosed hd hl)) (Nat.zero_le _)
  | false => exact h.operation hd hl (hle rfl)

theorem renders (h : w.Fits c text) (hl : Laid text us (enclose needed w.tokens))
    (hd : nest needed w.depth ≤ budget) (hle : needed = false → w.level ≤ ceiling) :
    w.Renders c text budget ceiling us := by
  cases budget with
  | zero => exact absurd hd (Nat.not_le.2 (nest_pos w.depth_pos))
  | succ budget => exact h.operation_operand hd hl hle

/-- Under the highest ceiling there is no need for parentheses. -/
theorem renders_bare (h : w.Fits c text) (hd : w.depth ≤ budget) (hl : Laid text us w.tokens) :
    w.Renders c text budget maxPrecedence us := by
  have hl : Laid text us (enclose false w.tokens) := hl
  exact h.renders hl hd fun _ => w.level_le

end Fits

theorem Legible.fits (h : w.Legible c) : w.Fits c text := by
  have bare {ceiling level : Nat} (h : decide (ceiling < level) = false) : level ≤ ceiling :=
    Nat.not_lt.1 (of_decide_eq_false h)
  induction w with
  | number literal =>
    refine fits_of_core rfl fun _ hl => ?_
    obtain ⟨tok, rfl, ht⟩ := hl.singleton
    have hkind : tok.kind = .numeric := congrArg Token.kind ht
    obtain rfl : tok.literal = literal := congrArg Token.literal ht
    exact .number hkind h.2
  | char literal =>
    obtain ⟨-, v, hv⟩ := h
    refine fits_of_core rfl fun _ hl => ?_
    obtain ⟨tok, rfl, ht⟩ := hl.singleton
    have hkind : tok.kind = .char := congrArg Token.kind ht
    obtain rfl : tok.literal = literal := congrArg Token.literal ht
    exact .char hkind hv
  | name literal =>
    obtain ⟨-, -, hsigned, hunsigned, -, e, he⟩ := h
    refine fits_of_core rfl fun _ hl => ?_
    obtain ⟨tok, rfl, ht⟩ := hl.singleton
    have hkind : tok.kind = .identifier := congrArg Token.kind ht
    obtain rfl : tok.literal = literal := congrArg Token.literal ht
    refine .name hkind ?_ he
    simp [TypeExpr.isSignWord, Token.is, hsigned, hunsigned]
  | type => exact h.elim
  | sigil s x ih =>
    refine fits_of_unary rfl fun hd hl => ?_
    obtain ⟨tok, us, rfl, ht, hl⟩ := hl.cons
    have hx := (ih h).unary_operand (Nat.max_le.1 hd).2 hl bare
    rw [marks, Nat.add_comm]
    exact .sigil ht (by simpa using hx)
  | sizeof x ih =>
    refine fits_of_unary rfl fun hd hl => ?_
    obtain ⟨tok, us, rfl, ht, hl⟩ := hl.cons
    have hx := (ih h).unary_operand (Nat.max_le.1 hd).2 hl fun hn =>
      bare (Bool.or_eq_false_iff.1 hn).1
    rw [marks, Nat.add_comm]
    refine .sizeof ht hx fun hcast => ?_
    rw [hcast, Bool.or_true]
    rfl
  | sizeOfType t =>
    refine fits_of_unary rfl fun _ hl => ?_
    obtain ⟨tok, us, rfl, ht, hl⟩ := hl.cons
    obtain ⟨bra, us, rfl, hbra, hl⟩ := hl.cons
    obtain ⟨us, ws, rfl, hus, hws⟩ := hl.append
    obtain ⟨ket, rfl, hket⟩ := hws.singleton
    exact .sizeOfType ht hbra (WrittenType.Legible.spells h hus) hket
  | cast t x ih =>
    refine fits_of_unary rfl fun hd hl => ?_
    obtain ⟨bra, us, rfl, hbra, hl⟩ := hl.cons
    obtain ⟨us, ws, rfl, hus, hws⟩ := hl.append
    obtain ⟨ket, ws, rfl, hket, hws⟩ := hws.cons
    have hx := (ih h.2).unary_operand (Nat.max_le.1 hd).2 hws bare
    rw [marks, Nat.add_comm]
    exact .cast hbra (h.1.spells hus) hket (by simpa using hx)
  | binary op x y ihx ihy =>
    refine fits_of_operation op.precedence_bounds.1 fun hd hl hle => ?_
    obtain ⟨hdx, hdy⟩ := Nat.max_le.1 hd
    obtain ⟨us, ws, rfl, hus, hws⟩ := hl.append
    obtain ⟨tok, ws, rfl, ht, hws⟩ := hws.cons
    exact .binary hle ((ihx h.1).operation_operand hdx hus bare) ht
      ((ihy h.2).renders hws (Nat.le_of_succ_le_succ hdy) bare)
  | ternary x y z ihx ihy ihz =>
    refine fits_of_operation (Nat.le_of_ble_eq_true rfl) fun hd hl hle => ?_
    obtain ⟨hdx, hd⟩ := Nat.max_le.1 hd
    obtain ⟨hdy, hdz⟩ := Nat.max_le.1 (Nat.le_of_succ_le_succ hd)
    obtain ⟨us, vs, rfl, hl, hvs⟩ := hl.append
    obtain ⟨us, ws, rfl, hus, hws⟩ := hl.append
    obtain ⟨mark, ws, rfl, hmark, hws⟩ := hws.cons
    obtain ⟨colon, vs, rfl, hcolon, hvs⟩ := hvs.cons
    exact .ternary hle ((ihx h.1).operation_operand hdx hus bare) hmark
      ((ihy h.2.1).renders_bare hdy hws) hcolon ((ihz h.2.2).renders hvs hdz bare)
  | member x field arrow ih =>
    refine fits_of_core rfl fun hd hl => ?_
    obtain ⟨us, ws, rfl, hus, hws⟩ := hl.append
    obtain ⟨dot, ws, rfl, hdot, hws⟩ := hws.cons
    obtain ⟨name, rfl, hname⟩ := hws.singleton
    have hkind : name.kind = .identifier := congrArg Token.kind hname
    obtain rfl : name.literal = field := congrArg Token.literal hname
    exact .member ((ih h.1).core_operand hd hus bare) hdot hkind
  | index x i ihx ihi =>
    refine fits_of_core rfl fun hd hl => ?_
    obtain ⟨hdx, hdi⟩ := Nat.max_le.1 hd
    obtain ⟨vs, ws, rfl, hvs, hws⟩ := hl.append
    obtain ⟨ket, rfl, hket⟩ := hws.singleton
    obtain ⟨us, ws, rfl, hus, hws⟩ := hvs.append
    obtain ⟨bra, ws, rfl, hbra, hws⟩ := hws.cons
    exact .index ((ihx h.1).core_operand hdx hus bare) hbra
      ((ihi h.2).renders_bare (Nat.le_of_succ_le_succ hdi) hws) hket

end Written

namespace Parser

open Lexer (scan)

/-- Reading follows the grammar of the operators. A legible expression, written with the fewest
parentheses and blanks between its tokens, is read back as its tree without complaints if nesting
goes deep enough; and tokens that are read without complaints are derived in the grammar for an
expression with the tree that was read, so they are its tokens but for more parentheses. -/
theorem parse_follows_grammar (c : Context) :
    (∀ w : Written, w.Legible c → w.depth ≤ c.depthLimit →
      ∃ e, parse c (spaced w.tokens) (scan (spaced w.tokens)) = (e, []) ∧ e.unplaced = w.tree c) ∧
    ∀ text e, parse c text (scan text) = (e, []) →
      ∃ w : Written, w.Renders c text c.depthLimit maxPrecedence (scan text) ∧
        w.tree c = e.unplaced ∧ Wrapped w.tokens ((scan text).map Token.erase) := by
  constructor
  · intro w hw hdepth
    have hscan : scan (spaced w.tokens) = place 0 w.tokens := Lexer.scanFrom_spaced hw.stands 0
    have hlaid : Laid (spaced w.tokens) (scan (spaced w.tokens)) w.tokens :=
      ⟨0, hscan, List.prefix_refl _⟩
    obtain ⟨htree, hd⟩ := parse_of_renders (hw.fits.renders_bare hdepth hlaid) hw.plain
    exact ⟨_, Prod.ext rfl hd, htree⟩
  · intro text e he
    obtain ⟨w, hw, htree⟩ := renders_of_parse (Lexer.proper_scanFrom 0 text) (congrArg Prod.snd he)
    have hwrapped := Written.wrapped_of_max (fun _ _ _ hceiling h => h.wrapped hceiling) hw
    exact ⟨w, hw, htree.trans (congrArg (·.1.unplaced) he), hwrapped⟩

def pairScope : DebugScope :=
  { arch := .x64
    types := .empty 8
    locals :=
      [("x", { name := "x", type := .basic .s32, location := .register, register := 1 }),
        ("p", { name := "p", type := .basic .u64, location := .register, register := 2 })] }

def conditional : Written :=
  .ternary
    (.binary .add (.sizeof (.cast (.name "int") (.name "x"))) (.index (.name "p") (.number "1")))
    (.member (.sigil .deref (.name "p")) "f" false)
    (.sigil (.operator .neg) (.cast (.signed true none "unsigned") (.char "'a'")))

theorem conditional_read_back :
    spaced conditional.tokens =
        "sizeof ( ( int ) x ) + p [ 1 ] ? ( * p ) . f : - ( unsigned ) 'a'" ∧
      ∃ e, parse pairScope.context (spaced conditional.tokens) (scan (spaced conditional.tokens)) =
        (e, []) ∧ e.unplaced = conditional.tree pairScope.context := by
  have hname {name : Text} (h : name = "x" ∨ name = "p") :
      Written.Legible pairScope.context (.name name) := by
    obtain rfl | rfl := h <;>
      exact ⟨by decide +kernel, by decide, by decide, by decide, by decide +kernel, _,
        by with_unfolding_all rfl⟩
  have hint : WrittenType.Legible pairScope.context (.name "int") :=
    ⟨by decide +kernel, by decide, by decide, by decide +kernel, by rintro _ ⟨⟩; decide +kernel⟩
  have hlegible : conditional.Legible pairScope.context :=
    ⟨⟨⟨hint, hname (.inl rfl)⟩, hname (.inr rfl), by decide +kernel, by decide +kernel⟩,
      ⟨hname (.inr rfl), by decide +kernel⟩, ⟨nofun, by decide +kernel⟩, by decide +kernel, _,
      by with_unfolding_all rfl⟩
  exact ⟨by decide +kernel, (parse_follows_grammar _).1 conditional hlegible (by decide +kernel)⟩

/-- Locals named like a word and like a type of the language, and a global of the namespace. -/
def namesakes : DebugScope :=
  { arch := .x64
    types := .empty 8
    procedure := "ns::f"
    locals :=
      [("sizeof", { name := "sizeof", type := .basic .s32, location := .register, register := 1 }),
        ("int", { name := "int", type := .basic .s32, location := .register, register := 2 })]
    globals := [("ns::x", { name := "ns::x", type := .basic .s32, offset := 16 })] }

/-- A name that is a word of the language is not read as the symbol it stands for; a builtin type
that is hidden by a local is not read as a type; and a symbol is named differently from the text. -/
theorem namesakes_not_read_back :
    (¬ ∀ (c : Context) (name : Text), Lexer.Stands .identifier name → c.typeNamed? name = none →
      (∃ code k mode, c.resolve name .nowhere = .ok (.leaf .nowhere name code k mode)) →
      (parse c name (scan name)).2 = []) ∧
    (¬ ∀ c : Context, c.typeNamed? "int" = some (.basic .s32) →
      (parse c "( int ) 1" (scan "( int ) 1")).2 = []) ∧
    ¬ ∀ (c : Context) (text name : Text) (span : Span) (code : List UInt8) (k : TypeKey)
      (mode : Mode),
      parse c text (scan text) = (.leaf span name code k mode, []) →
      Wrapped [.word name] ((scan text).map Token.erase) := by
  refine ⟨fun h => ?_, fun h => ?_, fun h => ?_⟩
  · have hd := h namesakes.context "sizeof" (by decide +kernel) (by decide +kernel)
      ⟨_, _, _, by with_unfolding_all rfl⟩
    exact absurd hd (by decide +kernel)
  · exact absurd (h namesakes.context (by decide +kernel)) (by decide +kernel)
  · have hw := h namesakes.context "x" "ns::x" ⟨0, 1⟩ _ _ _ (by with_unfolding_all rfl)
    exact absurd hw.sublist (by decide +kernel)

end Parser

end WatchExpr
