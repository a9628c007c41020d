import WatchExpr.Proofs.Expression.Recognition
import WatchExpr.Proofs.Lexical.Enclosing

namespace WatchExpr

/-- How many parentheses are open behind a token; absent when it closes one that was not open. -/
def Token.nest (depth : Nat) (t : Token) : Option Nat :=
  if t.kind = .symbol ∧ t.literal = "(" then some (depth + 1)
  else if t.kind = .symbol ∧ t.literal = ")" then (if depth = 0 then none else some (depth - 1))
  else some depth

/-- How many parentheses are open behind some tokens. -/
def nesting (depth : Nat) (ts : List Token) : Option Nat := ts.foldlM Token.nest depth

theorem nesting_append (depth : Nat) (ts us : List Token) :
    nesting depth (ts ++ us) = (nesting depth ts).bind fun d => nesting d us :=
  List.foldlM_append

theorem nesting_cons (depth : Nat) (t : Token) (ts : List Token) :
    nesting depth (t :: ts) = (t.nest depth).bind fun d => nesting d ts :=
  List.foldlM_cons

/-- Every parenthesis has its partner, and every literal is closed. -/
structure Tidy (ts : List Token) : Prop where
  terminated : ∀ t ∈ ts, t.Terminated
  balanced : ∀ depth, nesting depth ts = some depth

namespace Tidy

variable {t : Token} {ts us : List Token} {w : Text}

theorem append (h : Tidy ts) (h' : Tidy us) : Tidy (ts ++ us) where
  terminated := List.forall_mem_append.2 ⟨h.terminated, h'.terminated⟩
  balanced depth := by rw [nesting_append, h.balanced, Option.bind_some, h'.balanced]

theorem cons (h : Tidy [t]) (h' : Tidy ts) : Tidy (t :: ts) := h.append h'

theorem of_kind (hs : t.kind ≠ .symbol) (ht : t.Terminated) : Tidy [t] where
  terminated := List.forall_mem_singleton.2 ht
  balanced depth := by simp [nesting, Token.nest, hs]

theorem of_symbol (h : t.erase = .symbol w) (hw : w ≠ "(" ∧ w ≠ ")") : Tidy [t] where
  terminated := List.forall_mem_singleton.2 (by
    rw [Token.Terminated, Token.kind_symbol h]
    rintro (h | h) <;> cases h)
  balanced depth := by simp [nesting, Token.nest, Token.literal_symbol h, hw]

theorem of_identifier (h : t.kind = .identifier) : Tidy [t] := by
  refine of_kind (by rw [h]; nofun) ?_
  rw [Token.Terminated, h]
  rintro (h | h) <;> cases h

theorem of_word (h : t.erase = .word w) : Tidy [t] := of_identifier (Token.kind_word h)

theorem of_numeric (h : t.kind = .numeric) : Tidy [t] := by
  refine of_kind (by rw [h]; nofun) ?_
  rw [Token.Terminated, h]
  rintro (h | h) <;> cases h

theorem of_char {v : UInt64 × Bool} (h : t.kind = .char)
    (hv : Literal.readChar t.literal = .ok v) : Tidy [t] := by
  refine of_kind (by rw [h]; nofun) fun _ => ?_
  simp only [Literal.readChar] at hv
  split at hv
  · cases hv
  · rename_i quote rest hl
    split at hv
    · cases hv
    · rename_i ht
      exact ⟨quote, rest, hl, by simpa using ht⟩

theorem enclosed {bra ket : Token} (ho : bra.erase = .symbol "(") (h : Tidy ts)
    (hc : ket.erase = .symbol ")") : Tidy (bra :: ts ++ [ket]) where
  terminated := by
    have hsymbol {t : Token} {w : Text} (h : t.erase = .symbol w) : t.Terminated := by
      rw [Token.Terminated, Token.kind_symbol h]
      rintro (h | h) <;> cases h
    exact List.forall_mem_append.2 ⟨List.forall_mem_cons.2 ⟨hsymbol ho, h.terminated⟩,
      List.forall_mem_singleton.2 (hsymbol hc)⟩
  balanced depth := by
    have hopen : bra.nest depth = some (depth + 1) :=
      if_pos ⟨Token.kind_symbol ho, Token.literal_symbol ho⟩
    have hclose : ket.nest (depth + 1) = some depth := by
      rw [Token.nest, Token.kind_symbol hc, Token.literal_symbol hc]
      rfl
    rw [List.cons_append, nesting_cons, hopen, Option.bind_some, nesting_append, h.balanced,
      Option.bind_some, nesting_cons, hclose]
    rfl

end Tidy

theorem WrittenType.Spells.tidy {c : Context} {text : Text} {t : WrittenType} {ts : List Token}
    (h : t.Spells c text ts) : Tidy ts := by
  induction h with
  | name hk => exact .of_identifier hk
  | sign ht => exact .of_word ht
  | signed ht hk => exact .cons (.of_word ht) (.of_identifier hk)
  | pointer _ hs ih => exact ih.append (.of_symbol hs (by decide))
  | array _ ho hk _ hc ih =>
    exact ih.append (.cons (.of_symbol ho (by decide))
      (.cons (.of_numeric hk) (.of_symbol hc (by decide))))

namespace Written

variable {c : Context} {text : Text} {R : Nat → Written → List Token → Prop}
  (hR : ∀ ceiling w ts, R ceiling w ts → Tidy ts)
include hR

theorem Core.tidy {w : Written} {ts : List Token} (h : Core c text R w ts) : Tidy ts := by
  induction h with
  | number hk => exact .of_numeric hk
  | char hk hv => exact .of_char hk hv
  | name hk => exact .of_identifier hk
  | type ht => exact ht.tidy
  | enclosed ho hw hc => exact .enclosed ho (hR _ _ _ hw) hc
  | @member w ts dot field arrow _ hd hk ih =>
    refine ih.append (.cons (.of_symbol hd ?_) (.of_identifier hk))
    cases arrow <;> decide
  | index _ ho hi hc ih =>
    exact (ih.append (.cons (.of_symbol ho (by decide)) (hR _ _ _ hi))).append
      (.of_symbol hc (by decide))

theorem Unary.tidy {n : Nat} {w : Written} {ts : List Token} (h : Unary c text R n w ts) :
    Tidy ts := by
  induction h with
  | core hw => exact hw.tidy hR
  | @sigil _ _ _ _ s ht _ ih =>
    refine .cons (.of_symbol ht ?_) ih
    cases s with
    | operator op => cases op <;> decide
    | _ => decide
  | sizeof ht _ _ ih => exact .cons (.of_word ht) ih
  | cast ho ht hc _ ih =>
    rw [List.append_cons]
    exact (Tidy.enclosed ho ht.tidy hc).append ih
  | sizeOfType hs ho ht hc => exact .cons (.of_word hs) (.enclosed ho ht.tidy hc)

theorem Operation.tidy {budget ceiling : Nat} {w : Written} {ts : List Token}
    (h : Operation c text R budget ceiling w ts) : Tidy ts := by
  induction h with
  | unary hw => exact hw.tidy hR
  | @binary _ op _ _ _ _ _ _ _ ht hy ih =>
    refine ih.append (.cons (.of_symbol ht ?_) (hR _ _ _ hy))
    cases op <;> decide
  | ternary _ _ hm hy hc hz ih =>
    exact (ih.append (.cons (.of_symbol hm (by decide)) (hR _ _ _ hy))).append
      (.cons (.of_symbol hc (by decide)) (hR _ _ _ hz))

omit hR in
theorem Renders.tidy {budget ceiling : Nat} {w : Written} {ts : List Token}
    (h : w.Renders c text budget ceiling ts) : Tidy ts := by
  induction budget generalizing ceiling w ts with
  | zero => exact h.elim
  | succ budget ih => exact Operation.tidy (fun _ _ _ hw => ih hw) h

end Written

theorem Parser.tidy_of_parse {c : Context} {text : Text} {ts : List Token}
    (hp : ∀ tok ∈ ts, tok.Proper) (hd : (parse c text ts).2 = []) : Tidy ts := by
  obtain ⟨w, hw, -⟩ := renders_of_parse hp hd
  exact hw.tidy

end WatchExpr
