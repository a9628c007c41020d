import WatchExpr.Proofs.Lexical.Serialization

namespace WatchExpr

def Text.between (text : Text) (start stop : Nat) : Text := (text.take stop).drop start

theorem Text.between_of_drop {text front rest : Text} {start : Nat}
    (h : text.drop start = front ++ rest) : text.between start (start + front.length) = front := by
  rw [Text.between, List.drop_take, Nat.add_sub_cancel_left, h, List.take_left]

namespace Lexer

/-- What a text holds in front of each of its tokens, from a position on. -/
def gaps (text : Text) : Nat → List Token → List Text
  | _, [] => []
  | position, t :: ts => text.between position t.start :: gaps text t.stop ts

/-- Tokens of a text that starts at a position, laid end to end but for white space. -/
inductive Tiles : Nat → Text → List Token → Prop where
  | done {position : Nat} {blank : Text} : blank.all Byte.isSpace → Tiles position blank []
  | token {position : Nat} {blank rest : Text} {t : Token} {ts : List Token} :
      blank.all Byte.isSpace → t.start = position + blank.length → t.kind ≠ .eof →
      t.literal ≠ [] → Tiles t.stop rest ts →
      Tiles position (blank ++ (t.literal ++ rest)) (t :: ts)

theorem Tiles.space {position : Nat} {c : UInt8} {rest : Text} {ts : List Token}
    (hc : Byte.isSpace c) (h : Tiles (position + 1) rest ts) : Tiles position (c :: rest) ts := by
  cases h with
  | done hb => exact .done (by rw [List.all_cons, hc, hb]; rfl)
  | @token _ blank rest t ts hb hs hk hl h =>
    rw [← List.cons_append]
    exact .token (by rw [List.all_cons, hc, hb]; rfl) (by rw [hs, List.length_cons]; omega) hk hl h

theorem tiles_scanFrom (position : Nat) (text : Text) :
    Tiles position text (scanFrom position text) := by
  fun_induction scanFrom position text with
  | case1 => exact .done rfl
  | case2 position c rest hc ih => exact ih.space hc
  | case3 position c rest hc kind length hk token ih =>
    have htext : c :: rest = [] ++ (token.literal ++ rest.drop length) := by
      rw [List.nil_append, List.cons_append, List.take_append_drop]
    have hkind : kind ≠ .eof := by
      have := Fingerprint.lexeme_ne_eof c rest
      rw [hk] at this
      exact this
    rw [htext]
    exact .token rfl rfl hkind (List.cons_ne_nil _ _) ih

namespace Tiles

variable {position : Nat} {text rest : Text} {ts : List Token}

theorem bounds (h : Tiles position rest ts) :
    ∀ t ∈ ts, position ≤ t.start ∧ t.stop ≤ position + rest.length := by
  induction h with
  | done => exact List.forall_mem_nil _
  | @token position blank rest t ts _ hs _ _ _ ih =>
    have hstop : t.stop = position + blank.length + t.literal.length := by rw [Token.stop, hs]
    simp only [List.length_append]
    refine List.forall_mem_cons.2 ⟨⟨by omega, by omega⟩, ?_⟩
    intro u hu
    have := ih u hu
    omega

theorem pairwise (h : Tiles position rest ts) : ts.Pairwise fun t u => t.stop ≤ u.start := by
  induction h with
  | done => exact .nil
  | token _ _ _ _ h ih => exact .cons (fun u hu => (h.bounds u hu).1) ih

theorem literal_eq (h : Tiles position rest ts) (htext : text.drop position = rest) :
    ∀ t ∈ ts, t.kind ≠ .eof ∧ t.literal ≠ [] ∧ t.literal = text.between t.start t.stop := by
  induction h with
  | done => exact List.forall_mem_nil _
  | @token position blank rest t ts _ hs hk hl _ ih =>
    have hstart : text.drop t.start = t.literal ++ rest := by
      rw [hs, ← List.drop_drop, htext, List.drop_left]
    have hstop : text.drop t.stop = rest := by
      rw [Token.stop, ← List.drop_drop, hstart, List.drop_left]
    exact List.forall_mem_cons.2 ⟨⟨hk, hl, (Text.between_of_drop hstart).symm⟩, ih hstop⟩

/-- Only white space stands in front of a token and behind the last one. -/
theorem isSpace_gaps (h : Tiles position rest ts) (htext : text.drop position = rest)
    (hend : position + rest.length = text.length) :
    ∀ gap ∈ gaps text position (ts ++ [Token.eof text.length]), gap.all Byte.isSpace := by
  induction h with
  | @done position blank hb =>
    refine List.forall_mem_cons.2 ⟨?_, List.forall_mem_nil _⟩
    rw [Token.eof, ← hend, Text.between_of_drop (by rw [htext, List.append_nil])]
    exact hb
  | @token position blank rest t ts hb hs _ _ _ ih =>
    have hstop : text.drop t.stop = rest := by
      rw [Token.stop, hs, Nat.add_assoc, ← List.length_append, ← List.drop_drop, htext,
        ← List.append_assoc, List.drop_left]
    have hend' : t.stop + rest.length = text.length := by
      rw [Token.stop, hs, ← hend, List.length_append, List.length_append]
      omega
    refine List.forall_mem_cons.2 ⟨?_, ih hstop hend'⟩
    rw [hs, Text.between_of_drop htext]
    exact hb

theorem flatMap_literal (h : Tiles position rest ts) (hsolid : ∀ c ∈ rest, Byte.isSpace c = false) :
    ts.flatMap (·.literal) = rest := by
  have hblank {blank : Text} (hb : blank.all Byte.isSpace)
      (hsolid : ∀ c ∈ blank, Byte.isSpace c = false) : blank = [] := by
    apply List.eq_nil_iff_forall_not_mem.2
    intro c hc
    have := List.all_eq_true.1 hb c hc
    rw [hsolid c hc] at this
    cases this
  induction h with
  | done hb => exact (hblank hb hsolid).symm
  | @token position blank rest t ts hb _ _ _ _ ih =>
    obtain rfl := hblank hb fun c hc => hsolid c (List.mem_append_left _ hc)
    rw [List.flatMap_cons, ih, List.nil_append]
    intro c hc
    exact hsolid c (List.mem_append_right _ (List.mem_append_right _ hc))

end Tiles

/-- The tokens of a text end in the one end mark, which stands at its end. All others are stretches
of the text in order, without overlap, and between them there is only white space; a text without
white space is its literals one after the other. -/
theorem tokenize_tiles (text : Text) :
    ((tokenize text).getLast? = some (Token.eof text.length) ∧
      ∀ t ∈ (tokenize text).dropLast,
        t.kind ≠ .eof ∧ t.literal ≠ [] ∧ t.literal = text.between t.start t.stop) ∧
    ((tokenize text).Pairwise fun t u =>
      t.start ≤ u.start ∧ t.stop ≤ u.start ∧ t.stop ≤ u.stop) ∧
    (∀ t ∈ tokenize text, t.stop ≤ text.length) ∧
    (∀ gap ∈ gaps text 0 (tokenize text), gap.all Byte.isSpace) ∧
    ((∀ c ∈ text, Byte.isSpace c = false) →
      (tokenize text).flatMap (·.literal) = text) := by
  have h : Tiles 0 text (scan text) := tiles_scanFrom 0 text
  have hbounds : ∀ t ∈ scan text, t.stop ≤ text.length := by
    intro t ht
    simpa using (h.bounds t ht).2
  have hweaken {t u : Token} (h : t.stop ≤ u.start) :
      t.start ≤ u.start ∧ t.stop ≤ u.start ∧ t.stop ≤ u.stop := by
    simp only [Token.stop] at h ⊢
    omega
  refine ⟨⟨?_, ?_⟩, ?_, ?_, h.isSpace_gaps rfl (Nat.zero_add _), ?_⟩
  · exact List.getLast?_concat
  · rw [tokenize, List.dropLast_concat]
    exact h.literal_eq rfl
  · rw [tokenize, List.pairwise_append]
    refine ⟨h.pairwise.imp hweaken, List.pairwise_singleton _ _, ?_⟩
    intro t ht u hu
    obtain rfl := List.mem_singleton.1 hu
    exact hweaken (hbounds t ht)
  · rw [tokenize, List.forall_mem_append]
    exact ⟨hbounds, List.forall_mem_singleton.2 (Nat.le_refl _)⟩
  · intro hsolid
    rw [tokenize, List.flatMap_append, h.flatMap_literal hsolid]
    exact List.append_nil _

end Lexer

end WatchExpr
