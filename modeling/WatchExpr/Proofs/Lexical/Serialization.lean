import Mathlib.Algebra.Ring.Nat
import WatchExpr.Lexical.Fingerprint
import WatchExpr.Proofs.Expression.Erasure
import WatchExpr.Proofs.Lexical.Identifiers

namespace WatchExpr

namespace Lexer

def Plain (t : Text) : Prop := ∀ b ∈ t, 32 ≤ b.toNat

theorem Plain.append {t t' : Text} (h : Plain t) (h' : Plain t') : Plain (t ++ t') := by
  intro b hb
  obtain hb | hb := List.mem_append.1 hb
  · exact h b hb
  · exact h' b hb

theorem Plain.cons {b : UInt8} {t : Text} (hb : 32 ≤ b.toNat) (h : Plain t) : Plain (b :: t) :=
  List.forall_mem_cons.2 ⟨hb, h⟩

theorem plain_nil : Plain [] := by
  intro b hb
  cases hb

theorem le_of_test {p : UInt8 → Bool} (h : ∀ n < 32, p (UInt8.ofNat n) = false) {b : UInt8}
    (hb : p b = true) : 32 ≤ b.toNat := by
  apply Nat.le_of_not_lt
  intro hlt
  have := h b.toNat hlt
  rw [UInt8.ofNat_toNat, hb] at this
  cases this

theorem le_of_isIdentifierPart {b : UInt8} (h : isIdentifierPart b) : 32 ≤ b.toNat :=
  le_of_test (by decide) h

theorem le_of_isTemplatePart {b : UInt8} (h : isTemplatePart b) : 32 ≤ b.toNat :=
  le_of_test (by decide) h

theorem le_of_isAlnum {b : UInt8} (h : Byte.isAlnum b) : 32 ≤ b.toNat := le_of_test (by decide) h

theorem TemplateRun.plain {depth : Nat} {u : Text} (h : TemplateRun depth u) : Plain u := by
  induction h with
  | opened _ ih => exact ih.cons (by decide)
  | last => exact plain_nil.cons (by decide)
  | closed _ _ ih => exact ih.cons (by decide)
  | part hc _ ih => exact ih.cons (le_of_isTemplatePart hc)

theorem IdentifierRun.plain {u rest : Text} (h : IdentifierRun u rest) : Plain u := by
  induction h with
  | stop => exact plain_nil
  | part hc _ ih => exact ih.cons (le_of_isIdentifierPart hc)
  | separator _ _ ih => exact (ih.cons (by decide)).cons (by decide)
  | arguments hl _ ih => exact hl.plain.append ih

theorem plain_numericLength (hex : Bool) (previous : UInt8) (t : Text) :
    Plain (t.take (numericLength hex previous t)) := by
  induction t generalizing previous with
  | nil => exact plain_nil
  | cons c rest ih =>
    rw [numericLength]
    split
    · rename_i hc
      rw [Nat.add_comm, List.take_succ_cons]
      refine (ih c).cons ?_
      rw [Bool.or_eq_true] at hc
      obtain hc | hc := hc
      · exact le_of_isAlnum hc
      · rw [eq_of_beq hc]
        decide
    · split
      · rename_i hc
        rw [Nat.add_comm, List.take_succ_cons]
        refine (ih c).cons ?_
        simp only [Bool.and_eq_true, Bool.or_eq_true] at hc
        obtain hc | hc := hc.1.1
        · rw [eq_of_beq hc]
          decide
        · rw [eq_of_beq hc]
          decide
      · exact plain_nil

theorem quotedLength_replicate {b quote : UInt8} (hb : b ≠ 0x5c) (hq : b ≠ quote)
    (hs : quote ≠ 0x5c) (n : Nat) (rest : Text) :
    quotedLength quote (List.replicate n b ++ quote :: rest) = n + 1 := by
  induction n with
  | zero =>
    rw [List.replicate_zero, List.nil_append, quotedLength.eq_def]
    simp [hs]
  | succ n ih =>
    rw [List.replicate_succ, List.cons_append, quotedLength.eq_def]
    simp only [beq_iff_eq, hb, hq, if_false, ih]
    omega

/-- A quoted literal that ends before the text does ends at its quote, whatever follows. -/
theorem quotedLength_of_isPrefix {quote : UInt8} {t t' : Text}
    (h : quotedLength quote t < t.length) (hp : t.take (quotedLength quote t) <+: t') :
    quotedLength quote t' = quotedLength quote t := by
  fun_induction quotedLength quote t generalizing t' with
  | case1 => simp at h
  | case2 => simp at h
  | case3 c hc d rest ih =>
    rw [show 2 + quotedLength quote rest = quotedLength quote rest + 1 + 1 by omega,
      List.take_succ_cons, List.take_succ_cons] at hp
    obtain ⟨tail, rfl⟩ := hp
    rw [List.cons_append, List.cons_append, quotedLength]
    simp only [hc, if_true]
    rw [ih (by simp only [List.length_cons] at h; omega) ⟨tail, rfl⟩]
  | case4 c rest hc hq =>
    obtain ⟨tail, rfl⟩ := hp
    rw [List.take_succ_cons, List.cons_append, quotedLength.eq_def]
    simp only [hc, hq, if_true]
    rfl
  | case5 c rest hc hq ih =>
    rw [Nat.add_comm, List.take_succ_cons] at hp
    obtain ⟨tail, rfl⟩ := hp
    rw [List.cons_append, quotedLength.eq_def]
    simp only [hc, hq]
    rw [ih (by simp only [List.length_cons] at h; omega) ⟨tail, rfl⟩]
    rfl

theorem tickedLength_of_isPrefix {t t' : Text} (h : tickedLength t < t.length)
    (hp : t.take (tickedLength t) <+: t') : tickedLength t' = tickedLength t := by
  fun_induction tickedLength t generalizing t' with
  | case1 => simp at h
  | case2 c rest hc =>
    obtain ⟨tail, rfl⟩ := hp
    rw [List.take_succ_cons, List.cons_append, tickedLength]
    simp only [hc, if_true]
  | case3 c rest hc ih =>
    rw [Nat.add_comm, List.take_succ_cons] at hp
    obtain ⟨tail, rfl⟩ := hp
    rw [List.cons_append, tickedLength]
    simp only [hc]
    rw [ih (by simp only [List.length_cons] at h; omega) ⟨tail, rfl⟩]
    rfl

/-- A lexeme starting like a shorter one of its kind: the shorter one ends with its text, or both
are equally long, or the longer one is short or has no control bytes. -/
theorem lexeme_of_isPrefix {c : UInt8} {t t' : Text} (hk : (lexeme c t).1 = (lexeme c t').1)
    (hp : t.take (lexeme c t).2 <+: t') :
    t.length ≤ (lexeme c t).2 ∨ (lexeme c t').2 = (lexeme c t).2 ∨ (lexeme c t').2 ≤ 1 ∨
      Plain (t'.take (lexeme c t').2) := by
  have hquoted (quote : UInt8) (hp : t.take (quotedLength quote t) <+: t') :
      t.length ≤ quotedLength quote t ∨ quotedLength quote t' = quotedLength quote t := by
    obtain hlt | hle := Nat.lt_or_ge (quotedLength quote t) t.length
    · exact .inr (quotedLength_of_isPrefix hlt hp)
    · exact .inl hle
  simp only [lexeme] at hk hp ⊢
  by_cases hs : isIdentifierStart c
  · simp only [hs, if_true] at hp ⊢
    by_cases ht : c == 0x60
    · simp only [ht, if_true] at hp ⊢
      obtain hlt | hle := Nat.lt_or_ge (tickedLength t) t.length
      · exact .inr (.inl (tickedLength_of_isPrefix hlt hp))
      · exact .inl hle
    · simp only [ht]
      exact .inr (.inr (.inr (identifierRun t').plain))
  simp only [hs, Bool.false_eq_true, if_false] at hk hp ⊢
  by_cases hn' : Byte.isDigit c || (c == 0x2e && t'.head?.any Byte.isDigit)
  · simp only [hn', if_true]
    exact .inr (.inr (.inr (plain_numericLength _ _ t')))
  simp only [hn', Bool.false_eq_true, if_false] at hk ⊢
  by_cases hn : Byte.isDigit c || (c == 0x2e && t.head?.any Byte.isDigit)
  · simp only [hn, if_true] at hk
    split at hk
    · cases hk
    · split at hk
      · cases hk
      · split at hk <;> cases hk
  simp only [hn, Bool.false_eq_true, if_false] at hp ⊢
  by_cases h₁ : c == 0x22
  · simp only [h₁, if_true] at hp ⊢
    obtain h | h := hquoted c hp
    · exact .inl h
    · exact .inr (.inl h)
  simp only [h₁, Bool.false_eq_true, if_false] at hp ⊢
  by_cases h₂ : c == 0x27
  · simp only [h₂, if_true] at hp ⊢
    obtain h | h := hquoted c hp
    · exact .inl h
    · exact .inr (.inl h)
  simp only [h₂, Bool.false_eq_true, if_false]
  refine .inr (.inr (.inl ?_))
  by_cases hb : isSymbolByte c
  · simp only [hb, if_true]
    split <;> simp
  · simp [hb]

theorem scanFrom_cases (position : Nat) (t : Text) :
    scanFrom position t = [] ∨ ∃ start c rest, rest.length < t.length ∧
      scanFrom position t = ⟨(lexeme c rest).1, c :: rest.take (lexeme c rest).2, start⟩ ::
        scanFrom (start + (rest.take (lexeme c rest).2).length + 1)
          (rest.drop (lexeme c rest).2) := by
  fun_induction scanFrom position t with
  | case1 => exact .inl rfl
  | case2 position c rest _ ih =>
    obtain ih | ⟨start, c', rest', hl, ih⟩ := ih
    · exact .inl ih
    · exact .inr ⟨start, c', rest', Nat.lt_succ_of_lt hl, ih⟩
  | case3 position c rest _ kind length hk token ih =>
    refine .inr ⟨position, c, rest, Nat.lt_succ_self _, ?_⟩
    simp only [hk, token, Token.stop, List.length_cons, Nat.add_assoc]

theorem erase_tokenize_iff (text text' : Text) :
    (tokenize text).map Token.erase = (tokenize text').map Token.erase ↔
      (scan text).map Token.erase = (scan text').map Token.erase := by
  rw [tokenize, tokenize, List.map_append, List.map_append]
  exact ⟨List.append_cancel_right, fun h => by rw [h]; rfl⟩

end Lexer

theorem Token.map_erase_iff {ts us : List Token} :
    ts.map erase = us.map erase ↔
      ts.map (fun t => (t.kind, t.literal)) = us.map (fun t => (t.kind, t.literal)) := by
  constructor
  · intro h
    have := congrArg (List.map fun t : Token => (t.kind, t.literal)) h
    rwa [List.map_map, List.map_map] at this
  · intro h
    have := congrArg (List.map fun t : TokenKind × Text => (⟨t.1, t.2, 0⟩ : Token)) h
    rwa [List.map_map, List.map_map] at this

theorem Sha256.mod_of_bigEndian {count a b : Nat} (h : bigEndian count a = bigEndian count b) :
    a % 256 ^ count = b % 256 ^ count := by
  induction count generalizing a b with
  | zero => rw [Nat.pow_zero, Nat.mod_one, Nat.mod_one]
  | succ count ih =>
    obtain ⟨hi, hlo⟩ := List.append_inj' h rfl
    have hlo : a % 256 = b % 256 := by
      have := congrArg UInt8.toNat (List.cons.inj hlo).1
      simpa using this
    have hi := ih hi
    rw [Nat.pow_succ, Nat.mul_comm, Nat.mod_mul, Nat.mod_mul, hi, hlo]

@[simp] theorem Sha256.length_bigEndian (count n : Nat) : (bigEndian count n).length = count := by
  induction count generalizing n with
  | zero => rfl
  | succ count ih => rw [bigEndian, List.length_append, ih, List.length_singleton]

namespace Fingerprint

theorem lengthPrefixed_append_inj {t t' s s' : Text}
    (h : lengthPrefixed t ++ s = lengthPrefixed t' ++ s') :
    t.length % 2 ^ 32 = t'.length % 2 ^ 32 ∧ t ++ s = t' ++ s' := by
  simp only [lengthPrefixed, List.append_assoc] at h
  obtain ⟨hl, ht⟩ := List.append_inj h (by simp)
  exact ⟨Sha256.mod_of_bigEndian hl, ht⟩

def serialized (tokens : List Token) : List UInt8 := tokens.flatMap serializeToken ++ [0]

theorem serialized_cons {k : TokenKind} (hk : k ≠ .eof) (literal : Text) (start : Nat)
    (ts : List Token) :
    serialized (⟨k, literal, start⟩ :: ts) = tag k :: (lengthPrefixed literal ++ serialized ts) := by
  simp only [serialized, List.flatMap_cons, serializeToken, if_neg hk, List.cons_append,
    List.append_assoc]

theorem tag_inj {k k' : TokenKind} (h : tag k = tag k') : k = k' := by
  cases k <;> cases k' <;> first | rfl | cases h

theorem head_serialized (ts : List Token) : ∃ b rest, serialized ts = b :: rest ∧ b.toNat < 32 := by
  cases ts with
  | nil => exact ⟨0, [], rfl, by decide⟩
  | cons tok ts =>
    refine ⟨tag tok.kind, _, rfl, ?_⟩
    cases tok.kind <;> decide

theorem lexeme_ne_eof (c : UInt8) (t : Text) : (Lexer.lexeme c t).1 ≠ .eof := by
  simp only [Lexer.lexeme]
  split
  · nofun
  · split
    · nofun
    · split
      · nofun
      · split
        · nofun
        · split <;> nofun

/-- A literal does not go on where another one of its kind ends and the next token is written. -/
theorem length_le_of_serialized {c c' : UInt8} {t t' : Text} {position : Nat} {after : List UInt8}
    (hk : (Lexer.lexeme c t).1 = (Lexer.lexeme c' t').1)
    (hm : (c :: t.take (Lexer.lexeme c t).2).length % 2 ^ 32 =
      (c' :: t'.take (Lexer.lexeme c' t').2).length % 2 ^ 32)
    (h : c :: t.take (Lexer.lexeme c t).2 ++
        serialized (Lexer.scanFrom position (t.drop (Lexer.lexeme c t).2)) =
      c' :: t'.take (Lexer.lexeme c' t').2 ++ after) :
    (c' :: t'.take (Lexer.lexeme c' t').2).length ≤ (c :: t.take (Lexer.lexeme c t).2).length := by
  apply Nat.le_of_not_lt
  intro hlt
  obtain ⟨rfl, h⟩ := List.cons.inj h
  simp only [List.length_cons] at hm hlt
  obtain ⟨more, hl, hs⟩ | ⟨more, hl, -⟩ := List.append_eq_append_iff.1 h
  case inr =>
    rw [hl, List.length_append] at hlt
    omega
  have hmore : 2 ^ 32 ≤ more.length := by
    rw [hl, List.length_append] at hm hlt
    omega
  obtain hshort | hle := Nat.lt_or_ge (Lexer.lexeme c t).2 t.length
  case inr =>
    rw [List.drop_eq_nil_of_le hle, Lexer.scanFrom] at hs
    have := congrArg List.length hs
    simp only [serialized, List.flatMap_nil, List.nil_append, List.length_singleton,
      List.length_append] at this
    omega
  have hp : t.take (Lexer.lexeme c t).2 <+: t' := by
    refine List.IsPrefix.trans ⟨more, hl.symm⟩ (List.take_prefix _ _)
  have hlen := congrArg List.length hl
  rw [List.length_append, List.length_take, List.length_take] at hlen
  obtain hle | heq | hone | hplain := Lexer.lexeme_of_isPrefix hk hp
  · omega
  · omega
  · omega
  · obtain ⟨b, rest, hb, hlow⟩ := head_serialized
      (Lexer.scanFrom position (t.drop (Lexer.lexeme c t).2))
    obtain ⟨d, more, rfl⟩ := List.exists_cons_of_length_pos (l := more) (by omega)
    rw [hb, List.cons_append] at hs
    have := hplain d (by rw [hl]; simp)
    rw [← (List.cons.inj hs).1] at this
    omega

theorem erase_scanFrom_of_serialized {position position' : Nat} {t t' : Text}
    (h : serialized (Lexer.scanFrom position t) = serialized (Lexer.scanFrom position' t')) :
    (Lexer.scanFrom position t).map Token.erase = (Lexer.scanFrom position' t').map Token.erase := by
  induction hn : t.length using Nat.strongRecOn generalizing position position' t t' with
  | _ n ih =>
    have hend {k : TokenKind} (hk : k ≠ .eof) {rest : List UInt8} : [0] ≠ tag k :: rest := by
      intro h
      have htag : tag k = tag .eof := (List.cons.inj h).1.symm
      exact hk (tag_inj htag)
    obtain hnil | ⟨start, c, rest, hl, hs⟩ := Lexer.scanFrom_cases position t
    · obtain hnil' | ⟨start', c', rest', -, hs'⟩ := Lexer.scanFrom_cases position' t'
      · rw [hnil, hnil']
      · rw [hnil, hs', serialized_cons (lexeme_ne_eof _ _)] at h
        exact absurd h (hend (lexeme_ne_eof _ _))
    · obtain hnil' | ⟨start', c', rest', -, hs'⟩ := Lexer.scanFrom_cases position' t'
      · rw [hnil', hs, serialized_cons (lexeme_ne_eof _ _)] at h
        exact absurd h.symm (hend (lexeme_ne_eof _ _))
      · rw [hs, hs', serialized_cons (lexeme_ne_eof _ _), serialized_cons (lexeme_ne_eof _ _)] at h
        obtain ⟨hk, h⟩ := List.cons.inj h
        have hk := tag_inj hk
        obtain ⟨hm, h⟩ := lengthPrefixed_append_inj h
        have hle := length_le_of_serialized hk hm h
        have hge := length_le_of_serialized hk.symm hm.symm h.symm
        obtain ⟨hlit, hrest⟩ := List.append_inj h (Nat.le_antisymm hge hle)
        have := ih _ (by rw [List.length_drop]; omega) hrest rfl
        rw [hs, hs', List.map_cons, List.map_cons, this]
        simp only [Token.erase, hk, hlit]

theorem serialize_eq (text scope : Text) :
    serialize (Lexer.tokenize text) scope =
      version :: ((if scope.isEmpty then [] else scopeTag :: lengthPrefixed scope) ++
        serialized (Lexer.scan text)) := by
  simp only [serialize, Lexer.tokenize, List.flatMap_append, serialized, List.cons_append]
  rfl

/-- Serialized expressions tell their tokens and their procedures apart. -/
theorem serialize_inj {text text' scope scope' : Text} (hs : scope.length < 2 ^ 32)
    (hs' : scope'.length < 2 ^ 32)
    (h : serialize (Lexer.tokenize text) scope = serialize (Lexer.tokenize text') scope') :
    scope = scope' ∧ (Lexer.scan text).map Token.erase = (Lexer.scan text').map Token.erase := by
  have htag (ts : List Token) (rest : List UInt8) : serialized ts ≠ scopeTag :: rest := by
    intro h
    cases ts with
    | nil => cases h
    | cons tok ts =>
      have := (List.cons.inj h).1
      cases hk : tok.kind <;> simp [hk] at this <;> cases this
  rw [serialize_eq, serialize_eq] at h
  have h := (List.cons.inj h).2
  cases scope with
  | nil =>
    cases scope' with
    | nil => exact ⟨rfl, erase_scanFrom_of_serialized h⟩
    | cons b scope' => exact absurd h (htag _ _)
  | cons b scope =>
    cases scope' with
    | nil => exact absurd h.symm (htag _ _)
    | cons b' scope' =>
      obtain ⟨hm, h⟩ := lengthPrefixed_append_inj (List.cons.inj h).2
      rw [Nat.mod_eq_of_lt hs, Nat.mod_eq_of_lt hs'] at hm
      obtain ⟨hscope, h⟩ := List.append_inj h hm
      exact ⟨hscope, erase_scanFrom_of_serialized h⟩

theorem serialize_erase {ts us : List Token}
    (h : ts.map Token.erase = us.map Token.erase) (scope : Text) :
    serialize ts scope = serialize us scope := by
  have herase (ts : List Token) :
      ts.flatMap serializeToken = (ts.map Token.erase).flatMap serializeToken := by
    rw [List.flatMap_map]
    rfl
  rw [serialize, serialize, herase ts, herase us, h]

/-- Serialized expressions are equal if and only if their scopes and their tokens are, wherever the
tokens stand. -/
theorem serialize_eq_iff {text text' scope scope' : Text} (hs : scope.length < 2 ^ 32)
    (hs' : scope'.length < 2 ^ 32) :
    serialize (Lexer.tokenize text) scope = serialize (Lexer.tokenize text') scope' ↔
      scope = scope' ∧
        (Lexer.tokenize text).map (fun t => (t.kind, t.literal)) =
          (Lexer.tokenize text').map (fun t => (t.kind, t.literal)) := by
  rw [← Token.map_erase_iff, Lexer.erase_tokenize_iff]
  constructor
  · exact serialize_inj hs hs'
  · rintro ⟨rfl, h⟩
    exact serialize_erase ((Lexer.erase_tokenize_iff _ _).2 h) scope

/-- A blank between tokens does not show in the serialization, but quotes around one of them do, and
so does the scope. -/
theorem serialize_sum :
    (Text.ofString "main").length < 2 ^ 32 ∧ (Text.ofString "").length < 2 ^ 32 ∧
      serialize (Lexer.tokenize "a+b") "main" = serialize (Lexer.tokenize "a + b ") "main" ∧
      serialize (Lexer.tokenize "a'+'b") "main" ≠ serialize (Lexer.tokenize "a+b") "main" ∧
      serialize (Lexer.tokenize "a+b") "main" ≠ serialize (Lexer.tokenize "a+b") "" := by
  have hmain : (Text.ofString "main").length < 2 ^ 32 := by decide
  have hnone : (Text.ofString "").length < 2 ^ 32 := by decide
  refine ⟨hmain, hnone, (serialize_eq_iff hmain hmain).2 ⟨rfl, by decide +kernel⟩, ?_, ?_⟩
  · rw [ne_eq, serialize_eq_iff hmain hmain]
    decide +kernel
  · rw [ne_eq, serialize_eq_iff hmain hnone]
    decide +kernel

end Fingerprint

end WatchExpr
