import WatchExpr.Proofs.Lexical.Serialization

namespace WatchExpr

namespace Lexer

/-- A text that is one token when a blank follows. -/
def Stands (kind : TokenKind) : Text → Prop
  | [] => False
  | c :: rest => Byte.isSpace c = false ∧ lexeme c (rest ++ [0x20]) = (kind, rest.length)

instance (kind : TokenKind) (t : Text) : Decidable (Stands kind t) :=
  match t with
  | [] => inferInstanceAs (Decidable False)
  | _ :: _ => inferInstanceAs (Decidable (_ ∧ _))

/-- A blank or the end of a text. -/
def Gap (t : Text) : Prop := ∀ c, t.head? = some c → c = 0x20

theorem isHexLiteral_cons (c : UInt8) (t : Text) :
    isHexLiteral (c :: t) = (c == 0x30 && t.head?.any fun d => d == 0x78 || d == 0x58) := by
  rw [isHexLiteral.eq_def]
  split
  · rename_i h
    cases h
    rfl
  · rename_i h
    by_cases hc : c = 0x30
    · cases t with
      | nil => simp
      | cons d t => exact absurd (by rw [hc]) (h d t)
    · simp [hc]

theorem longSymbols_eq : longSymbols = [[0x3c, 0x3c], [0x3e, 0x3e], [0x2d, 0x3e], [0x3c, 0x3d],
    [0x3e, 0x3d], [0x3d, 0x3d], [0x21, 0x3d], [0x26, 0x26], [0x7c, 0x7c]] := by decide

theorem any_longSymbols (c : UInt8) (t : Text) :
    longSymbols.any (·.isPrefixOf (c :: t)) = t.head?.any fun d => [c, d] ∈ longSymbols := by
  rw [longSymbols_eq]
  cases t with
  | nil => simp [List.isPrefixOf]
  | cons d t =>
    simp only [List.isPrefixOf, List.any_cons, List.any_nil, Bool.and_true, Bool.or_false,
      List.head?_cons, Option.any_some, List.mem_cons, List.cons.injEq, and_true, List.not_mem_nil,
      or_false, Bool.decide_or, Bool.decide_and, BEq.comm]
    rfl

theorem lexeme_eq_identifier {c : UInt8} {t : Text} :
    (lexeme c t).1 = .identifier ↔ isIdentifierStart c = true := by
  rw [lexeme]
  split
  · rename_i h
    simp [h]
  · rename_i h
    simp only [h]
    split
    · simp
    · split
      · simp
      · split
        · simp
        · split <;> simp

theorem lexeme_of_isDigit {c : UInt8} (hc : Byte.isDigit c) (t : Text) :
    Byte.isSpace c = false ∧
      lexeme c t = (.numeric, numericLength (isHexLiteral (c :: t)) c t) := by
  have hall : ∀ n < 256, Byte.isDigit n.toUInt8 →
      Byte.isSpace n.toUInt8 = false ∧ isIdentifierStart n.toUInt8 = false := by
    decide +kernel
  have hbyte : c.toNat.toUInt8 = c := UInt8.ofNat_toNat
  obtain ⟨hspace, hstart⟩ := hall c.toNat c.toNat_lt (hbyte.symm ▸ hc)
  rw [hbyte] at hspace hstart
  refine ⟨hspace, ?_⟩
  simp only [lexeme, hstart, hc, Bool.true_or, Bool.false_eq_true, if_false, if_true]

theorem numericLength_append {t after : Text} (ht : ∀ c ∈ t, Byte.isAlnum c) {hex : Bool}
    (hafter : ∀ previous, numericLength hex previous after = 0) (previous : UInt8) :
    numericLength hex previous (t ++ after) = t.length := by
  induction t generalizing previous with
  | nil => exact hafter previous
  | cons c t ih =>
    obtain ⟨hc, ht⟩ := List.forall_mem_cons.1 ht
    rw [List.cons_append, numericLength, hc, Bool.true_or, if_pos rfl, ih ht, List.length_cons,
      Nat.add_comm]

theorem scanFrom_number {c : UInt8} {t after : Text} (hc : Byte.isDigit c)
    (ht : ∀ d ∈ t, Byte.isAlnum d)
    (hafter : ∀ hex previous, numericLength hex previous after = 0) (position : Nat) :
    scanFrom position (c :: t ++ after) =
      ⟨.numeric, c :: t, position⟩ :: scanFrom (position + (c :: t).length) after := by
  obtain ⟨hspace, hlexeme⟩ := lexeme_of_isDigit hc (t ++ after)
  rw [numericLength_append ht (hafter _)] at hlexeme
  rw [List.cons_append, scanFrom, hspace, hlexeme]
  simp [Token.stop]

section
variable {gap : Text} (hg : Gap gap)
include hg

theorem head?_append_gap {p : UInt8 → Bool} (hp : p 0x20 = false) (t : Text) :
    (t ++ gap).head?.any p = (t ++ [0x20]).head?.any p := by
  cases t with
  | cons c t => rfl
  | nil =>
    cases gap with
    | nil => exact hp.symm
    | cons c gap =>
      rw [hg c rfl]
      rfl

theorem numericLength_append_gap {hex : Bool} {previous : UInt8} {t : Text}
    (h : numericLength hex previous (t ++ [0x20]) = t.length) :
    numericLength hex previous (t ++ gap) = t.length := by
  induction t generalizing previous with
  | nil =>
    cases gap with
    | nil => rfl
    | cons c gap =>
      rw [hg c rfl, List.nil_append, numericLength]
      simp [Byte.isAlnum, Byte.isAlpha, Byte.isDigit, Byte.isLower, Byte.isUpper]
  | cons c t ih =>
    rw [List.cons_append, numericLength] at h ⊢
    split at h
    · rename_i hc
      rw [if_pos hc, ih (by simp only [List.length_cons] at h; omega), List.length_cons,
        Nat.add_comm]
    · rename_i hc
      split at h
      · rename_i hc'
        rw [if_neg hc, if_pos hc', ih (by simp only [List.length_cons] at h; omega),
          List.length_cons, Nat.add_comm]
      · cases h

theorem identifierLength_gap : identifierLength gap = 0 := by
  cases gap with
  | nil => rw [identifierLength]
  | cons c gap =>
    rw [hg c rfl, identifierLength_cons]
    rfl

theorem identifierLength_append_gap {t : Text} (h : identifierLength (t ++ [0x20]) = t.length) :
    identifierLength (t ++ gap) = t.length := by
  have hrun := identifierRun_of_length h
  have hlast : t.getLast? ≠ some 0x3a := by
    intro hl
    obtain ⟨-, hd⟩ := hrun.of_getLast? hl
    cases hd
  exact (hrun.before hlast (identifierLength_gap hg)).eq

theorem lexeme_append_gap {c : UInt8} {t : Text} {kind : TokenKind}
    (h : lexeme c (t ++ [0x20]) = (kind, t.length)) :
    lexeme c (t ++ gap) = (kind, t.length) := by
  have hpoint := head?_append_gap hg (p := Byte.isDigit) (by decide) t
  have hhex : isHexLiteral (c :: (t ++ gap)) = isHexLiteral (c :: (t ++ [0x20])) := by
    rw [isHexLiteral_cons, isHexLiteral_cons, head?_append_gap hg (by decide)]
  have hlong : longSymbols.any (·.isPrefixOf (c :: (t ++ gap))) =
      longSymbols.any (·.isPrefixOf (c :: (t ++ [0x20]))) := by
    rw [any_longSymbols, any_longSymbols, head?_append_gap hg]
    simp [longSymbols_eq]
  have hquoted {quote : UInt8} (h : quotedLength quote (t ++ [0x20]) = t.length) :
      quotedLength quote (t ++ gap) = t.length := by
    have hp : (t ++ [0x20]).take (quotedLength quote (t ++ [0x20])) <+: t ++ gap := by
      rw [h, List.take_left]
      exact List.prefix_append _ _
    exact (quotedLength_of_isPrefix (by simp [h]) hp).trans h
  have hticked (h : tickedLength (t ++ [0x20]) = t.length) :
      tickedLength (t ++ gap) = t.length := by
    have hp : (t ++ [0x20]).take (tickedLength (t ++ [0x20])) <+: t ++ gap := by
      rw [h, List.take_left]
      exact List.prefix_append _ _
    exact (tickedLength_of_isPrefix (by simp [h]) hp).trans h
  simp only [lexeme, hpoint, hhex, hlong] at h ⊢
  split at h
  · rename_i hc
    rw [if_pos hc]
    split at h
    · rename_i hc
      rw [if_pos hc, hticked (Prod.mk.inj h).2, (Prod.mk.inj h).1]
    · rename_i hc
      rw [if_neg hc, identifierLength_append_gap hg (Prod.mk.inj h).2, (Prod.mk.inj h).1]
  · rename_i hc
    rw [if_neg hc]
    split at h
    · rename_i hc
      rw [if_pos hc, numericLength_append_gap hg (Prod.mk.inj h).2, (Prod.mk.inj h).1]
    · rename_i hc
      rw [if_neg hc]
      split at h
      · rename_i hc
        rw [if_pos hc, hquoted (Prod.mk.inj h).2, (Prod.mk.inj h).1]
      · rename_i hc
        rw [if_neg hc]
        split at h
        · rename_i hc
          rw [if_pos hc, hquoted (Prod.mk.inj h).2, (Prod.mk.inj h).1]
        · rename_i hc
          rw [if_neg hc]
          exact h

theorem scanFrom_stands {kind : TokenKind} {t : Text} (h : Stands kind t) (position : Nat) :
    scanFrom position (t ++ gap) = ⟨kind, t, position⟩ :: scanFrom (position + t.length) gap := by
  cases t with
  | nil => exact h.elim
  | cons c t =>
    rw [List.cons_append, scanFrom, if_neg (by simp [h.1]), lexeme_append_gap hg h.2]
    simp only [List.take_left, List.drop_left, Token.stop, List.length_cons]

end

theorem gap_nil : Gap [] := nofun

theorem gap_cons (t : Text) : Gap (0x20 :: t) := by
  rintro c ⟨⟩
  rfl

end Lexer

/-- Tokens in their places when they are written with blanks between them from a position on. -/
def place : Nat → List Token → List Token
  | _, [] => []
  | position, t :: ts => { t with start := position } :: place (position + t.literal.length + 1) ts

/-- Tokens written with blanks between them. -/
def spaced (ts : List Token) : Text := Text.join " " (ts.map (·.literal))

theorem spaced_cons (t : Token) {ts : List Token} (h : ts ≠ []) :
    spaced (t :: ts) = t.literal ++ 0x20 :: spaced ts := by
  obtain ⟨u, ts, rfl⟩ := List.exists_cons_of_ne_nil h
  rw [spaced, List.map_cons, List.map_cons, Text.join, List.append_assoc]
  · rfl
  · nofun

/-- Tokens written with blanks between them are scanned back. -/
theorem Lexer.scanFrom_spaced {ts : List Token} (h : ∀ t ∈ ts, Stands t.kind t.literal)
    (position : Nat) : scanFrom position (spaced ts) = place position ts := by
  induction ts generalizing position with
  | nil => rw [spaced, List.map_nil, Text.join, scanFrom, place]
  | cons t ts ih =>
    obtain ⟨ht, hts⟩ := List.forall_mem_cons.1 h
    by_cases hne : ts = []
    · subst hne
      have hscan := scanFrom_stands gap_nil ht position
      rw [List.append_nil, scanFrom] at hscan
      exact hscan
    · rw [spaced_cons t hne, scanFrom_stands (gap_cons _) ht, scanFrom, if_pos (by decide), ih hts]
      rfl

end WatchExpr
