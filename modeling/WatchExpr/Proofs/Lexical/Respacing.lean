import WatchExpr.Proofs.Lexical.Spacing

namespace WatchExpr

/-- A plain identifier that ends in a scope separator. -/
def Token.OpenEnded (t : Token) : Prop :=
  t.kind = .identifier ∧ t.literal.head? ≠ some 0x60 ∧ [0x3a, 0x3a] <:+ t.literal

instance (t : Token) : Decidable t.OpenEnded := inferInstanceAs (Decidable (_ ∧ _ ∧ _))

namespace Lexer

theorem numericLength_take (hex : Bool) (previous : UInt8) (t : Text) :
    numericLength hex previous (t.take (numericLength hex previous t) ++ [0x20]) =
      numericLength hex previous t := by
  induction t generalizing previous with
  | nil => rfl
  | cons c rest ih =>
    rw [numericLength]
    split
    · rename_i hc
      rw [Nat.add_comm, List.take_succ_cons, List.cons_append, numericLength, if_pos hc, ih,
        Nat.add_comm]
    · rename_i hc
      split
      · rename_i hs
        rw [Nat.add_comm, List.take_succ_cons, List.cons_append, numericLength, if_neg hc,
          if_pos hs, ih, Nat.add_comm]
      · simp [numericLength, Byte.isAlnum, Byte.isAlpha, Byte.isDigit, Byte.isLower, Byte.isUpper]

theorem head_of_numericLength {hex : Bool} {previous : UInt8} {t : Text}
    (h : numericLength hex previous t = 0) : t.head?.any Byte.isAlnum = false := by
  cases t with
  | nil => rfl
  | cons c rest =>
    rw [numericLength] at h
    split at h
    · omega
    · rename_i hc
      rw [Bool.or_eq_true, not_or] at hc
      exact Bool.eq_false_iff.2 hc.1

theorem identifierLength_take {t : Text}
    (h : ¬ [0x3a, 0x3a] <:+ t.take (identifierLength t)) :
    identifierLength (t.take (identifierLength t) ++ [0x20]) = identifierLength t := by
  have hrun := identifierRun t
  have hlast : (t.take (identifierLength t)).getLast? ≠ some 0x3a :=
    fun hl => h (hrun.of_getLast? hl).1
  rw [(hrun.before hlast (identifierLength_gap (gap_cons []))).eq, List.length_take,
    Nat.min_eq_left (identifierLength_le t)]

/-- A blank in place of what follows a token never makes a test hold that failed. -/
theorem head_take {p : UInt8 → Bool} (hp : p 0x20 = false) {t : Text} (n : Nat)
    (h : t.head?.any p = false) : (t.take n ++ [0x20]).head?.any p = false := by
  cases n with
  | zero => exact hp
  | succ n =>
    cases t with
    | nil => exact hp
    | cons c t => exact h

/-- A blank in place of what follows a number leaves every test for letters and digits as it was. -/
theorem head_take_numericLength {p : UInt8 → Bool} (hp : ∀ c, p c → Byte.isAlnum c) (hex : Bool)
    (previous : UInt8) (t : Text) :
    (t.take (numericLength hex previous t) ++ [0x20]).head?.any p = t.head?.any p := by
  have hblank : p 0x20 = false := Bool.eq_false_iff.2 fun h => absurd (hp _ h) (by decide)
  cases hn : numericLength hex previous t with
  | succ n =>
    cases t with
    | nil => cases hn
    | cons c t => rfl
  | zero =>
    have hhead := head_of_numericLength hn
    cases t with
    | nil => exact hblank
    | cons c t =>
      have hc : p c = false := Bool.eq_false_iff.2 fun h => Bool.eq_false_iff.1 hhead (hp _ h)
      exact hblank.trans hc.symm

theorem lexeme_numeric_take {c : UInt8} {t : Text} (hi : isIdentifierStart c = false)
    (hn : (Byte.isDigit c || (c == 0x2e && t.head?.any Byte.isDigit)) = true) :
    lexeme c (t.take (lexeme c t).2 ++ [0x20]) = lexeme c t := by
  have hdigit : ∀ c, Byte.isDigit c → Byte.isAlnum c := fun c h => by simp [Byte.isAlnum, h]
  have hmark : ∀ c : UInt8, (c == 0x78 || c == 0x58) = true → Byte.isAlnum c := by
    intro c h
    rw [Bool.or_eq_true] at h
    obtain h | h := h
    · rw [eq_of_beq h]
      decide
    · rw [eq_of_beq h]
      decide
  have hl : lexeme c t = (.numeric, numericLength (isHexLiteral (c :: t)) c t) := by
    simp only [lexeme, hi, hn, if_true, Bool.false_eq_true, if_false]
  rw [hl, lexeme]
  simp only [head_take_numericLength hdigit, isHexLiteral_cons, head_take_numericLength hmark, hi,
    hn, numericLength_take, if_true, Bool.false_eq_true, if_false]

theorem lexeme_identifier_take {c : UInt8} {t : Text} (hi : isIdentifierStart c = true)
    (hlt : (lexeme c t).2 < t.length)
    (ho : ¬ Token.OpenEnded ⟨(lexeme c t).1, c :: t.take (lexeme c t).2, 0⟩) :
    lexeme c (t.take (lexeme c t).2 ++ [0x20]) = lexeme c t := by
  cases ht : c == 0x60 with
  | true =>
    have hl : lexeme c t = (.identifier, tickedLength t) := by
      simp only [lexeme, hi, ht, if_true]
    rw [hl] at hlt ⊢
    simp only [lexeme, hi, ht, if_true]
    rw [tickedLength_of_isPrefix hlt (List.prefix_append _ _)]
  | false =>
    have hl : lexeme c t = (.identifier, identifierLength t) := by
      simp only [lexeme, hi, ht, if_true, Bool.false_eq_true, if_false]
    rw [hl] at ho ⊢
    have hs : ¬ [0x3a, 0x3a] <:+ t.take (identifierLength t) := by
      intro hs
      refine ho ⟨rfl, ?_, hs.trans (List.suffix_cons _ _)⟩
      simpa using ht
    simp only [lexeme, hi, ht, if_true, Bool.false_eq_true, if_false, identifierLength_take hs]

theorem any_longSymbols_take (c : UInt8) (t : Text) :
    let length := if longSymbols.any (·.isPrefixOf (c :: t)) then 1 else 0
    longSymbols.any (·.isPrefixOf (c :: (t.take length ++ [0x20]))) =
      longSymbols.any (·.isPrefixOf (c :: t)) := by
  intro length
  rw [any_longSymbols]
  cases h : longSymbols.any (·.isPrefixOf (c :: t)) with
  | true =>
    rw [any_longSymbols] at h
    cases t with
    | nil => cases h
    | cons d t =>
      have hlength : length = 1 := if_pos (by rw [any_longSymbols]; exact h)
      rw [hlength]
      exact h
  | false =>
    rw [any_longSymbols] at h
    exact head_take (by simp [longSymbols_eq]) _ h

/-- Literals in quotes, symbols and bytes that start no token. -/
theorem lexeme_other_take {c : UInt8} {t : Text} (hi : isIdentifierStart c = false)
    (hn : (Byte.isDigit c || (c == 0x2e && t.head?.any Byte.isDigit)) = false)
    (hlt : (lexeme c t).2 < t.length) :
    lexeme c (t.take (lexeme c t).2 ++ [0x20]) = lexeme c t := by
  have hn' : (Byte.isDigit c ||
      (c == 0x2e && (t.take (lexeme c t).2 ++ [0x20]).head?.any Byte.isDigit)) = false := by
    rw [Bool.or_eq_false_iff, Bool.and_eq_false_iff] at hn ⊢
    exact ⟨hn.1, hn.2.imp_right (head_take (by decide) _)⟩
  have hl (t : Text) (hn : (Byte.isDigit c || (c == 0x2e && t.head?.any Byte.isDigit)) = false) :
      lexeme c t = if c == 0x22 then (.string, quotedLength c t)
        else if c == 0x27 then (.char, quotedLength c t)
        else if isSymbolByte c then
          (.symbol, if longSymbols.any (·.isPrefixOf (c :: t)) then 1 else 0)
        else (.invalid, 0) := by
    simp only [lexeme, hi, hn, Bool.false_eq_true, if_false]
  have hquoted (hlt : quotedLength c t < t.length) :
      quotedLength c (t.take (quotedLength c t) ++ [0x20]) = quotedLength c t :=
    quotedLength_of_isPrefix hlt (List.prefix_append _ _)
  rw [hl _ hn']
  rw [hl t hn] at hlt ⊢
  split
  · rename_i h
    rw [if_pos h] at hlt
    rw [hquoted hlt]
  · rename_i h
    rw [if_neg h] at hlt
    split
    · rename_i h
      rw [if_pos h] at hlt
      rw [hquoted hlt]
    · split
      · rw [any_longSymbols_take]
      · rfl

/-- A token that what follows ends is itself again before a blank, unless it is open-ended. -/
theorem stands_lexeme {c : UInt8} {t : Text} (hc : Byte.isSpace c = false)
    (hlt : (lexeme c t).2 < t.length)
    (ho : ¬ Token.OpenEnded ⟨(lexeme c t).1, c :: t.take (lexeme c t).2, 0⟩) :
    Stands (lexeme c t).1 (c :: t.take (lexeme c t).2) := by
  have hlen : (t.take (lexeme c t).2).length = (lexeme c t).2 := by
    rw [List.length_take]
    omega
  refine ⟨hc, ?_⟩
  rw [hlen]
  change _ = lexeme c t
  cases hi : isIdentifierStart c with
  | true => exact lexeme_identifier_take hi hlt ho
  | false =>
    cases hn : Byte.isDigit c || (c == 0x2e && t.head?.any Byte.isDigit) with
    | true => exact lexeme_numeric_take hi hn
    | false => exact lexeme_other_take hi hn hlt

/-- Tokens none of which is open-ended are scanned back. -/
theorem erase_scanFrom_spaced {position : Nat} {text : Text}
    (h : ∀ t ∈ scanFrom position text, ¬ t.OpenEnded) (start : Nat) :
    (scanFrom start (spaced (scanFrom position text))).map Token.erase =
      (scanFrom position text).map Token.erase := by
  fun_induction scanFrom position text generalizing start with
  | case1 => rw [spaced, List.map_nil, Text.join, scanFrom]
  | case2 position c rest _ ih => exact ih h start
  | case3 position c rest hc kind length hk token ih =>
    obtain ⟨ho, hrest⟩ := List.forall_mem_cons.1 h
    have hc : Byte.isSpace c = false := Bool.eq_false_iff.2 hc
    have hstands (hlt : length < rest.length) : Stands kind token.literal := by
      have := stands_lexeme (t := rest) hc (by rw [hk]; exact hlt)
      rw [hk] at this
      exact this ho
    by_cases hne : scanFrom token.stop (rest.drop length) = []
    · -- the last token, which may end only because the text does
      rw [hne, List.map_cons, List.map_nil]
      change (scanFrom start token.literal).map Token.erase = _
      obtain hlt | hle := Nat.lt_or_ge length rest.length
      · have hscan := scanFrom_stands gap_nil (hstands hlt) start
        rw [List.append_nil, scanFrom] at hscan
        rw [hscan]
        rfl
      · have hlit : token.literal = c :: rest := by simp only [token, List.take_of_length_le hle]
        rw [hlit, scanFrom, if_neg (Bool.eq_false_iff.1 hc), hk]
        simp only [List.drop_of_length_le hle, scanFrom, List.map_cons, List.map_nil]
        rfl
    · have hlt : length < rest.length := by
        apply Nat.lt_of_not_le
        intro hle
        rw [List.drop_of_length_le hle, scanFrom] at hne
        exact hne rfl
      rw [spaced_cons token hne, scanFrom_stands (gap_cons _) (hstands hlt), scanFrom,
        if_pos (by decide), List.map_cons, List.map_cons, ih hrest]
      rfl

theorem head_scanFrom (position : Nat) (text : Text) :
    ∀ t ∈ scanFrom position text, ∃ c rest, t.literal = c :: rest ∧ Byte.isSpace c = false := by
  fun_induction scanFrom position text with
  | case1 => exact List.forall_mem_nil _
  | case2 position c rest _ ih => exact ih
  | case3 position c rest hc kind length hk token ih =>
    exact List.forall_mem_cons.2 ⟨⟨c, _, rfl, Bool.eq_false_iff.2 hc⟩, ih⟩

theorem not_separator_of_take {gap : Text} (hg : Gap gap) {t : Text}
    (h : (t ++ gap).take (identifierLength (t ++ gap)) = t) : ¬ [0x3a, 0x3a] <:+ t := by
  rintro ⟨front, ht⟩
  have hrun := identifierRun (t ++ gap)
  have hdrop := List.take_append_drop (identifierLength (t ++ gap)) (t ++ gap)
  rw [h] at hrun hdrop
  rw [List.append_cancel_left hdrop] at hrun
  have hlast : t.getLast? = some 0x3a := by
    rw [← ht, List.getLast?_append_cons]
    rfl
  obtain ⟨-, hd⟩ := hrun.of_getLast? hlast
  cases gap with
  | nil => cases hd
  | cons c gap =>
    rw [hg c rfl] at hd
    cases hd

theorem not_openEnded_of_spaced {ts : List Token} {start : Nat}
    (hts : ∀ t ∈ ts, ∃ c rest, t.literal = c :: rest ∧ Byte.isSpace c = false)
    (h : (scanFrom start (spaced ts)).map Token.erase = ts.map Token.erase) :
    ∀ t ∈ ts, ¬ t.OpenEnded := by
  induction ts generalizing start with
  | nil => exact List.forall_mem_nil _
  | cons t ts ih =>
    obtain ⟨⟨c, lit, hlit, hc⟩, hts⟩ := List.forall_mem_cons.1 hts
    obtain ⟨gap, hg, hspaced, hnext⟩ : ∃ gap, Gap gap ∧ spaced (t :: ts) = c :: (lit ++ gap) ∧
        ∀ position, ∃ position', scanFrom position gap = scanFrom position' (spaced ts) := by
      by_cases hne : ts = []
      · subst hne
        exact ⟨[], gap_nil, by rw [List.append_nil]; exact hlit, fun position => ⟨position, rfl⟩⟩
      · refine ⟨0x20 :: spaced ts, gap_cons _, by rw [spaced_cons t hne, hlit]; rfl, ?_⟩
        intro position
        exact ⟨position + 1, by rw [scanFrom, if_pos (by decide)]⟩
    rw [hspaced, scanFrom, if_neg (Bool.eq_false_iff.1 hc)] at h
    simp only [List.map_cons, List.cons.injEq, Token.erase, Token.mk.injEq, hlit, and_true,
      true_and] at h
    obtain ⟨⟨hk, htake⟩, h⟩ := h
    refine List.forall_mem_cons.2 ⟨?_, ?_⟩
    · rintro ⟨hi, ht, hs⟩
      rw [hi, lexeme_eq_identifier] at hk
      rw [hlit] at ht hs
      have hl : (lexeme c (lit ++ gap)).2 = identifierLength (lit ++ gap) := by
        have : (c == 0x60) = false := by simpa using ht
        simp only [lexeme, hk, this, if_true, Bool.false_eq_true, if_false]
      rw [hl] at htake
      obtain hs | hs := List.suffix_cons_iff.1 hs
      · rw [← (List.cons.inj hs).1] at hk
        cases hk
      · exact not_separator_of_take hg htake hs
    · have hdrop : (lit ++ gap).drop (lexeme c (lit ++ gap)).2 = gap := by
        have := List.take_append_drop (lexeme c (lit ++ gap)).2 (lit ++ gap)
        rw [htake] at this
        exact List.append_cancel_left this
      rw [hdrop] at h
      obtain ⟨position, hnext⟩ := hnext _
      rw [hnext] at h
      exact ih hts h

/-- With single blanks between them the tokens of a text are scanned back, and serialized alike,
exactly when none of them is open-ended; then the fingerprint is the same too. -/
theorem tokenize_spaced_iff (text : Text) :
    ((tokenize (spaced (scan text))).map Token.erase = (tokenize text).map Token.erase ↔
      ∀ t ∈ tokenize text, ¬ t.OpenEnded) ∧
    (Fingerprint.serialize (tokenize (spaced (scan text))) [] =
        Fingerprint.serialize (tokenize text) [] ↔
      ∀ t ∈ tokenize text, ¬ t.OpenEnded) ∧
    ((∀ t ∈ tokenize text, ¬ t.OpenEnded) →
      Fingerprint.ofText (spaced (scan text)) = Fingerprint.ofText text) := by
  have hopen : (∀ t ∈ tokenize text, ¬ t.OpenEnded) ↔ ∀ t ∈ scan text, ¬ t.OpenEnded := by
    rw [tokenize, List.forall_mem_append, and_iff_left]
    exact List.forall_mem_singleton.2 fun h => by cases h.1
  have hscan : (tokenize (spaced (scan text))).map Token.erase = (tokenize text).map Token.erase ↔
      ∀ t ∈ tokenize text, ¬ t.OpenEnded := by
    rw [erase_tokenize_iff, hopen]
    exact ⟨not_openEnded_of_spaced (head_scanFrom 0 text), fun h => erase_scanFrom_spaced h 0⟩
  refine ⟨hscan, ⟨fun h => ?_, fun h => Fingerprint.serialize_erase (hscan.2 h) []⟩, fun h => ?_⟩
  · have herase := (Fingerprint.serialize_inj (by decide) (by decide) h).2
    exact hscan.1 ((erase_tokenize_iff _ _).2 herase)
  · rw [Fingerprint.ofText, Fingerprint.ofText, Fingerprint.inScope, Fingerprint.inScope,
      Fingerprint.serialize_erase (hscan.2 h) []]

/-- An identifier takes along the separator in front of a bracket that opens no list of template
arguments, and is read without it once a blank stands between them. -/
theorem comparison_not_scanned_back :
    let text : Text := "a::<b"
    spaced (scan text) = "a:: < b" ∧
      (tokenize (spaced (scan text))).map Token.erase ≠ (tokenize text).map Token.erase ∧
      Fingerprint.ofText (spaced (scan text)) ≠ Fingerprint.ofText text := by
  decide +kernel

end Lexer

end WatchExpr
