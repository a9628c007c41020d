import WatchExpr.Expression.Literal
import WatchExpr.Proofs.Lexical.Respacing

namespace WatchExpr

def Token.shift (k : Nat) (t : Token) : Token := { t with start := t.start + k }

namespace Token

variable (k : Nat) (t : Token)

@[simp] theorem shift_kind : (t.shift k).kind = t.kind := rfl

@[simp] theorem shift_literal : (t.shift k).literal = t.literal := rfl

@[simp] theorem shift_start : (t.shift k).start = t.start + k := rfl

@[simp] theorem shift_is (w : Text) : (t.shift k).is w = t.is w := rfl

@[simp] theorem shift_stop : (t.shift k).stop = t.stop + k := Nat.add_right_comm _ _ _

def Terminated (t : Token) : Prop :=
  t.kind = .string ∨ t.kind = .char →
    ∃ quote rest, t.literal = quote :: rest ∧ Literal.isTerminated quote rest = true

end Token

namespace Lexer

theorem scanFrom_shift (k position : Nat) (text : Text) :
    scanFrom (position + k) text = (scanFrom position text).map (Token.shift k) := by
  fun_induction scanFrom position text with
  | case1 => rw [scanFrom, List.map_nil]
  | case2 position c rest hc ih => rw [scanFrom, if_pos hc, Nat.add_right_comm, ih]
  | case3 position c rest hc kind length hk token ih =>
    have hstop : (⟨kind, c :: rest.take length, position + k⟩ : Token).stop = token.stop + k :=
      Nat.add_right_comm _ _ _
    rw [scanFrom, if_neg hc, hk, List.map_cons, ← ih, ← hstop]
    rfl

theorem head?_append_close {p : UInt8 → Bool} (hp : p 0x29 = false) (t : Text) :
    (t ++ [0x29]).head?.any p = t.head?.any p := by
  cases t with
  | nil => exact hp
  | cons c t => rfl

theorem numericLength_append_close (hex : Bool) (previous : UInt8) (t : Text) :
    numericLength hex previous (t ++ [0x29]) = numericLength hex previous t := by
  induction t generalizing previous with
  | nil =>
    simp [numericLength, Byte.isAlnum, Byte.isAlpha, Byte.isDigit, Byte.isLower, Byte.isUpper]
  | cons c t ih => rw [List.cons_append, numericLength, numericLength, ih]

theorem templateLength_append_close (depth : Nat) (t : Text) :
    templateLength? depth (t ++ [0x29]) = templateLength? depth t := by
  induction t generalizing depth with
  | nil =>
    have hpart : isTemplatePart 0x29 = false := by decide
    simp [templateLength?, hpart]
  | cons c t ih => rw [List.cons_append, templateLength?, templateLength?, ih, ih, ih]

theorem identifierLength_close {t : Text} (h : identifierLength t = 0) :
    identifierLength (t ++ [0x29]) = 0 := by
  cases t with
  | nil =>
    rw [List.nil_append, identifierLength_cons]
    rfl
  | cons c t =>
    rw [identifierLength_cons] at h
    rw [List.cons_append, identifierLength_cons]
    split at h
    · omega
    rename_i hp
    rw [if_neg hp]
    split at h
    · rename_i hc
      rw [if_pos hc, if_neg]
      rintro ⟨hhead, hd⟩
      cases t with
      | nil => cases hhead
      | cons e t =>
        rw [List.cons_append, List.tail_cons, head?_append_close (by decide)] at hd
        rw [if_pos ⟨hhead, hd⟩] at h
        omega
    rename_i hc
    rw [if_neg hc]
    split at h
    · rename_i hl
      rw [if_pos hl, ← List.cons_append, templateLength_append_close]
      cases hn : templateLength? 0 (c :: t) with
      | none => rfl
      | some n =>
        obtain ⟨u, rest, -, rfl, hu⟩ := templateRun hn
        cases u with
        | nil => cases hu
        | cons d u =>
          rw [hn, Option.elim_some, List.length_cons] at h
          omega
    · rename_i hl
      rw [if_neg hl]

theorem IdentifierRun.append_close {u rest : Text} (h : IdentifierRun u rest) :
    IdentifierRun u (rest ++ [0x29]) := by
  induction h with
  | stop h => exact .stop (identifierLength_close h)
  | part hc _ ih => exact .part hc ih
  | separator hd _ ih =>
    refine .separator ?_ ih
    rw [← List.append_assoc, head?_append_close (by decide)]
    exact hd
  | arguments hl _ ih => exact .arguments hl ih

theorem identifierLength_append_close (t : Text) :
    identifierLength (t ++ [0x29]) = identifierLength t := by
  obtain ⟨u, rest, rfl, h⟩ := exists_identifierRun t
  rw [List.append_assoc, h.append_close.eq, h.eq]

theorem quotedLength_append_of_isTerminated {quote : UInt8} {t : Text}
    (h : Literal.isTerminated quote (t.take (quotedLength quote t)) = true) (u : Text) :
    quotedLength quote (t ++ u) = quotedLength quote t := by
  fun_induction quotedLength quote t with
  | case1 => cases h
  | case2 c hc => simp [Literal.isTerminated, hc] at h
  | case3 c hc d rest ih =>
    rw [Nat.add_comm 2, List.take_succ_cons, List.take_succ_cons, Literal.isTerminated,
      if_pos hc] at h
    rw [List.cons_append, List.cons_append, quotedLength, if_pos hc]
    simp only [ih h]
  | case4 c rest hc hq =>
    rw [List.cons_append, quotedLength.eq_def]
    simp only [if_neg hc, if_pos hq]
  | case5 c rest hc hq ih =>
    rw [Nat.add_comm 1, List.take_succ_cons, Literal.isTerminated.eq_def] at h
    simp only [if_neg hc, if_neg hq] at h
    rw [List.cons_append, quotedLength.eq_def]
    simp only [if_neg hc, if_neg hq, ih h]

theorem lexeme_append_close {c : UInt8} {t : Text} (hc : c ≠ 0x60)
    (hq : Token.Terminated ⟨(lexeme c t).1, c :: t.take (lexeme c t).2, 0⟩) :
    lexeme c (t ++ [0x29]) = lexeme c t := by
  have hpoint := head?_append_close (p := Byte.isDigit) (by decide) t
  have hhex : isHexLiteral (c :: (t ++ [0x29])) = isHexLiteral (c :: t) := by
    rw [isHexLiteral_cons, isHexLiteral_cons, head?_append_close (by decide)]
  have hlong : longSymbols.any (·.isPrefixOf (c :: (t ++ [0x29]))) =
      longSymbols.any (·.isPrefixOf (c :: t)) := by
    rw [any_longSymbols, any_longSymbols, head?_append_close]
    simp [longSymbols_eq]
  have hticked : (c == 0x60) = false := beq_false_of_ne hc
  have hquoted {kind : TokenKind} (hk : kind = .string ∨ kind = .char)
      (h : lexeme c t = (kind, quotedLength c t)) :
      quotedLength c (t ++ [0x29]) = quotedLength c t := by
    rw [h] at hq
    obtain ⟨quote, rest, hl, ht⟩ := hq hk
    cases hl
    exact quotedLength_append_of_isTerminated ht _
  simp only [lexeme] at hquoted
  simp only [lexeme, hpoint, hhex, hlong, hticked, identifierLength_append_close,
    numericLength_append_close]
  by_cases hi : isIdentifierStart c = true
  · simp only [if_pos hi, Bool.false_eq_true, if_false]
  by_cases hn : (Byte.isDigit c || c == 0x2e && t.head?.any Byte.isDigit) = true
  · rw [if_neg hi, if_neg hi, if_pos hn, if_pos hn]
  by_cases hs : (c == 0x22) = true
  · simp only [if_neg hi, if_neg hn, if_pos hs] at hquoted ⊢
    rw [hquoted (.inl rfl) rfl]
  by_cases hc : (c == 0x27) = true
  · simp only [if_neg hi, if_neg hn, if_neg hs, if_pos hc] at hquoted ⊢
    rw [hquoted (.inr rfl) rfl]
  · simp only [if_neg hi, if_neg hn, if_neg hs, if_neg hc]

theorem quotedLength_le (quote : UInt8) (t : Text) : quotedLength quote t ≤ t.length := by
  fun_induction quotedLength quote t with
  | case3 c hc d rest ih =>
    simp only [List.length_cons]
    omega
  | case5 c rest hc hq ih =>
    simp only [List.length_cons]
    omega
  | _ => simp

theorem numericLength_le (hex : Bool) (previous : UInt8) (t : Text) :
    numericLength hex previous t ≤ t.length := by
  fun_induction numericLength hex previous t with
  | case2 previous c rest hc ih =>
    simp only [List.length_cons]
    omega
  | case3 previous c rest hc hs ih =>
    simp only [List.length_cons]
    omega
  | _ => simp

theorem lexeme_length_le {c : UInt8} (hc : c ≠ 0x60) (t : Text) : (lexeme c t).2 ≤ t.length := by
  have hticked : (c == 0x60) = false := beq_false_of_ne hc
  simp only [lexeme, hticked, any_longSymbols]
  split
  · exact identifierLength_le t
  split
  · exact numericLength_le _ _ _
  split
  · exact quotedLength_le _ _
  split
  · exact quotedLength_le _ _
  split
  · cases t with
    | nil => exact Nat.le_refl 0
    | cons d t =>
      simp only [List.length_cons]
      split <;> omega
  · exact Nat.zero_le _

/-- A closing parenthesis behind a text is a token of its own, unless an unterminated literal takes
it in. -/
theorem scanFrom_append_close {position : Nat} {text : Text} (hticks : 0x60 ∉ text)
    (hq : ∀ t ∈ scanFrom position text, t.Terminated) :
    scanFrom position (text ++ [0x29]) =
      scanFrom position text ++ [⟨.symbol, [0x29], position + text.length⟩] := by
  fun_induction scanFrom position text with
  | case1 =>
    have hlexeme : lexeme 0x29 [] = (.symbol, 0) := by decide
    rw [List.nil_append, scanFrom, if_neg (by decide), hlexeme]
    simp only [List.take_nil, List.drop_nil, scanFrom]
    rfl
  | case2 position c rest hc ih =>
    rw [List.cons_append, scanFrom, if_pos hc, ih (fun h => hticks (List.mem_cons_of_mem _ h)) hq,
      List.length_cons]
    simp only [Nat.add_assoc, Nat.add_comm 1]
  | case3 position c rest hc kind length hk token ih =>
    obtain ⟨ht, hts⟩ := List.forall_mem_cons.1 hq
    have hne : c ≠ 0x60 := fun h => hticks (h ▸ List.mem_cons_self)
    have hle := lexeme_length_le hne rest
    have hlexeme := lexeme_append_close (t := rest) hne (by rw [hk]; exact ht)
    rw [hk] at hle hlexeme
    simp only at hle
    have hdrop := ih (fun h => hticks (List.mem_cons_of_mem _ (List.mem_of_mem_drop h))) hts
    have hend : token.stop + (rest.drop length).length = position + (c :: rest).length := by
      simp only [Token.stop, token, List.length_cons, List.length_take, List.length_drop]
      omega
    rw [List.cons_append, scanFrom, if_neg hc, hlexeme]
    simp only [List.take_append_of_le_length hle, List.drop_append_of_le_length hle]
    rw [List.cons_append, ← hend, ← hdrop]

theorem scan_enclosed {text : Text} (hticks : 0x60 ∉ text)
    (hq : ∀ t ∈ scan text, t.Terminated) :
    scan ("(" ++ text ++ ")") = ⟨.symbol, "(", 0⟩ :: (scan text).map (Token.shift 1) ++
      [⟨.symbol, ")", text.length + 1⟩] := by
  have hlexeme (t : Text) : lexeme 0x28 t = (.symbol, 0) := by
    have hi : isIdentifierStart 0x28 = false := by decide
    have hd : Byte.isDigit 0x28 = false := by decide
    have hs : isSymbolByte 0x28 = true := by decide
    simp [lexeme, hi, hd, hs, longSymbols_eq]
  have hopen : scan ("(" ++ text ++ ")") =
      ⟨.symbol, [0x28], 0⟩ :: scanFrom (0 + 1) (text ++ [0x29]) := by
    change scanFrom 0 (0x28 :: (text ++ [0x29])) = _
    rw [scanFrom, if_neg (by decide), hlexeme]
    rfl
  rw [hopen, scanFrom_shift, scanFrom_append_close hticks hq, List.map_append, Nat.zero_add]
  rfl

end Lexer

end WatchExpr
