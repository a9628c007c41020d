import WatchExpr.Evaluation.Session
import WatchExpr.Proofs.Expression.Reading
import WatchExpr.Proofs.Lexical.Spacing
import WatchExpr.Proofs.Lowering.Recompilation
import WatchExpr.Proofs.Text.Digits
import WatchExpr.Proofs.Tree.JumpLimit

namespace WatchExpr

theorem Text.trimRight_append {p : UInt8 → Bool} {t suffix : Text} (h : ∀ c ∈ suffix, p c) :
    (t ++ suffix).trimRight p = t.trimRight p := by
  have hdrop : (suffix.reverse ++ t.reverse).dropWhile p = t.reverse.dropWhile p :=
    List.dropWhile_append_of_pos fun c hc => h c (List.mem_reverse.1 hc)
  rw [trimRight, trimRight, List.reverse_append, hdrop]

namespace Literal

/-- The spellings of a number: decimal without a zero in front, or hexadecimal, binary or octal
behind its mark. -/
inductive Spells : Nat → Text → Prop
  | decimal {n : Nat} {t : Text} (h : Numeral 10 n t)
      (hz : t.head? = some (ascii '0') → t = [ascii '0']) : Spells n t
  | hexadecimal {n : Nat} {t : Text} {x : UInt8} (hx : x = ascii 'x' ∨ x = ascii 'X')
      (h : Numeral 16 n t) : Spells n (ascii '0' :: x :: t)
  | binary {n : Nat} {t : Text} {b : UInt8} (hb : b = ascii 'b' ∨ b = ascii 'B')
      (h : Numeral 2 n t) : Spells n (ascii '0' :: b :: t)
  | octal {n : Nat} {t : Text} (h : Numeral 8 n t) : Spells n (ascii '0' :: t)

/-- The narrowest kind of an integer literal that holds a number. -/
def kindOf (n : Nat) : BasicKind :=
  if n ≤ 2 ^ 31 - 1 then .s32 else if n ≤ 2 ^ 63 - 1 then .s64 else .u64

variable {n : Nat} {t suffix : Text}

/-- What the four letters answer to a test, what ends a number answers. -/
theorem test_suffix {p : UInt8 → Bool} {answer : Bool} (hs : suffix ⊆ Text.ofString "uUlL")
    (hp : (Text.ofString "uUlL").all (p · == answer)) : ∀ c ∈ suffix, p c = answer :=
  fun c hc => eq_of_beq (List.all_eq_true.1 hp c (hs hc))

theorem spells_decimal (n : Nat) : Spells n (Text.decimal n) := by
  refine .decimal (numeral_digits (by decide) n) fun hz => ?_
  obtain rfl | hn := Nat.eq_zero_or_pos n
  · rfl
  · exact absurd hz (Text.head_decimal hn)

namespace Spells

variable (h : Spells n t)
include h

/-- What the digits and marks of all bases answer to a test, the bytes of a spelling answer. -/
theorem test {p : UInt8 → Bool} {answer : Bool}
    (hp : ∀ d < 16, p (digitByte d) = answer ∧ p (Text.upperByte (digitByte d)) = answer)
    (hx : ∀ x, x = ascii 'x' ∨ x = ascii 'X' → p x = answer) : ∀ c ∈ t, p c = answer := by
  have hdigits {base : Nat} {t : Text} (hb : base ≤ 16) (h : Numeral base n t) :
      ∀ c ∈ t, p c = answer :=
    h.test fun d hd => hp d (Nat.lt_of_lt_of_le hd hb)
  have hzero : p (ascii '0') = answer := (hp 0 (by decide)).1
  cases h with
  | decimal h => exact hdigits (by decide) h
  | hexadecimal hmark h =>
    exact List.forall_mem_cons.2 ⟨hzero, List.forall_mem_cons.2 ⟨hx _ hmark, hdigits (by decide) h⟩⟩
  | binary hmark h =>
    refine List.forall_mem_cons.2 ⟨hzero, List.forall_mem_cons.2 ⟨?_, hdigits (by decide) h⟩⟩
    obtain rfl | rfl := hmark
    · exact (hp 11 (by decide)).1
    · exact (hp 11 (by decide)).2
  | octal h => exact List.forall_mem_cons.2 ⟨hzero, hdigits (by decide) h⟩

theorem exists_digit : ∃ c rest, t = c :: rest ∧ Byte.isDigit c := by
  cases h with
  | decimal h =>
    obtain ⟨c, rest, rfl⟩ := List.exists_cons_of_ne_nil h.ne_nil
    exact ⟨c, rest, rfl, h.test (by decide) c List.mem_cons_self⟩
  | hexadecimal => exact ⟨_, _, rfl, rfl⟩
  | binary => exact ⟨_, _, rfl, rfl⟩
  | octal => exact ⟨_, _, rfl, rfl⟩

/-- The marks of floating-point numbers are digits of hexadecimal numbers only. -/
theorem isHexLiteral_or (hs : suffix ⊆ Text.ofString "uUlL") :
    Lexer.isHexLiteral (t ++ suffix) = true ∨
      ∀ c ∈ t ++ suffix, (c == 0x65 || c == 0x45 || c == 0x66 || c == 0x46) = false := by
  have hsuffix : ∀ c ∈ suffix, (c == 0x65 || c == 0x45 || c == 0x66 || c == 0x46) = false :=
    test_suffix hs rfl
  cases h with
  | decimal h => exact .inr (List.forall_mem_append.2 ⟨h.test (by decide), hsuffix⟩)
  | hexadecimal hx =>
    refine .inl ?_
    obtain rfl | rfl := hx
    · rfl
    · rfl
  | binary hb h =>
    refine .inr (List.forall_mem_append.2 ⟨?_, hsuffix⟩)
    refine List.forall_mem_cons.2 ⟨rfl, List.forall_mem_cons.2 ⟨?_, h.test (by decide)⟩⟩
    obtain rfl | rfl := hb
    · rfl
    · rfl
  | octal h =>
    refine .inr (List.forall_mem_append.2 ⟨?_, hsuffix⟩)
    exact List.forall_mem_cons.2 ⟨rfl, h.test (by decide)⟩

theorem isAlnum (hs : suffix ⊆ Text.ofString "uUlL") : ∀ c ∈ t ++ suffix, Byte.isAlnum c := by
  refine List.forall_mem_append.2 ⟨h.test (by decide) ?_, test_suffix hs rfl⟩
  rintro x (rfl | rfl)
  · rfl
  · rfl

theorem isFloat_eq_false (hs : suffix ⊆ Text.ofString "uUlL") : isFloat (t ++ suffix) = false := by
  have hpoint : (t ++ suffix).any (· == 0x2e) = false := by
    rw [List.any_eq_false]
    intro c hc hpoint
    have halnum := h.isAlnum hs c hc
    rw [eq_of_beq hpoint] at halnum
    cases halnum
  rw [isFloat, hpoint, Bool.false_or]
  obtain hhex | hmarks := h.isHexLiteral_or hs
  · rw [hhex]
    rfl
  · simp only [Bool.or_eq_false_iff] at hmarks
    have hexponent : (t ++ suffix).any (fun c => c == 0x65 || c == 0x45) = false := by
      rw [List.any_eq_false]
      intro c hc
      obtain ⟨⟨⟨hc, hc'⟩, -⟩, -⟩ := hmarks c hc
      simp only [hc, hc', Bool.or_self, Bool.false_eq_true, not_false_eq_true]
    have hlast : endsInF (t ++ suffix) = false := by
      rw [endsInF]
      split
      · rename_i c hlast
        obtain ⟨⟨-, hc⟩, hc'⟩ := hmarks c (List.mem_of_getLast? hlast)
        rw [hc, hc', Bool.or_self]
      · rfl
    rw [hexponent, hlast, Bool.or_self, Bool.and_false]

/-- Only the letters behind a number are taken off. -/
theorem trimIntSuffix (hs : suffix ⊆ Text.ofString "uUlL") :
    Literal.trimIntSuffix (t ++ suffix) = t := by
  have hsuffix : ∀ c ∈ suffix, isIntSuffix c := fun c hc => decide_eq_true (hs hc)
  have hdigits : ∀ c ∈ t, isIntSuffix c = false := by
    refine h.test (by decide) ?_
    rintro x (rfl | rfl)
    · rfl
    · rfl
  rw [Literal.trimIntSuffix, Text.trimRight_append hsuffix, Text.trimRight_eq_self hdigits]

theorem readInteger : readInteger? t = if n < 2 ^ 64 then some n.toUInt64 else none := by
  cases h with
  | decimal h hz =>
    rw [← h.readWord (by decide), readInteger?.eq_def]
    split
    · cases hz rfl
    · rfl
  | hexadecimal hx h =>
    rw [← h.readWord (by decide)]
    obtain rfl | rfl := hx
    · rfl
    · rfl
  | binary hb h =>
    rw [← h.readWord (by decide)]
    obtain rfl | rfl := hb
    · rfl
    · rfl
  | octal h =>
    obtain ⟨c, rest, rfl⟩ := List.exists_cons_of_ne_nil h.ne_nil
    have hmark : (c == 0x78 || c == 0x58) = false ∧ (c == 0x62 || c == 0x42) = false :=
      ⟨h.test (p := fun c => c == 0x78 || c == 0x58) (by decide) c List.mem_cons_self,
        h.test (p := fun c => c == 0x62 || c == 0x42) (by decide) c List.mem_cons_self⟩
    have hread : readInteger? (ascii '0' :: c :: rest) =
        if c == 0x78 || c == 0x58 then Decimal.readWord? 16 rest
        else if c == 0x62 || c == 0x42 then Decimal.readWord? 2 rest
        else Decimal.readWord? 8 (c :: rest) := rfl
    rw [hread, hmark.1, hmark.2, if_neg Bool.false_ne_true, if_neg Bool.false_ne_true,
      h.readWord (by decide)]

theorem readNumber (hs : suffix ⊆ Text.ofString "uUlL") :
    readNumber? (t ++ suffix) = if n < 2 ^ 64 then some (.int n.toUInt64) else none := by
  simp only [readNumber?, h.isFloat_eq_false hs, Bool.false_eq_true, if_false, h.trimIntSuffix hs,
    h.readInteger]
  split
  · rfl
  · rfl

theorem scan (hs : suffix ⊆ Text.ofString "uUlL") :
    Lexer.scan (t ++ suffix) = [⟨.numeric, t ++ suffix, 0⟩] := by
  obtain ⟨c, rest, rfl, hc⟩ := h.exists_digit
  have hrest : ∀ d ∈ rest ++ suffix, Byte.isAlnum d := (List.forall_mem_cons.1 (h.isAlnum hs)).2
  have hend : ∀ hex previous, Lexer.numericLength hex previous [] = 0 := fun _ _ => rfl
  have hscan := Lexer.scanFrom_number hc hrest hend 0
  rwa [List.append_nil, Lexer.scanFrom] at hscan

end Spells

end Literal

namespace Node

theorem encode_const (v : UInt64) (signed : Bool) :
    (const v signed).encode = .ok (encodeConst v signed) := by
  have hadmissible : ∀ m ∈ (const v signed).subtrees, m.Admissible := by
    simp [subtrees, Admissible]
  have hreaches : (const v signed).Reaches := by
    simp [Reaches, subtrees, TooFar]
  rw [encode_eq_ite hadmissible, if_pos hreaches, layout]

theorem execute_const (m : Machine) (hm : 1 ≤ m.capacity) (v : UInt64) (signed : Bool) :
    m.execute (encodeConst v signed) = ⟨.ok v, []⟩ := by
  rw [execute_encode m (n := const v signed) trivial (encode_const v signed) hm]
  rfl

end Node

namespace Literal

theorem lowerInt_eq {n : Nat} (hn : n < 2 ^ 64) :
    Lowering.lowerInt n.toUInt64 false =
      ⟨.const n.toUInt64 (n ≤ 2 ^ 63 - 1), .basic (kindOf n), .value⟩ := by
  have hle {m : Nat} (hm : m < 2 ^ 64) : n.toUInt64 ≤ m.toUInt64 ↔ n ≤ m := by
    rw [UInt64.le_iff_toNat_le, UInt64.toNat_ofNat_of_lt' hn, UInt64.toNat_ofNat_of_lt' hm]
  have h31 : n.toUInt64 ≤ 0x7fffffff ↔ n ≤ 2 ^ 31 - 1 := hle (by decide)
  have h63 : n.toUInt64 ≤ 0x7fffffffffffffff ↔ n ≤ 2 ^ 63 - 1 := hle (by decide)
  simp only [Lowering.lowerInt, kindOf, h31, h63, Bool.false_eq_true, if_false]
  split
  · rw [decide_eq_true (by omega)]
  · split
    · rename_i h
      rw [decide_eq_true h]
    · rename_i h
      rw [decide_eq_false h]

namespace Spells

variable {n : Nat} {t suffix : Text} (h : Spells n t) (hs : suffix ⊆ Text.ofString "uUlL")
  (c : Context)
include h hs

theorem parse_eq :
    Parser.parse c (t ++ suffix) (Lexer.scan (t ++ suffix)) =
      if n < 2 ^ 64 then (.int ⟨0, (t ++ suffix).length⟩ n.toUInt64 false, [])
      else (.missing, [⟨0, .invalidNumber (t ++ suffix)⟩]) := by
  rw [h.scan hs, Parser.parse_token _ (fun w _ => rfl) rfl rfl]
  simp only [Parser.readToken, h.readNumber hs]
  by_cases hn : n < 2 ^ 64
  · simp only [if_pos hn, Token.span, Token.stop, Nat.zero_add]
  · simp only [if_neg hn]

theorem compile_fits (hn : n < 2 ^ 64) :
    (compile c (t ++ suffix)).1.diagnostics = [] ∧
      (compile c (t ++ suffix)).1.type = .basic (kindOf n) ∧
      (compile c (t ++ suffix)).1.code =
        some (Node.encodeConst n.toUInt64 (n ≤ 2 ^ 63 - 1)) ∧
      (compile c (t ++ suffix)).1.valueCode =
        some (Node.encodeConst n.toUInt64 (n ≤ 2 ^ 63 - 1)) := by
  have hparse := h.parse_eq hs c
  rw [if_pos hn] at hparse
  have hlower :
      (Lowering.lower (Parser.parse c (t ++ suffix) (Lexer.scan (t ++ suffix))).1).run
          { types := c.types } =
        (some ⟨.const n.toUInt64 (n ≤ 2 ^ 63 - 1), .basic (kindOf n), .value⟩,
          { types := c.types }) := by
    rw [hparse, Lowering.lower, lowerInt_eq hn]
    rfl
  have hcode := Node.encode_const n.toUInt64 (n ≤ 2 ^ 63 - 1)
  rw [compile_eq_of_lower (congrArg Prod.snd hparse) hlower rfl hcode rfl, Option.bind_some, hcode]
  exact ⟨rfl, rfl, rfl, rfl⟩

theorem compile_tooWide (hn : 2 ^ 64 ≤ n) :
    (compile c (t ++ suffix)).1 =
      { text := t ++ suffix, ast := .missing,
        diagnostics := [⟨0, .invalidNumber (t ++ suffix)⟩] } := by
  have hparse := h.parse_eq hs c
  rw [if_neg (Nat.not_lt.2 hn)] at hparse
  rw [compile, hparse]
  rfl

end Spells

end Literal

/-- Integer literals mean their value. Every spelling of a number is one token with the letters
behind it. If the number fits 64 bits it compiles without complaints and evaluates to itself, in
the narrowest type that holds it; otherwise it is refused and there is no code to run. -/
theorem evaluate_integer {n : Nat} {t suffix : Text} (h : Literal.Spells n t)
    (hs : suffix ⊆ Text.ofString "uUlL") (c : Context) {m : Machine} (hm : 1 ≤ m.capacity) :
    Lexer.tokenize (t ++ suffix) =
      [⟨.numeric, t ++ suffix, 0⟩, Token.eof (t ++ suffix).length] ∧
    (n < 2 ^ 64 →
      (compile c (t ++ suffix)).1.ok ∧ (compile c (t ++ suffix)).1.diagnostics = [] ∧
      (evaluate c m (t ++ suffix)).1.type =
        .basic (if n ≤ 2 ^ 31 - 1 then .s32 else if n ≤ 2 ^ 63 - 1 then .s64 else .u64) ∧
      ∃ v : Slot, (evaluate c m (t ++ suffix)).1.value = .ok v ∧ v.toNat = n) ∧
    (2 ^ 64 ≤ n →
      (compile c (t ++ suffix)).1.code = none ∧
      Diagnostic.anyError (compile c (t ++ suffix)).1.diagnostics ∧
      (evaluate c m (t ++ suffix)).1.outcome = none ∧
      (evaluate c m (t ++ suffix)).1.value =
        .error (.diagnostics [⟨0, .invalidNumber (t ++ suffix)⟩])) := by
  refine ⟨by rw [Lexer.tokenize, h.scan hs]; rfl, fun hn => ?_, fun hn => ?_⟩
  · obtain ⟨hd, htype, hcode, hvalue⟩ := h.compile_fits hs c hn
    have hany : Diagnostic.anyError (compile c (t ++ suffix)).1.diagnostics = false := by
      rw [hd]
      rfl
    have hrun : (evaluate c m (t ++ suffix)).1 =
        ⟨(compile c (t ++ suffix)).1, some ⟨.ok n.toUInt64, []⟩⟩ := by
      simp only [evaluate, Compiled.run, hany, Bool.false_eq_true, if_false, hvalue,
        Option.map_some, Node.execute_const m hm]
    refine ⟨?_, hd, ?_, n.toUInt64, ?_, UInt64.toNat_ofNat_of_lt' hn⟩
    · rw [Compiled.ok, hcode, hany]
      rfl
    · rw [hrun]
      exact htype
    · simp only [hrun, Evaluation.value, hany, Bool.false_eq_true, if_false, Except.mapError]
  · have hcompile := h.compile_tooWide hs c hn
    have hrun : (evaluate c m (t ++ suffix)).1 = ⟨(compile c (t ++ suffix)).1, none⟩ := by
      simp only [evaluate, hcompile]
      rfl
    rw [hrun, hcompile]
    exact ⟨rfl, rfl, rfl, rfl⟩

theorem spells_ff : Literal.Spells 255 "0xFf" :=
  .hexadecimal (.inl rfl)
    (.snoc (n := 15) (d := 15) (.digit (by decide) (.inr (by decide))) (by decide)
      (.inl (by decide)))

/-- Hexadecimal digits in both cases, and the first number that is too wide. -/
theorem evaluate_ff :
    Literal.Spells 255 "0xFf" ∧ Text.ofString "uLL" ⊆ Text.ofString "uUlL" ∧
      (evaluate (.bare .x64) ⟨none, .x64, 1⟩ "0xFfuLL").1.type = .basic .s32 ∧
      (∃ v : Slot, (evaluate (.bare .x64) ⟨none, .x64, 1⟩ "0xFfuLL").1.value = .ok v ∧
        v.toNat = 255) ∧
      Literal.Spells (2 ^ 64) "18446744073709551616" ∧
      (compile (.bare .x64) "18446744073709551616").1.code = none := by
  have hwide : Literal.Spells (2 ^ 64) "18446744073709551616" := by
    have hdecimal : Text.decimal (2 ^ 64) = "18446744073709551616" := by decide +kernel
    exact hdecimal ▸ Literal.spells_decimal (2 ^ 64)
  have hs : Text.ofString "uLL" ⊆ Text.ofString "uUlL" := by decide
  have htext : Text.ofString "0xFf" ++ Text.ofString "uLL" = "0xFfuLL" := by decide
  obtain ⟨-, hfits, -⟩ :=
    evaluate_integer spells_ff hs (.bare .x64) (m := ⟨none, .x64, 1⟩) (Nat.le_refl 1)
  obtain ⟨-, -, htype, hvalue⟩ := hfits (by decide)
  obtain ⟨-, -, hrefused⟩ := evaluate_integer hwide (List.nil_subset _) (.bare .x64)
    (m := ⟨none, .x64, 1⟩) (Nat.le_refl 1)
  obtain ⟨hcode, -⟩ := hrefused (Nat.le_refl _)
  rw [htext] at htype hvalue
  rw [List.append_nil] at hcode
  exact ⟨spells_ff, hs, htype, hvalue, hwide, hcode⟩

end WatchExpr
