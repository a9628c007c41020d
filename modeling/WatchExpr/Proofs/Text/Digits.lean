import Mathlib.Algebra.Ring.Nat
import WatchExpr.Expression.Literal

namespace WatchExpr

def Byte.Shows (c : UInt8) (d : Nat) : Prop := c = digitByte d ∨ c = Text.upperByte (digitByte d)

/-- A number is written in a base, the most significant digit first. -/
inductive Numeral (base : Nat) : Nat → Text → Prop
  | digit {d : Nat} {c : UInt8} (hd : d < base) (hc : Byte.Shows c d) : Numeral base d [c]
  | snoc {n d : Nat} {t : Text} {c : UInt8} (hn : Numeral base n t) (hd : d < base)
      (hc : Byte.Shows c d) : Numeral base (n * base + d) (t ++ [c])

theorem Byte.Shows.digitValue {c : UInt8} {d : Nat} (hc : Byte.Shows c d) (h : d < 36) :
    Byte.digitValue? c = some d := by
  have hall : ∀ d < 36, Byte.digitValue? (digitByte d) = some d ∧
      Byte.digitValue? (Text.upperByte (digitByte d)) = some d := by
    decide
  obtain rfl | rfl := hc
  · exact (hall d h).1
  · exact (hall d h).2

section
variable {base : Nat}

theorem digitsRev_ne_nil (fuel n : Nat) : digitsRev base (fuel + 1) n ≠ [] := by
  rw [digitsRev]
  split <;> exact List.cons_ne_nil _ _

theorem digitsRev_lt (hb : 0 < base) (fuel n : Nat) : ∀ d ∈ digitsRev base fuel n, d < base := by
  induction fuel generalizing n with
  | zero => exact List.forall_mem_nil _
  | succ fuel ih =>
    rw [digitsRev]
    split
    · rename_i hn
      exact List.forall_mem_singleton.2 hn
    · exact List.forall_mem_cons.2 ⟨Nat.mod_lt n hb, ih (n / base)⟩

theorem getLast_digitsRev {fuel n : Nat} (hn : 0 < n) (hf : n < base ^ fuel) :
    ∃ d, (digitsRev base fuel n).getLast? = some d ∧ 0 < d := by
  induction fuel generalizing n with
  | zero =>
    rw [Nat.pow_zero] at hf
    omega
  | succ fuel ih =>
    rw [digitsRev]
    split
    · exact ⟨n, rfl, hn⟩
    · rename_i hge
      have hb : 0 < base := Nat.pos_of_ne_zero fun h => by simp [h] at hf
      have hdiv : n / base < base ^ fuel := by
        rw [Nat.div_lt_iff_lt_mul hb, ← Nat.pow_succ]
        exact hf
      obtain ⟨d, hd, hpos⟩ := ih (Nat.div_pos (Nat.le_of_not_lt hge) hb) hdiv
      exact ⟨d, by rw [List.getLast?_cons, hd]; rfl, hpos⟩

theorem lt_pow_log2 (hb : 2 ≤ base) (n : Nat) : n < base ^ (Nat.log2 n + 1) :=
  Nat.lt_of_lt_of_le Nat.lt_log2_self (Nat.pow_le_pow_left hb _)

end

namespace Decimal

def readDigit (base : Nat) (acc : Option Nat) (c : UInt8) : Option Nat := do
  let n ← acc
  let d ← Byte.digitValue? c
  if d < base then some (n * base + d) else none

theorem readDigit_of_shows {base d : Nat} {c : UInt8} (hb : base ≤ 36) (hd : d < base)
    (hc : Byte.Shows c d) (n : Nat) : readDigit base (some n) c = some (n * base + d) := by
  simp [readDigit, hc.digitValue (Nat.lt_of_lt_of_le hd hb), hd]

theorem readNat?_of_ne_nil {base : Nat} {t : Text} (h : t ≠ []) :
    readNat? base t = t.foldl (readDigit base) (some 0) := by
  cases t with
  | nil => exact absurd rfl h
  | cons c t => rfl

end Decimal

namespace Numeral

variable {base n : Nat} {t : Text}

theorem ne_nil (h : Numeral base n t) : t ≠ [] := by
  cases h with
  | digit => exact List.cons_ne_nil _ _
  | snoc => exact List.append_ne_nil_of_right_ne_nil _ (List.cons_ne_nil _ _)

theorem test {p : UInt8 → Bool} {answer : Bool} (h : Numeral base n t)
    (hp : ∀ d < base, p (digitByte d) = answer ∧ p (Text.upperByte (digitByte d)) = answer) :
    ∀ c ∈ t, p c = answer := by
  have hshows {c : UInt8} {d : Nat} (hd : d < base) (hc : Byte.Shows c d) : p c = answer := by
    obtain rfl | rfl := hc
    · exact (hp d hd).1
    · exact (hp d hd).2
  induction h with
  | digit hd hc => exact List.forall_mem_singleton.2 (hshows hd hc)
  | snoc _ hd hc ih =>
    exact List.forall_mem_append.2 ⟨ih, List.forall_mem_singleton.2 (hshows hd hc)⟩

theorem readNat (h : Numeral base n t) (hb : base ≤ 36) : Decimal.readNat? base t = some n := by
  rw [Decimal.readNat?_of_ne_nil h.ne_nil]
  induction h with
  | digit hd hc =>
    rw [List.foldl_cons, List.foldl_nil, Decimal.readDigit_of_shows hb hd hc, Nat.zero_mul,
      Nat.zero_add]
  | snoc _ hd hc ih =>
    rw [List.foldl_append, ih, List.foldl_cons, List.foldl_nil,
      Decimal.readDigit_of_shows hb hd hc]

theorem readWord (h : Numeral base n t) (hb : base ≤ 36) :
    Decimal.readWord? base t = if n < 2 ^ 64 then some n.toUInt64 else none := by
  rw [Decimal.readWord?, h.readNat hb]
  rfl

end Numeral

theorem numeral_digits {base : Nat} (hb : 2 ≤ base) (n : Nat) :
    Numeral base n ((digits base n).map digitByte) := by
  have hn := lt_pow_log2 hb n
  rw [digits]
  generalize Nat.log2 n = fuel at hn
  -- by induction on the digits from the least significant one: the others show the quotient
  induction fuel generalizing n with
  | zero =>
    rw [digitsRev, if_pos (by simpa using hn)]
    exact .digit (by simpa using hn) (.inl rfl)
  | succ fuel ih =>
    rw [digitsRev]
    split
    · rename_i hlt
      exact .digit hlt (.inl rfl)
    · have hdiv : n / base < base ^ (fuel + 1) := by
        rw [Nat.div_lt_iff_lt_mul (by omega), ← Nat.pow_succ]
        exact hn
      have hsnoc := Numeral.snoc (ih (n / base) hdiv) (Nat.mod_lt n (by omega)) (.inl rfl)
      rwa [Nat.div_add_mod', ← List.map_singleton, ← List.map_append, ← List.reverse_cons] at hsnoc

namespace Decimal

theorem readWord?_decimal (n : UInt64) : readWord? 10 (Text.decimal n.toNat) = some n := by
  rw [Text.decimal, (numeral_digits (by decide) n.toNat).readWord (by decide), if_pos n.toNat_lt]
  exact congrArg some UInt64.ofNat_toNat

end Decimal

namespace Text

theorem decimal_ne_nil (n : Nat) : decimal n ≠ [] := by
  simpa [decimal, digits] using digitsRev_ne_nil (Nat.log2 n) n

theorem test_of_mem_decimal {p : UInt8 → Bool} {answer : Bool}
    (hp : ∀ d < 10, p (digitByte d) = answer) {n : Nat} {c : UInt8} (h : c ∈ decimal n) :
    p c = answer := by
  obtain ⟨d, hd, rfl⟩ := List.mem_map.1 h
  exact hp d (digitsRev_lt (by decide) _ _ d (List.mem_reverse.1 hd))

theorem head_decimal {n : Nat} (h : 0 < n) : (decimal n).head? ≠ some 0x30 := by
  obtain ⟨d, hd, hpos⟩ := getLast_digitsRev h (lt_pow_log2 (by decide : 2 ≤ 10) n)
  have hlt : d < 10 := digitsRev_lt (by decide) _ _ d (List.mem_of_getLast? hd)
  have hbyte : ∀ d < 10, 0 < d → digitByte d ≠ 0x30 := by decide
  rw [decimal, digits, List.head?_map, List.head?_reverse, hd]
  intro heq
  exact hbyte d hlt hpos (Option.some.inj heq)

theorem trimRight_eq_self {p : UInt8 → Bool} {t : Text} (h : ∀ c ∈ t, p c = false) :
    t.trimRight p = t := by
  have hdrop : t.reverse.dropWhile p = t.reverse := by
    cases hr : t.reverse with
    | nil => rfl
    | cons c rest =>
      have hc : p c = false := h c (List.mem_reverse.1 (by rw [hr]; exact List.mem_cons_self))
      rw [List.dropWhile_cons_of_neg (Bool.eq_false_iff.1 hc)]
  rw [trimRight, hdrop, List.reverse_reverse]

end Text

namespace Literal

theorem readCount?_of_head {t : Text} (h : t.head? ≠ some 0x30) :
    readCount? t = Decimal.readWord? 10 t := by
  rw [readCount?.eq_def]
  split
  · exact absurd rfl h
  · exact absurd rfl h
  · exact absurd rfl h
  · rfl

theorem readCount?_decimal (n : UInt64) :
    readCount? (trimIntSuffix (Text.decimal n.toNat)) = some n := by
  have hsuffix : ∀ c ∈ Text.decimal n.toNat, isIntSuffix c = false :=
    fun c hc => Text.test_of_mem_decimal (by decide) hc
  rw [trimIntSuffix, Text.trimRight_eq_self hsuffix]
  obtain hz | hpos := Nat.eq_zero_or_pos n.toNat
  · obtain rfl : n = 0 := UInt64.toNat_inj.1 hz
    rfl
  · rw [readCount?_of_head (Text.head_decimal hpos), Decimal.readWord?_decimal]

end Literal

end WatchExpr
