import WatchExpr.Proofs.Types.Size
import WatchExpr.Lowering.Value

namespace WatchExpr

namespace TypeTable

/-- The entries of one table are still there in another. -/
def Extends (t t' : TypeTable) : Prop :=
  ∀ ⦃k : TypeKey⦄ ⦃e : TypeEntry⦄, t.entry? k = some e → t'.entry? k = some e

theorem Extends.refl (t : TypeTable) : t.Extends t := by
  intro k e he
  exact he

theorem Extends.trans {t₁ t₂ t₃ : TypeTable} (h : t₁.Extends t₂) (h' : t₂.Extends t₃) :
    t₁.Extends t₃ := by
  intro k e he
  exact h' (h he)

theorem extends_of_push {t t' : TypeTable} {e : TypeEntry} (h : t'.entries = t.entries.push e) :
    t.Extends t' := by
  intro k e' he
  obtain ⟨hid, he⟩ := entry?_eq_some.1 he
  obtain ⟨hi, -⟩ := Array.getElem?_eq_some_iff.1 he
  rw [entry?_eq_some, h, Array.getElem?_push_lt hi, ← he, Array.getElem?_eq_getElem hi]
  exact ⟨hid, rfl⟩

theorem entries_add (t : TypeTable) (e : TypeEntry) : (t.add e).2.entries = t.entries.push e := by
  simp only [add]
  split <;> rfl

theorem extends_add (t : TypeTable) (e : TypeEntry) : t.Extends (t.add e).2 :=
  extends_of_push (t.entries_add e)

theorem extends_pointer (t : TypeTable) (k : TypeKey) : t.Extends (t.pointer k).2 := by
  rw [pointer]
  split
  · exact Extends.refl t
  · exact extends_add t _

theorem extends_array (t : TypeTable) (k : TypeKey) (count : UInt64) :
    t.Extends (t.array k count).2 := by
  rw [array]
  split
  · exact Extends.refl t
  · exact extends_add t _

theorem extends_load (t : TypeTable) (r : Lowered) : t.Extends (t.load r).2 := by
  simp only [load]
  split
  · exact Extends.refl t
  · split
    · exact extends_pointer t _
    · split <;> exact Extends.refl t
  · split <;> exact Extends.refl t

theorem extends_of_load {t t' : TypeTable} {r v : Lowered} (h : t.load r = (some v, t')) :
    t.Extends t' := by
  have he := extends_load t r
  rw [h] at he
  exact he

theorem kind_pointer (t : TypeTable) (k : TypeKey) : (t.pointer k).1.kind = .pointer := by
  simp only [pointer]
  split
  · rename_i p hp
    obtain ⟨before, after, hl, -⟩ := List.lookup_eq_some_iff.1 hp
    exact t.pointers_kind (k, p) (by rw [hl]; simp)
  · exact t.kind_add _

variable {t t' : TypeTable} {k : TypeKey} {n : Nat} {b : BasicKind}

theorem unwrapWithin_of_not_transparent (h : k.kind.isTransparent = false) (n : Nat) :
    t.unwrapWithin n k = k := by
  cases n with
  | zero => rfl
  | succ n => simp only [unwrapWithin, h, Bool.false_eq_true, if_false]

/-- A name whose entry is not there. -/
def Dangling (t : TypeTable) (k : TypeKey) : Prop := k.kind.isTransparent ∧ t.entry? k = none

theorem direct_of_entry {e : TypeEntry} (h : t.entry? k = some e) : t.direct k = e.direct := by
  rw [direct, h]
  rfl

theorem Extends.unwrapWithin (h : t.Extends t') (n : Nat) (k : TypeKey) :
    t'.unwrapWithin n k = t.unwrapWithin n k ∨ t.Dangling (t.unwrapWithin n k) := by
  induction n generalizing k with
  | zero => exact .inl rfl
  | succ n ih =>
    cases hk : k.kind.isTransparent with
    | false =>
      rw [unwrapWithin_of_not_transparent hk, unwrapWithin_of_not_transparent hk]
      exact .inl rfl
    | true =>
      cases he : t.entry? k with
      | none =>
        have hd : (t.direct k).isZero := by rw [direct, he]; rfl
        simp only [TypeTable.unwrapWithin, hk, hd, if_true]
        exact .inr ⟨hk, he⟩
      | some e =>
        simp only [TypeTable.unwrapWithin, hk, if_true, direct_of_entry he, direct_of_entry (h he)]
        split
        · exact .inl rfl
        · exact ih e.direct

theorem sizeWithin_of_dangling (h : t.Dangling k) (n : Nat) : t.sizeWithin (n + 1) k = some 0 := by
  obtain ⟨hk, he⟩ := h
  rw [sizeWithin]
  cases hkind : k.kind with
  | modifier => simp only [he]
  | typedef => simp only [he]
  | incomplete f => simp only [he]
  | _ => simp [hkind, Kind.isTransparent] at hk

theorem sizeLink?_of_transparent (hk : k.kind.isTransparent) (hz : ¬ (t.direct k).isZero) :
    t.sizeLink? k = some (1, t.direct k) := by
  cases he : t.entry? k with
  | none =>
    rw [direct, he] at hz
    exact absurd rfl hz
  | some e =>
    rw [direct_of_entry he] at hz ⊢
    rw [sizeLink?]
    cases hkind : k.kind with
    | modifier => simp only [he, Option.map_some]
    | typedef => simp only [he, Option.map_some]
    | incomplete f => simp [he, hz]
    | _ => simp [hkind, Kind.isTransparent] at hk

theorem sizeWithin_of_unwrapWithin {m : Nat} {v : UInt64}
    (h : t.sizeWithin m (t.unwrapWithin n k) = some v) : t.sizeWithin (n + m) k = some v := by
  induction n generalizing k with
  | zero =>
    rw [Nat.zero_add]
    exact h
  | succ n ih =>
    cases hk : k.kind.isTransparent with
    | false =>
      rw [unwrapWithin_of_not_transparent hk] at h
      exact sizeWithin_mono (by omega) h
    | true =>
      simp only [TypeTable.unwrapWithin, hk, if_true] at h
      split at h
      · exact sizeWithin_mono (by omega) h
      · rename_i hz
        rw [show n + 1 + m = n + m + 1 by omega,
          sizeWithin_succ_of_link (sizeLink?_of_transparent hk hz), ih h, Option.map_some,
          UInt64.one_mul]

theorem sizeWithin_unwrapWithin {m : Nat} {v : UInt64} (h : t.sizeWithin m k = some v) :
    t.sizeWithin m (t.unwrapWithin n k) = some v := by
  induction n generalizing k m v with
  | zero => exact h
  | succ n ih =>
    simp only [TypeTable.unwrapWithin]
    split
    · rename_i hk
      split
      · exact h
      · rename_i hz
        cases m with
        | zero => cases h
        | succ m =>
          rw [sizeWithin_succ_of_link (sizeLink?_of_transparent hk hz)] at h
          obtain ⟨w, hw, rfl⟩ := Option.map_eq_some_iff.1 h
          rw [UInt64.one_mul]
          exact sizeWithin_succ (ih hw)
    · exact h

/-- Taking names off changes no size, however many there are. -/
theorem size?_unwrapped (t : TypeTable) (k : TypeKey) : t.size? (t.unwrap k) = t.size? k := by
  cases hu : t.size? (t.unwrap k) with
  | some v => exact (size?_of_sizeWithin (sizeWithin_of_unwrapWithin hu)).symm
  | none =>
    cases hk : t.size? k with
    | some v => cases hu.symm.trans (size?_of_sizeWithin (sizeWithin_unwrapWithin hk))
    | none => rfl

theorem byteSize_unwrapped (t : TypeTable) (k : TypeKey) :
    t.byteSize (t.unwrap k) = t.byteSize k := by
  rw [byteSize, byteSize, size?_unwrapped]

theorem sizeWithin_enum {e : TypeEntry} (hk : k.kind = .enum) (he : t.entry? k = some e) (n : Nat) :
    t.sizeWithin (n + 1) k = t.sizeWithin n e.direct := by
  rw [sizeWithin]
  simp only [hk, he]

theorem Extends.unwrap_of_byteSize (h : t.Extends t') (hs : t.byteSize (t.unwrap k) ≠ 0) :
    t'.unwrap k = t.unwrap k := by
  obtain hu | hu := h.unwrapWithin maxChain k
  · exact hu
  · exact absurd (byteSize_of_sizeWithin (sizeWithin_of_dangling hu 0)) hs

/-- What lies behind a name of some size stays the same when the table grows. -/
theorem Extends.unwrapEnum_of_byteSize (h : t.Extends t') (hs : t.byteSize (t.unwrap k) ≠ 0) :
    t'.unwrapEnum k = t.unwrapEnum k := by
  rw [unwrapEnum, unwrapEnum, h.unwrap_of_byteSize hs]
  cases hk : (t.unwrap k).kind == .enum with
  | false => rfl
  | true =>
    rw [beq_iff_eq] at hk
    cases he : t.entry? (t.unwrap k) with
    | none =>
      refine absurd (byteSize_of_sizeWithin (n := 1) ?_) hs
      rw [sizeWithin]
      simp only [hk, he]
    | some e =>
      rw [direct_of_entry he, direct_of_entry (h he)]
      have hd : t'.unwrap e.direct = t.unwrap e.direct := by
        obtain hd | hd := h.unwrapWithin maxChain e.direct
        · exact hd
        · refine absurd (byteSize_of_sizeWithin (n := maxChain + 1 + 1) ?_) hs
          rw [sizeWithin_enum hk he]
          exact sizeWithin_of_unwrapWithin (sizeWithin_of_dangling hd 0)
      simp only [hd]

theorem Dangling.group (h : t.Dangling k) : k.kind.group = .other := by
  obtain ⟨hk, -⟩ := h
  cases hkind : k.kind with
  | basic b => simp [hkind, Kind.isTransparent] at hk
  | _ => first | rfl | simp [hkind, Kind.isTransparent] at hk

theorem Extends.unwrap_of_scalarGroup (h : t.Extends t') (hg : t.scalarGroup k ≠ .other) :
    t'.unwrap k = t.unwrap k := by
  obtain hu | hu := h.unwrapWithin maxChain k
  · exact hu
  · have hk : ((t.unwrap k).kind == .enum) = false := by
      cases hkind : (t.unwrap k).kind with
      | enum =>
        have := hu.1
        rw [← unwrap, hkind] at this
        cases this
      | _ => rfl
    simp only [scalarGroup, unwrapEnum, hk] at hg
    exact absurd hu.group hg

theorem Extends.unwrapEnum_of_scalarGroup (h : t.Extends t') (hg : t.scalarGroup k ≠ .other) :
    t'.unwrapEnum k = t.unwrapEnum k := by
  have hu := h.unwrap_of_scalarGroup hg
  simp only [scalarGroup, unwrapEnum] at hg ⊢
  rw [hu]
  cases hk : (t.unwrap k).kind == .enum with
  | false => rfl
  | true =>
    simp only [hk, if_true] at hg ⊢
    cases he : t.entry? (t.unwrap k) with
    | none =>
      have hz : (t.direct (t.unwrap k)).isZero := by rw [direct, he]; rfl
      rw [beq_iff_eq] at hk
      simp only [hz, if_true, hk, Kind.group] at hg
      exact absurd rfl hg
    | some e =>
      rw [direct_of_entry he, direct_of_entry (h he)]
      rw [direct_of_entry he] at hg
      split
      · rfl
      · rename_i hz
        rw [if_neg hz] at hg
        obtain hd | hd := h.unwrapWithin maxChain e.direct
        · exact hd
        · exact absurd hd.group hg

theorem unwrapEnum_eq_self (hk : k.kind.isTransparent = false) (he : k.kind ≠ .enum) :
    t.unwrapEnum k = k := by
  rw [unwrapEnum, unwrap, unwrapWithin_of_not_transparent hk]
  simp only [beq_iff_eq, if_neg he]

theorem unwrapEnum_of_basic (h : k.kind = .basic b) : t.unwrapEnum k = k :=
  unwrapEnum_eq_self (by rw [h]; rfl) (by rw [h]; rintro ⟨⟩)

theorem kind_unwrapEnum (t : TypeTable) (h : k.kind = .basic b) :
    (t.unwrapEnum k).kind = .basic b := by
  rw [unwrapEnum_of_basic h]
  exact h

/-- Behind a name there is the type itself or an enumeration over it. -/
theorem unwrap_cases (t : TypeTable) (k : TypeKey) :
    t.unwrapEnum k = t.unwrap k ∨
      (t.unwrap k).kind = .enum ∧ ∃ e, t.entry? (t.unwrap k) = some e ∧
        t.unwrapEnum k = t.unwrap e.direct := by
  simp only [unwrapEnum]
  split
  · rename_i hk
    rw [beq_iff_eq] at hk
    split
    · exact .inl rfl
    · rename_i hz
      cases he : t.entry? (t.unwrap k) with
      | none =>
        rw [direct, he] at hz
        exact absurd rfl hz
      | some e =>
        rw [direct_of_entry he]
        exact .inr ⟨hk, e, rfl, rfl⟩
  · exact .inl rfl

theorem unwrapEnum_unwrap (h : t.scalarGroup k ≠ .other) :
    t.unwrapEnum (t.unwrap k) = t.unwrapEnum k := by
  have hi : t.unwrap (t.unwrap k) = t.unwrap k := by
    obtain hu | ⟨hk, -⟩ := unwrap_cases t k
    · have hn : (t.unwrap k).kind.isTransparent = false := by
        rw [scalarGroup, hu] at h
        cases hkind : (t.unwrap k).kind <;> simp_all [Kind.isTransparent, Kind.group]
      exact unwrapWithin_of_not_transparent hn _
    · exact unwrapWithin_of_not_transparent (by rw [hk]; rfl) _
  rw [unwrapEnum, unwrapEnum, hi]

theorem sizeWithin_unwrap (h : (t.unwrapEnum k).kind = .basic b) :
    t.sizeWithin (maxChain + 1 + 1) (t.unwrap k) = some b.size := by
  have hb {k : TypeKey} (h : k.kind = .basic b) : t.sizeWithin 1 k = some b.size := by
    rw [sizeWithin]
    simp only [h]
  obtain hu | ⟨hk, e, he, hu⟩ := unwrap_cases t k
  · rw [hu] at h
    exact sizeWithin_mono (by omega) (hb h)
  · rw [hu] at h
    rw [sizeWithin_enum hk he]
    exact sizeWithin_of_unwrapWithin (hb h)

theorem byteSize_unwrap (h : (t.unwrapEnum k).kind = .basic b) :
    t.byteSize (t.unwrap k) = b.size :=
  byteSize_of_sizeWithin (sizeWithin_unwrap h)

theorem byteSize_eq (h : (t.unwrapEnum k).kind = .basic b) : t.byteSize k = b.size :=
  byteSize_of_sizeWithin (sizeWithin_of_unwrapWithin (sizeWithin_unwrap h))

end TypeTable

end WatchExpr
