import Mathlib.Data.Fintype.Card
import WatchExpr.Types.Relations

namespace WatchExpr

namespace TypeTable

variable {t : TypeTable} {k d : TypeKey} {e : TypeEntry} {n : Nat} {v c : UInt64}

def sizeLink? (t : TypeTable) (k : TypeKey) : Option (UInt64 × TypeKey) :=
  match k.kind with
  | .array => (t.entry? k).map fun e => (e.count, e.direct)
  | .enum | .typedef | .modifier => (t.entry? k).map fun e => (1, e.direct)
  | .incomplete _ => ((t.entry? k).filter fun e => !e.direct.isZero).map fun e => (1, e.direct)
  | _ => none

theorem isZero_of_isRecord (h : k.kind.isRecord) : k.isZero = false := by
  rw [TypeKey.isZero]
  cases hk : k.kind <;> simp_all [Kind.isRecord]

theorem direct_of_sizeLink? (h : t.sizeLink? k = some (c, d)) :
    ∃ e, t.entry? k = some e ∧ e.direct = d := by
  have hm {o : Option TypeEntry} {f : TypeEntry → UInt64}
      (h : (o.map fun e => (f e, e.direct)) = some (c, d)) : ∃ e, o = some e ∧ e.direct = d := by
    obtain ⟨e, he, h⟩ := Option.map_eq_some_iff.1 h
    exact ⟨e, he, congrArg Prod.snd h⟩
  rw [sizeLink?] at h
  split at h
  · exact hm h
  · exact hm h
  · exact hm h
  · exact hm h
  · obtain ⟨e, he, hd⟩ := hm h
    exact ⟨e, (Option.filter_eq_some_iff.1 he).1, hd⟩
  · cases h

theorem sizeWithin_succ_of_link (h : t.sizeLink? k = some (c, d)) :
    t.sizeWithin (n + 1) k = (t.sizeWithin n d).map (c * ·) := by
  have hone (o : Option UInt64) : o.map ((1 : UInt64) * ·) = o := by
    simp only [UInt64.one_mul, Option.map_id_fun', id]
  obtain ⟨e, he, rfl⟩ := direct_of_sizeLink? h
  rw [sizeLink?] at h
  rw [sizeWithin]
  split at h
  · rename_i hk
    simp only [he, Option.map_some, Option.some.injEq, Prod.mk.injEq, and_true] at h
    simp only [hk, he, h]
  · rename_i hk
    simp only [he, Option.map_some, Option.some.injEq, Prod.mk.injEq, and_true] at h
    simp only [hk, he, ← h, hone]
  · rename_i hk
    simp only [he, Option.map_some, Option.some.injEq, Prod.mk.injEq, and_true] at h
    simp only [hk, he, ← h, hone]
  · rename_i hk
    simp only [he, Option.map_some, Option.some.injEq, Prod.mk.injEq, and_true] at h
    simp only [hk, he, ← h, hone]
  · rename_i hk
    obtain ⟨e', he', h⟩ := Option.map_eq_some_iff.1 h
    obtain ⟨he', hz⟩ := Option.filter_eq_some_iff.1 he'
    cases he.symm.trans he'
    simp only [Prod.mk.injEq, and_true] at h
    simp only [hk, he, ← h, hone]
    rw [if_neg (by simpa using hz)]
  · cases h

theorem sizeWithin_succ_of_no_link (h : t.sizeLink? k = none) :
    ∃ v, ∀ n, t.sizeWithin (n + 1) k = some v := by
  rw [sizeLink?] at h
  simp only [sizeWithin]
  split at h
  · rename_i hk
    simp only [hk, Option.map_eq_none_iff.1 h]
    exact ⟨0, fun _ => rfl⟩
  · rename_i hk
    simp only [hk, Option.map_eq_none_iff.1 h]
    exact ⟨0, fun _ => rfl⟩
  · rename_i hk
    simp only [hk, Option.map_eq_none_iff.1 h]
    exact ⟨0, fun _ => rfl⟩
  · rename_i hk
    simp only [hk, Option.map_eq_none_iff.1 h]
    exact ⟨0, fun _ => rfl⟩
  · rename_i hk
    simp only [hk]
    cases he : t.entry? k with
    | none => exact ⟨0, fun _ => rfl⟩
    | some e =>
      have hz : e.direct.isZero := by simpa [he] using h
      simp only [hz, if_true]
      exact ⟨0, fun _ => rfl⟩
  · split <;> first | exact ⟨_, fun _ => rfl⟩ | simp_all

theorem sizeWithin_succ (h : t.sizeWithin n k = some v) : t.sizeWithin (n + 1) k = some v := by
  induction n generalizing k v with
  | zero => cases h
  | succ n ih =>
    cases hl : t.sizeLink? k with
    | none =>
      obtain ⟨w, hw⟩ := sizeWithin_succ_of_no_link hl
      rw [hw] at h ⊢
      exact h
    | some l =>
      obtain ⟨c, d⟩ := l
      rw [sizeWithin_succ_of_link hl] at h ⊢
      obtain ⟨w, hw, rfl⟩ := Option.map_eq_some_iff.1 h
      rw [ih hw, Option.map_some]

theorem sizeWithin_mono {m : Nat} (hm : n ≤ m) (h : t.sizeWithin n k = some v) :
    t.sizeWithin m k = some v := by
  induction hm with
  | refl => exact h
  | step _ ih => exact sizeWithin_succ ih

/-- The number of links after which a size is found. -/
def SettlesAt (t : TypeTable) (n : Nat) (k : TypeKey) : Prop :=
  (∃ v, t.sizeWithin n k = some v) ∧ ∀ m < n, t.sizeWithin m k = none

theorem SettlesAt.unique {m : Nat} (hn : t.SettlesAt n k) (hm : t.SettlesAt m k) : n = m := by
  obtain ⟨⟨v, hv⟩, hn⟩ := hn
  obtain ⟨⟨w, hw⟩, hm⟩ := hm
  rcases Nat.lt_trichotomy n m with h | h | h
  · rw [hm n h] at hv
    cases hv
  · exact h
  · rw [hn m h] at hw
    cases hw

/-- Each shorter chain is the tail of a longer one, and starts at what some entry refers to. -/
theorem SettlesAt.exists_entry (h : t.SettlesAt (n + 1) k) {j : Nat} (h0 : 0 < j) (hj : j ≤ n) :
    ∃ i : Fin t.entries.size, t.SettlesAt j (t.entries[i]).direct := by
  induction n generalizing k with
  | zero => omega
  | succ n ih =>
    obtain ⟨⟨v, hv⟩, hm⟩ := h
    cases hl : t.sizeLink? k with
    | none =>
      obtain ⟨w, hw⟩ := sizeWithin_succ_of_no_link hl
      have := hm 1 (by omega)
      rw [hw 0] at this
      cases this
    | some l =>
      obtain ⟨c, d⟩ := l
      have hd : t.SettlesAt (n + 1) d := by
        rw [sizeWithin_succ_of_link hl] at hv
        obtain ⟨w, hw, -⟩ := Option.map_eq_some_iff.1 hv
        refine ⟨⟨w, hw⟩, ?_⟩
        intro m hmn
        have := hm (m + 1) (by omega)
        rw [sizeWithin_succ_of_link hl] at this
        exact Option.map_eq_none_iff.1 this
      by_cases hjn : j = n + 1
      · subst hjn
        obtain ⟨e, he, rfl⟩ := direct_of_sizeLink? hl
        obtain ⟨-, he⟩ := entry?_eq_some.1 he
        obtain ⟨hi, rfl⟩ := Array.getElem?_eq_some_iff.1 he
        exact ⟨⟨_, hi⟩, hd⟩
      · exact ih hd (by omega)

/-- A chain that ends has no more links than the table has entries. -/
theorem SettlesAt.le_size (h : t.SettlesAt (n + 1) k) : n ≤ t.entries.size := by
  have hex (j : Fin n) : ∃ i : Fin t.entries.size, t.SettlesAt (j + 1) (t.entries[i]).direct :=
    h.exists_entry (Nat.succ_pos _) j.2
  choose f hf using hex
  have hinj : Function.Injective f := by
    intro a b hab
    have hb := hf b
    rw [← hab] at hb
    have := (hf a).unique hb
    exact Fin.ext (by omega)
  simpa using Fintype.card_le_of_injective f hinj

theorem size?_of_sizeWithin (h : t.sizeWithin n k = some v) : t.size? k = some v := by
  have hex : ∃ n, (t.sizeWithin n k).isSome := ⟨n, by rw [h]; rfl⟩
  have hs : t.SettlesAt (Nat.find hex) k := by
    refine ⟨Option.isSome_iff_exists.1 (Nat.find_spec hex), ?_⟩
    intro m hm
    simpa using Nat.find_min hex hm
  obtain ⟨⟨w, hw⟩, -⟩ := id hs
  have hle : Nat.find hex ≤ n := Nat.find_min' hex (by rw [h]; rfl)
  cases (sizeWithin_mono hle hw).symm.trans h
  refine sizeWithin_mono ?_ hw
  cases hf : Nat.find hex with
  | zero => omega
  | succ m =>
    rw [hf] at hs
    have := hs.le_size
    omega

theorem byteSize_of_sizeWithin (h : t.sizeWithin n k = some v) : t.byteSize k = v := by
  rw [byteSize, size?_of_sizeWithin h, Option.getD_some]

theorem byteSize_basic {b : BasicKind} (h : k.kind = .basic b) : t.byteSize k = b.size := by
  apply byteSize_of_sizeWithin (n := 1)
  rw [sizeWithin]
  simp only [h]

end TypeTable

end WatchExpr
