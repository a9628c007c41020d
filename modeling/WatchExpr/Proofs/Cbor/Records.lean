import Mathlib.Data.List.Nodup
import WatchExpr.Cbor.Record
import WatchExpr.Proofs.Cbor.RoundTrip
import WatchExpr.Proofs.Wire.Records

namespace WatchExpr.Cbor

open RecordField (Values)

namespace Item

theorem toText_ofText {t : Text} (h : Utf8.isValid t) : (ofText t).toText = .ok t := by
  simp [toText, scalar, content, untag, ofText, h, bind, Except.bind, pure, Except.pure]

theorem toByte_unsigned (b : UInt8) : (unsigned b.toUInt64).toByte = .ok b := by
  have hb := b.toNat_lt
  have hnumber : (unsigned b.toUInt64).toNumber "uint8" 0 255 = .ok (b.toNat : Int) := by
    change (if (0 : Int) ≤ (b.toUInt64.toNat : Int) ∧ (b.toUInt64.toNat : Int) ≤ 255 then _
      else _) = _
    rw [UInt8.toNat_toUInt64, if_pos (by omega)]
    rfl
  rw [toByte, hnumber]
  have hofInt : UInt8.ofInt (b.toNat : Int) = b := by
    apply UInt8.toNat_inj.1
    simp [UInt8.ofInt]
    omega
  exact congrArg Except.ok hofInt

theorem toBlock_bytes {b : List UInt8} {size : Nat} (h : b.length = size) :
    (bytes b).toBlock size = .ok b := by
  simp [toBlock, toBytesWithin?, content, untag, ← h, bind, Except.bind, pure, Except.pure]

variable {t : FieldType} {x : FieldItem} {v : t.Value}

theorem toField_ofField (h : t.Reads x v) : (ofField x).toField t = .ok v := by
  cases h with
  | byte b => exact toByte_unsigned b
  | block h => exact toBlock_bytes h
  | text h => exact toText_ofText h
  | bytes => rfl
  | null => rfl
  | flag b => cases b <;> rfl

theorem storable_ofField (h : t.Reads x v) (ha : t.Admits v) : (ofField x).Storable 1 := by
  cases h with
  | byte b => exact .unsigned _
  | block h => exact .bytes (h ▸ ha.2)
  | text => exact .text ha
  | bytes => exact .bytes ha
  | null => exact .simple (by decide)
  | flag b => cases b <;> exact .simple (by decide)

/-- The values of fields after the items have been read over other values. -/
def FillsOver (items : List (Nat × FieldItem)) :
    (fs : List RecordField) → Values fs → Values fs → Prop
  | [], _, _ => True
  | f :: fs, (w, ws), (v, vs) =>
    (f.number ∉ items.map Prod.fst ∧ v = w ∨ ∃ x, (f.number, x) ∈ items ∧ f.type.Reads x v) ∧
      FillsOver items fs ws vs

variable {items : List (Nat × FieldItem)} {fs : List RecordField} {n : Nat}

theorem fillsOver_zeros {vs : Values fs} (h : RecordField.All (RecordField.Fills items) fs vs) :
    FillsOver items fs (RecordField.zeros fs) vs := by
  induction fs with
  | nil => trivial
  | cons f fs ih => exact ⟨h.1, ih h.2⟩

theorem fillsOver_nil {ws vs : Values fs} (h : FillsOver [] fs ws vs) : ws = vs := by
  induction fs with
  | nil => rfl
  | cons f fs ih =>
    obtain ⟨⟨-, hv⟩ | ⟨x, hx, -⟩, hrest⟩ := h
    · exact Prod.ext hv.symm (ih hrest)
    · cases hx

theorem FillsOver.tail {ws vs : Values fs} (h : FillsOver ((n, x) :: items) fs ws vs)
    (hn : n ∉ fs.map (·.number)) : FillsOver items fs ws vs := by
  induction fs with
  | nil => trivial
  | cons f fs ih =>
    rw [List.map_cons, List.mem_cons, not_or] at hn
    refine ⟨?_, ih h.2 hn.2⟩
    obtain ⟨hnot, hv⟩ | ⟨y, hy, hv⟩ := h.1
    · exact .inl ⟨fun hm => hnot (List.mem_cons_of_mem _ hm), hv⟩
    · obtain hy | hy := List.mem_cons.1 hy
      · exact absurd (congrArg Prod.fst hy).symm hn.1
      · exact .inr ⟨y, hy, hv⟩

/-- The field of an item takes its value; the other fields are left to the items that follow. -/
theorem setField_fills {ws vs : Values fs} (hnodup : (fs.map (·.number)).Nodup)
    (hn : n ∉ items.map Prod.fst) (h : FillsOver ((n, x) :: items) fs ws vs) :
    ∃ ws', (ofField x).setField n fs ws = .ok ws' ∧ FillsOver items fs ws' vs := by
  induction fs with
  | nil => exact ⟨(), rfl, trivial⟩
  | cons f fs ih =>
    obtain ⟨w, ws⟩ := ws
    obtain ⟨hnew, hnodup⟩ := List.nodup_cons.1 hnodup
    rw [setField]
    split
    · rename_i hf
      obtain ⟨hnot, -⟩ | ⟨y, hy, hv⟩ := h.1
      · exact absurd (by simp [hf]) hnot
      · obtain hy | hy := List.mem_cons.1 hy
        · cases (congrArg Prod.snd hy : y = x)
          refine ⟨(vs.1, ws), ?_, .inl ⟨hf ▸ hn, rfl⟩, h.2.tail (hf ▸ hnew)⟩
          rw [toField_ofField hv]
          rfl
        · exact absurd (hf ▸ List.mem_map_of_mem hy) hn
    · rename_i hf
      obtain ⟨ws', hset, hfills⟩ := ih hnodup h.2
      refine ⟨(w, ws'), by rw [hset]; rfl, ?_, hfills⟩
      obtain ⟨hnot, hv⟩ | ⟨y, hy, hv⟩ := h.1
      · exact .inl ⟨fun hm => hnot (List.mem_cons_of_mem _ hm), hv⟩
      · obtain hy | hy := List.mem_cons.1 hy
        · exact absurd (congrArg Prod.fst hy) hf
        · exact .inr ⟨y, hy, hv⟩

theorem fill_items (record : Text) {seen : List Nat} {ws vs : Values fs}
    (hnodup : (fs.map (·.number)).Nodup) (hitems : (items.map Prod.fst).Nodup)
    (hnew : ∀ n ∈ items.map Prod.fst, n < 2 ^ 64 ∧ n ∉ seen) (h : FillsOver items fs ws vs) :
    fill record (fun n x => x.setField n fs) seen
      (items.map fun (n, x) => (.unsigned n.toUInt64, .ofField x)) ws = .ok vs := by
  induction items generalizing seen ws with
  | nil => exact congrArg Except.ok (fillsOver_nil h)
  | cons e items ih =>
    obtain ⟨n, x⟩ := e
    obtain ⟨hdistinct, hitems⟩ := List.nodup_cons.1 hitems
    obtain ⟨⟨hn, hseen⟩, hrest⟩ := List.forall_mem_cons.1 hnew
    obtain ⟨ws', hset, hfills⟩ := setField_fills hnodup hdistinct h
    have hnat : n.toUInt64.toNat = n := by
      rw [Nat.toUInt64_eq, UInt64.toNat_ofNat', Nat.mod_eq_of_lt hn]
    have hmore : ∀ k ∈ items.map Prod.fst, k < 2 ^ 64 ∧ k ∉ n :: seen := by
      intro k hk
      refine ⟨(hrest k hk).1, List.not_mem_cons_of_ne_of_not_mem ?_ (hrest k hk).2⟩
      rintro rfl
      exact hdistinct hk
    rw [List.map_cons, fill]
    simp only [fieldNumber?, hnat, bind, Except.bind, pure, Except.pure, List.contains_eq_mem,
      decide_eq_true_eq]
    rw [if_neg hseen, hset]
    exact ih hitems hmore hfills

theorem storable_ofItems {vs : Values fs} (hlen : fs.length ≤ maxElements)
    (hsub : (items.map Prod.fst).Sublist (fs.map (·.number))) (hitems : (items.map Prod.fst).Nodup)
    (hadmits : RecordField.All (fun f => f.type.Admits) fs vs)
    (h : RecordField.All (RecordField.Fills items) fs vs) : (ofItems items).Storable 0 := by
  have hx : ∀ n ∈ fs.map (·.number), ∀ x, (n, x) ∈ items → (ofField x).Storable 1 := by
    clear hlen hsub
    induction fs with
    | nil => simp
    | cons f fs ih =>
      intro n hn x hx
      obtain rfl | hn := List.mem_cons.1 hn
      · obtain ⟨hnot, -⟩ | ⟨y, hy, hv⟩ := h.1
        · exact absurd (List.mem_map_of_mem hx) hnot
        · obtain rfl : x = y := by
            have hinj := List.inj_on_of_nodup_map hitems hx hy rfl
            exact congrArg Prod.snd hinj
          exact storable_ofField hv hadmits.1
      · exact ih hadmits.2 h.2 n hn x hx
  have hn : items.length ≤ maxElements := by
    have := hsub.length_le
    simp only [List.length_map] at this
    exact Nat.le_trans this hlen
  refine .map (by decide) (by simpa using hn) ?_ ?_
  · intro e he
    obtain ⟨i, -, rfl⟩ := List.mem_map.1 he
    exact .unsigned _
  · intro e he
    obtain ⟨⟨n, x⟩, hi, rfl⟩ := List.mem_map.1 he
    exact hx n (hsub.subset (List.mem_map_of_mem hi)) x hi

end Item

theorem canonical_recordCoder {r : RecordType} (hlen : r.fields.length ≤ maxElements)
    (hnodup : (r.fields.map (·.number)).Nodup) (hsmall : ∀ f ∈ r.fields, f.number < 2 ^ 64) :
    recordCoder.Canonical r fun items => (Item.ofItems items).write where
  marshal_eq _ _ := rfl
  unmarshal_eq items vs hsub hadmits h := by
    have hitems := hnodup.sublist hsub
    have hnew : ∀ n ∈ items.map Prod.fst, n < 2 ^ 64 ∧ n ∉ ([] : List Nat) := by
      intro n hn
      obtain ⟨f, hf, rfl⟩ := List.mem_map.1 (hsub.subset hn)
      exact ⟨hsmall f hf, List.not_mem_nil⟩
    have hread := read_written (Item.storable_ofItems hlen hsub hitems hadmits h)
    have hfill := Item.fill_items r.name hnodup hitems hnew (Item.fillsOver_zeros h)
    simp only [recordCoder, hread, bind, Except.bind]
    change Except.mapError _ (Item.fill _ _ _ _ _) = _
    rw [hfill]
    rfl

end WatchExpr.Cbor
