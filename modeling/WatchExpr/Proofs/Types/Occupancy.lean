import WatchExpr.Proofs.Types.Development

namespace WatchExpr

namespace TypeTable

variable {t t' t₁ t₂ t₃ : TypeTable} {ks ks' : List TypeKey} {k l : TypeKey} {n n' : Nat}

/-- The bytes of a type, counted without wrap-around. -/
inductive Occupies (t : TypeTable) : TypeKey → Nat → Prop
  | leaf {k : TypeKey} (h : t.sizeLink? k = none) : t.Occupies k (t.byteSize k).toNat
  | link {k d : TypeKey} {c : UInt64} {n : Nat} (h : t.sizeLink? k = some (c, d))
      (hd : t.Occupies d n) : t.Occupies k (c.toNat * n)

/-- The types that a type holds by value: itself, elements, and what an alias, a qualifier or a
forward declaration stands for. -/
inductive Holds (t : TypeTable) : TypeKey → TypeKey → Prop
  | self {k : TypeKey} : t.Holds k k
  | link {k d l : TypeKey} {c : UInt64} (h : t.sizeLink? k = some (c, d)) (hl : t.Holds d l) :
      t.Holds k l

theorem Occupies.unique (h : t.Occupies k n) (h' : t.Occupies k n') : n = n' := by
  induction h generalizing n' with
  | leaf h =>
    cases h' with
    | leaf h' => rfl
    | link h' hd =>
      rw [h] at h'
      cases h'
  | link h hd ih =>
    cases h' with
    | leaf h' =>
      rw [h] at h'
      cases h'
    | link h' hd' =>
      cases h.symm.trans h'
      rw [ih hd']

theorem Occupies.byteSize (h : t.Occupies k n) : t.byteSize k = UInt64.ofNat n := by
  suffices ∃ m, t.sizeWithin m k = some (UInt64.ofNat n) by
    obtain ⟨m, hm⟩ := this
    exact byteSize_of_sizeWithin hm
  induction h with
  | leaf h =>
    obtain ⟨v, hv⟩ := sizeWithin_succ_of_no_link h
    refine ⟨1, ?_⟩
    rw [byteSize_of_sizeWithin (hv 0), UInt64.ofNat_toNat]
    exact hv 0
  | link h hd ih =>
    obtain ⟨m, hm⟩ := ih
    refine ⟨m + 1, ?_⟩
    rw [sizeWithin_succ_of_link h, hm, Option.map_some, UInt64.ofNat_mul, UInt64.ofNat_toNat]

theorem exists_occupies {m : Nat} {v : UInt64} (h : t.sizeWithin m k = some v) :
    ∃ n, t.Occupies k n := by
  induction m generalizing k v with
  | zero => cases h
  | succ m ih =>
    cases hl : t.sizeLink? k with
    | none => exact ⟨_, .leaf hl⟩
    | some link =>
      obtain ⟨c, d⟩ := link
      rw [sizeWithin_succ_of_link hl] at h
      obtain ⟨w, hw, -⟩ := Option.map_eq_some_iff.1 h
      obtain ⟨n, hn⟩ := ih hw
      exact ⟨_, .link hl hn⟩

/-- A table after definitions, of which those of records have some keys. Keys are numbered in the
order of the definitions, and forward declarations were completed with records among these. -/
structure Renews (ks : List TypeKey) (t t' : TypeTable) : Prop where
  pointerSize : t'.pointerSize = t.pointerSize
  size_le : t.entries.size ≤ t'.entries.size
  entries : ∀ k e, t.entry? k = some e → ∃ d, t'.entry? k = some { e with direct := d } ∧
    (d = e.direct ∨ e.kind.isIncomplete ∧ d.kind.isRecord ∧ t.entries.size < d.id)
  keys : ∀ k ∈ ks, t.entries.size < k.id ∧ k.id ≤ t'.entries.size
  sorted : ks.Pairwise (·.id < ·.id)
  records : ∀ k e, t'.entry? k = some e → e.kind.isRecord → t.entries.size < k.id →
    ∃ l ∈ ks, l.id = k.id

theorem has_of_entry {e : TypeEntry} (h : t.entry? k = some e) : k.id ≠ 0 ∧ t.Has k := by
  obtain ⟨hid, he⟩ := entry?_eq_some.1 h
  obtain ⟨hlt, -⟩ := Array.getElem?_eq_some_iff.1 he
  rw [Has]
  exact ⟨hid, by omega⟩

theorem exists_entry? (hid : k.id ≠ 0) (hk : t.Has k) : ∃ e, t.entry? k = some e := by
  rw [Has] at hk
  exact ⟨_, entry?_eq_some.2 ⟨hid, Array.getElem?_eq_getElem (by omega)⟩⟩

theorem Renews.refl (t : TypeTable) : t.Renews [] t where
  pointerSize := rfl
  size_le := Nat.le_refl _
  entries _ e he := ⟨e.direct, he, .inl rfl⟩
  keys := List.forall_mem_nil _
  sorted := .nil
  records _ _ he _ hlt := absurd (has_of_entry he).2 (Nat.not_le_of_lt hlt)

theorem Renews.trans (h : t₁.Renews ks t₂) (h' : t₂.Renews ks' t₃) :
    t₁.Renews (ks ++ ks') t₃ where
  pointerSize := h'.pointerSize.trans h.pointerSize
  size_le := Nat.le_trans h.size_le h'.size_le
  entries k e he := by
    obtain ⟨d, he₂, hd⟩ := h.entries k e he
    obtain ⟨d', he₃, hd'⟩ := h'.entries k _ he₂
    refine ⟨d', he₃, ?_⟩
    obtain rfl | ⟨hi, hrecord, hlate⟩ := hd'
    · exact hd
    · exact .inr ⟨hi, hrecord, Nat.lt_of_le_of_lt h.size_le hlate⟩
  keys := by
    intro k hk
    obtain hk | hk := List.mem_append.1 hk
    · obtain ⟨hlt, hle⟩ := h.keys k hk
      exact ⟨hlt, Nat.le_trans hle h'.size_le⟩
    · obtain ⟨hlt, hle⟩ := h'.keys k hk
      exact ⟨Nat.lt_of_le_of_lt h.size_le hlt, hle⟩
  sorted := by
    refine List.pairwise_append.2 ⟨h.sorted, h'.sorted, ?_⟩
    intro k hk l hl
    exact Nat.lt_of_le_of_lt (h.keys k hk).2 (h'.keys l hl).1
  records := by
    intro k e he hrecord hlt
    by_cases hk : t₂.entries.size < k.id
    · obtain ⟨l, hl, hid⟩ := h'.records k e he hrecord hk
      exact ⟨l, List.mem_append_right _ hl, hid⟩
    · obtain ⟨e₂, he₂⟩ := exists_entry? (has_of_entry he).1 (Nat.le_of_not_lt hk)
      obtain ⟨d, he₃, -⟩ := h'.entries k e₂ he₂
      cases he.symm.trans he₃
      obtain ⟨l, hl, hid⟩ := h.records k e₂ he₂ hrecord hlt
      exact ⟨l, List.mem_append_left _ hl, hid⟩

theorem Renews.push {e : TypeEntry} (h : t'.entries = t.entries.push e)
    (hp : t'.pointerSize = t.pointerSize) :
    t.Renews (if e.kind.isRecord then [⟨e.kind, t.entries.size + 1⟩] else []) t' where
  pointerSize := hp
  size_le := by
    rw [h, Array.size_push]
    exact Nat.le_succ _
  entries k e' he' := ⟨e'.direct, extends_of_push h he', .inl rfl⟩
  keys := by
    intro k hk
    split at hk
    · obtain rfl := List.mem_singleton.1 hk
      rw [h, Array.size_push]
      exact ⟨Nat.lt_succ_self _, Nat.le_refl _⟩
    · cases hk
  sorted := by
    split
    · exact List.pairwise_singleton _ _
    · exact .nil
  records := by
    intro k e' he' hrecord hlt
    obtain he' | ⟨hid, rfl⟩ := entry?_push_cases h he'
    · exact absurd (has_of_entry he').2 (Nat.not_le_of_lt hlt)
    · rw [if_pos hrecord]
      exact ⟨_, List.mem_singleton.2 rfl, hid.symm⟩

theorem pointerSize_add (t : TypeTable) (e : TypeEntry) :
    (t.add e).2.pointerSize = t.pointerSize := by
  simp only [add]
  split <;> rfl

theorem renews_add (t : TypeTable) {e : TypeEntry} (he : e.kind.isRecord = false) :
    t.Renews [] (t.add e).2 := by
  have h := Renews.push (t.entries_add e) (t.pointerSize_add e)
  rw [he] at h
  exact h

theorem renews_add_record (t : TypeTable) {e : TypeEntry} (he : e.kind.isRecord) :
    t.Renews [⟨e.kind, t.entries.size + 1⟩] (t.add e).2 := by
  have h := Renews.push (t.entries_add e) (t.pointerSize_add e)
  rw [if_pos he] at h
  exact h

theorem renews_pointer (t : TypeTable) (k : TypeKey) : t.Renews [] (t.pointer k).2 := by
  rw [pointer]
  split
  · exact .refl t
  · simp only [t.add_unnamed (e := { kind := .pointer, direct := k }) rfl]
    exact .push (e := { kind := .pointer, direct := k }) rfl rfl

theorem renews_array (t : TypeTable) (k : TypeKey) (count : UInt64) :
    t.Renews [] (t.array k count).2 := by
  rw [array]
  split
  · exact .refl t
  · simp only [t.add_unnamed (e := { kind := .array, direct := k, count }) rfl]
    exact .push (e := { kind := .array, direct := k, count }) rfl rfl

theorem renews_key (t : TypeTable) (e : TypeExpr) : t.Renews [] (e.key t).2 := by
  induction e with
  | named span name k => exact .refl t
  | pointer span elem ih =>
    simp only [TypeExpr.key]
    split
    · exact ih
    · exact ih.trans (renews_pointer _ _)
  | array span elem count ih =>
    simp only [TypeExpr.key]
    split
    · exact ih
    · exact ih.trans (renews_array _ _ _)

/-- A forward declaration is completed with a record that is defined among the definitions. -/
theorem Renews.complete (h : t.Renews ks t₁) {f : TypeKey} {e : TypeEntry}
    (he : t.entry? f = some e) (hi : e.kind.isIncomplete) (hk : k.kind.isRecord)
    (hlate : t.entries.size < k.id) (hc : t₁.complete f k = .ok t') : t.Renews ks t' := by
  have hentry := entry?_completed hc
  have hsame : t'.pointerSize = t₁.pointerSize ∧ t'.entries.size = t₁.entries.size := by
    obtain ⟨-, rfl⟩ := complete_eq_ok hc
    exact ⟨rfl, Array.size_modify⟩
  refine ⟨hsame.1.trans h.pointerSize, ?_, ?_, ?_, h.sorted, ?_⟩
  · rw [hsame.2]
    exact h.size_le
  · intro l e' he'
    obtain ⟨d, he₁, hd⟩ := h.entries l e' he'
    by_cases hl : l.id = f.id
    · rw [entry?_of_id hl, he] at he'
      cases he'
      refine ⟨k, ?_, .inr ⟨hi, hk, hlate⟩⟩
      rw [hentry, if_pos hl, he₁]
      rfl
    · refine ⟨d, ?_, hd⟩
      rw [hentry, if_neg hl, he₁]
  · rw [hsame.2]
    exact h.keys
  · intro l e' he' hrecord hlt
    rw [hentry] at he'
    split at he'
    · obtain ⟨e₁, he₁, rfl⟩ := Option.map_eq_some_iff.1 he'
      exact h.records l e₁ he₁ hrecord hlt
    · exact h.records l e' he' hrecord hlt

/-- A type keeps its entry, unless it is a forward declaration and now stands for a record that was
not there yet. -/
theorem Renews.entry?_cases (hr : t.Renews ks t') (hhas : t.Has k)
    (hkind : ∀ e, t.entry? k = some e → e.kind = k.kind) : t'.entry? k = t.entry? k ∨
    ∃ r, t'.sizeLink? k = some (1, r) ∧ r.kind.isRecord ∧ t.entries.size < r.id := by
  by_cases hid : k.id = 0
  · left
    rw [ TypeTable.entry?, TypeTable.entry?, if_pos hid, if_pos hid]
  obtain ⟨e, he⟩ := exists_entry? hid hhas
  obtain ⟨d, he', hd⟩ := hr.entries k e he
  obtain rfl | ⟨hi, hrecord, hlate⟩ := hd
  · left
    rw [he, he']
  · right
    rw [hkind e he] at hi
    refine ⟨d, ?_, hrecord, hlate⟩
    have hz := isZero_of_isRecord hrecord
    cases hk : k.kind with
    | incomplete f => simp [sizeLink?, hk, he', hz]
    | _ => simp [hk, Kind.isIncomplete] at hi

theorem sizeLink?_congr (h : t'.entry? k = t.entry? k) : t'.sizeLink? k = t.sizeLink? k := by
  simp only [sizeLink?, h]

theorem byteSize_leaf_congr (hp : t'.pointerSize = t.pointerSize)
    (h : t'.entry? k = t.entry? k) (hl : t.sizeLink? k = none) : t'.byteSize k = t.byteSize k := by
  obtain ⟨v, hv⟩ := sizeWithin_succ_of_no_link hl
  have hv' : t'.sizeWithin 1 k = some v := by
    rw [← hv 0]
    simp only [sizeWithin, h, hp]
  rw [byteSize_of_sizeWithin (hv 0), byteSize_of_sizeWithin hv']

end TypeTable

end WatchExpr
