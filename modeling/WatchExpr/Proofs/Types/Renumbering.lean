import WatchExpr.Proofs.Types.History

namespace WatchExpr

namespace TypeTable

variable {t t' t₁ t₂ t₃ : TypeTable} {k k' l l' p : TypeKey} {n : UInt64}

/-- A table after some pointers and arrays were asked for. -/
inductive Interning (t : TypeTable) : TypeTable → Prop
  | refl : Interning t t
  | pointer {t' : TypeTable} (h : Interning t t') (k : TypeKey) : Interning t (t'.pointer k).2
  | array {t' : TypeTable} (h : Interning t t') (k : TypeKey) (n : UInt64) :
      Interning t (t'.array k n).2

namespace Interning

theorem trans (h : t₁.Interning t₂) (h' : t₂.Interning t₃) : t₁.Interning t₃ := by
  induction h' with
  | refl => exact h
  | pointer _ k ih => exact ih.pointer k
  | array _ k n ih => exact ih.array k n

theorem grows (h : t.Interning t') : t.Grows t' := by
  induction h with
  | refl => exact .refl t
  | pointer _ k ih => exact ih.trans (grows_pointer _ k)
  | array _ k n ih => exact ih.trans (grows_array _ k n)

theorem interned (h : t.Interning t') (hi : t.Interned) : t'.Interned := by
  induction h with
  | refl => exact hi
  | @pointer t' _ k ih =>
    refine ih.effect (t'.effect_perform (.pointer k)) fun k' e he _ => ?_
    exact (grows_pointer t' k).entries he
  | @array t' _ k n ih =>
    refine ih.effect (t'.effect_perform (.array k n)) fun k' e he _ => ?_
    exact (grows_array t' k n).entries he

theorem pointer_of_has (h : t.Interning t') (hp : t'.pointers.lookup k = some p) (ht : t.Has p) :
    t.pointers.lookup k = some p := by
  induction h with
  | refl => exact hp
  | @pointer t' h' k' ih =>
    have hs : t.entries.size ≤ t'.entries.size := h'.grows.size_le
    rw [TypeTable.pointer] at hp
    split at hp
    · exact ih hp
    · simp only [t'.add_unnamed (e := { kind := .pointer, direct := k' }) rfl] at hp
      obtain ⟨-, rfl⟩ | hp := lookup_cons_cases hp
      · exact absurd (Nat.le_trans ht hs) (Nat.not_succ_le_self _)
      · exact ih hp
  | @array t' h' k' n ih =>
    rw [TypeTable.array] at hp
    split at hp
    · exact ih hp
    · simp only [t'.add_unnamed (e := { kind := .array, direct := k', count := n }) rfl] at hp
      exact ih hp

theorem array_of_has (h : t.Interning t') (hp : t'.arrays.lookup (k, n) = some p) (ht : t.Has p) :
    t.arrays.lookup (k, n) = some p := by
  induction h with
  | refl => exact hp
  | @pointer t' h' k' ih =>
    rw [TypeTable.pointer] at hp
    split at hp
    · exact ih hp
    · simp only [t'.add_unnamed (e := { kind := .pointer, direct := k' }) rfl] at hp
      exact ih hp
  | @array t' h' k' n' ih =>
    have hs : t.entries.size ≤ t'.entries.size := h'.grows.size_le
    rw [TypeTable.array] at hp
    split at hp
    · exact ih hp
    · simp only [t'.add_unnamed (e := { kind := .array, direct := k', count := n' }) rfl] at hp
      obtain ⟨-, rfl⟩ | hp := lookup_cons_cases hp
      · exact absurd (Nat.le_trans ht hs) (Nat.not_succ_le_self _)
      · exact ih hp

end Interning

theorem Interned.direct_pointer (h : t.Interned) (hp : t.pointers.lookup k = some p) :
    t.direct p = k := by
  obtain ⟨e, he, -, hd⟩ := h.pointer hp
  rw [direct_of_entry he, hd]

theorem Interned.direct_array (h : t.Interned) (hp : t.arrays.lookup (k, n) = some p) :
    t.direct p = k := by
  obtain ⟨e, he, -, hd, -⟩ := h.array hp
  rw [direct_of_entry he, hd]

theorem Interned.count_array (h : t.Interned) (hp : t.arrays.lookup (k, n) = some p) :
    t.count p = n := by
  obtain ⟨e, he, -, -, hn⟩ := h.array hp
  rw [count, he]
  exact hn

theorem kind_of_pointers (hp : t.pointers.lookup k = some p) : p.kind = .pointer :=
  t.pointers_kind _ (mem_of_lookup hp)

theorem kind_of_arrays (hp : t.arrays.lookup (k, n) = some p) : p.kind = .array :=
  t.arrays_kind _ (mem_of_lookup hp)

/-- The same type in two tables that have grown from one: a type of that table, or an interned type
over such, whatever its number. -/
inductive Alike (t u u' : TypeTable) : TypeKey → TypeKey → Prop
  | same {k : TypeKey} (hk : t.Has k) : Alike t u u' k k
  | pointer {k k' p p' : TypeKey} (h : Alike t u u' k k') (hp : u.pointers.lookup k = some p)
      (hp' : u'.pointers.lookup k' = some p') : Alike t u u' p p'
  | array {k k' p p' : TypeKey} {n : UInt64} (h : Alike t u u' k k')
      (hp : u.arrays.lookup (k, n) = some p) (hp' : u'.arrays.lookup (k', n) = some p') :
      Alike t u u' p p'

/-- Two tables that have grown from one closed table. -/
structure Siblings (t u u' : TypeTable) : Prop where
  closed : t.Closed
  interned : t.Interned
  left : t.Interning u
  right : t.Interning u'

theorem Siblings.symm {u u' : TypeTable} (w : t.Siblings u u') : t.Siblings u' u :=
  ⟨w.closed, w.interned, w.right, w.left⟩

theorem Siblings.interning {u u' v v' : TypeTable} (w : t.Siblings u u') (hv : u.Interning v)
    (hv' : u'.Interning v') : t.Siblings v v' :=
  ⟨w.closed, w.interned, w.left.trans hv, w.right.trans hv'⟩

theorem Siblings.interned_left {u u' : TypeTable} (w : t.Siblings u u') : u.Interned :=
  w.left.interned w.interned

theorem Siblings.interned_right {u u' : TypeTable} (w : t.Siblings u u') : u'.Interned :=
  w.right.interned w.interned

namespace Alike

variable {u u' v v' : TypeTable} {k'' : TypeKey}

theorem symm (h : Alike t u u' k k') : Alike t u' u k' k := by
  induction h with
  | same hk => exact .same hk
  | pointer _ hp hp' ih => exact .pointer ih hp' hp
  | array _ hp hp' ih => exact .array ih hp' hp

theorem mono (h : Alike t u u' k k') (hv : u.Grows v) (hv' : u'.Grows v') :
    Alike t v v' k k' := by
  induction h with
  | same hk => exact .same hk
  | pointer _ hp hp' ih => exact .pointer ih (hv.pointers _ _ hp) (hv'.pointers _ _ hp')
  | array _ hp hp' ih => exact .array ih (hv.arrays _ _ hp) (hv'.arrays _ _ hp')

theorem kind_eq (h : Alike t u u' k k') : k'.kind = k.kind := by
  cases h with
  | same => rfl
  | pointer _ hp hp' => rw [kind_of_pointers hp, kind_of_pointers hp']
  | array _ hp hp' => rw [kind_of_arrays hp, kind_of_arrays hp']

theorem isZero_eq (h : Alike t u u' k k') : k'.isZero = k.isZero := by
  rw [TypeKey.isZero, TypeKey.isZero, h.kind_eq]

theorem eq_of_kind (h : Alike t u u' k k') (hp : k.kind ≠ .pointer) (ha : k.kind ≠ .array) :
    k' = k ∧ t.Has k := by
  cases h with
  | same hk => exact ⟨rfl, hk⟩
  | pointer _ hl => exact absurd (kind_of_pointers hl) hp
  | array _ hl => exact absurd (kind_of_arrays hl) ha

theorem basic {b : BasicKind} : Alike t u u' (.basic b) (.basic b) := .same has_basic

theorem zero : Alike t u u' .zero .zero := .same (Nat.zero_le _)

theorem group_eq (h : Alike t u u' k k') : k'.group = k.group := by
  rw [TypeKey.group, TypeKey.group, h.kind_eq]

theorem promote (h : Alike t u u' k k') : Alike t u u' k.promote k'.promote := by
  rw [TypeKey.promote, TypeKey.promote, h.kind_eq]
  split
  all_goals first | exact h | exact basic

section Queries
variable (w : t.Siblings u u')
include w

/-- The types of the table that both have grown from keep their numbers. -/
theorem eq_of_has (h : Alike t u u' k k') (hk : t.Has k) : k' = k := by
  induction h with
  | same => rfl
  | @pointer k k' p p' _ hp hp' ih =>
    have hp := w.left.pointer_of_has hp hk
    obtain ⟨e, he, -, rfl⟩ := w.interned.pointer hp
    rw [ih (w.closed.has_link he (by simp [TypeEntry.links])), w.right.grows.pointers _ _ hp] at hp'
    exact (Option.some.inj hp').symm
  | @array k k' p p' n _ hp hp' ih =>
    have hp := w.left.array_of_has hp hk
    obtain ⟨e, he, -, rfl, -⟩ := w.interned.array hp
    rw [ih (w.closed.has_link he (by simp [TypeEntry.links])), w.right.grows.arrays _ _ hp] at hp'
    exact (Option.some.inj hp').symm

theorem unique (h : Alike t u u' k k') (h' : Alike t u u' k k'') : k' = k'' := by
  induction h generalizing k'' with
  | same hk => exact (eq_of_has w h' hk).symm
  | @pointer k k' p p' h hp hp' ih =>
    cases h' with
    | same hk => exact eq_of_has w (.pointer h hp hp') hk
    | pointer h₂ hp₂ hp₂' =>
      have hd := w.interned_left.direct_pointer hp
      rw [w.interned_left.direct_pointer hp₂] at hd
      subst hd
      rw [ih h₂, hp₂'] at hp'
      exact (Option.some.inj hp').symm
    | array _ hp₂ =>
      have hk := kind_of_pointers hp
      rw [kind_of_arrays hp₂] at hk
      cases hk
  | @array k k' p p' n h hp hp' ih =>
    cases h' with
    | same hk => exact eq_of_has w (.array h hp hp') hk
    | pointer _ hp₂ =>
      have hk := kind_of_arrays hp
      rw [kind_of_pointers hp₂] at hk
      cases hk
    | @array _ _ _ _ n₂ h₂ hp₂ hp₂' =>
      have hd := w.interned_left.direct_array hp
      have hn := w.interned_left.count_array hp
      rw [w.interned_left.direct_array hp₂] at hd
      rw [w.interned_left.count_array hp₂] at hn
      subst hd hn
      rw [ih h₂, hp₂'] at hp'
      exact (Option.some.inj hp').symm

theorem eq_iff (h : Alike t u u' k k') (hl : Alike t u u' l l') : k' = l' ↔ k = l := by
  constructor
  · rintro rfl
    exact unique w.symm h.symm hl.symm
  · rintro rfl
    exact unique w h hl

theorem direct (h : Alike t u u' k k') : Alike t u u' (u.direct k) (u'.direct k') := by
  cases h with
  | same hk =>
    rw [w.left.grows.direct hk, w.right.grows.direct hk]
    exact .same (w.closed.has_direct k)
  | pointer h hp hp' =>
    rw [w.interned_left.direct_pointer hp, w.interned_right.direct_pointer hp']
    exact h
  | array h hp hp' =>
    rw [w.interned_left.direct_array hp, w.interned_right.direct_array hp']
    exact h

theorem count_eq (h : Alike t u u' k k') (ha : k.kind = .array) : u'.count k' = u.count k := by
  cases h with
  | same hk => rw [w.left.grows.count hk, w.right.grows.count hk]
  | pointer _ hp =>
    rw [kind_of_pointers hp] at ha
    cases ha
  | array _ hp hp' =>
    rw [w.interned_left.count_array hp, w.interned_right.count_array hp']

theorem unwrapWithin (h : Alike t u u' k k') (m : Nat) :
    Alike t u u' (u.unwrapWithin m k) (u'.unwrapWithin m k') := by
  induction m generalizing k k' with
  | zero => exact h
  | succ m ih =>
    have hd := direct w h
    simp only [TypeTable.unwrapWithin, h.kind_eq, hd.isZero_eq]
    split
    · split
      · exact h
      · exact ih hd
    · exact h

theorem unwrap (h : Alike t u u' k k') : Alike t u u' (u.unwrap k) (u'.unwrap k') :=
  unwrapWithin w h _

theorem unwrapEnum (h : Alike t u u' k k') : Alike t u u' (u.unwrapEnum k) (u'.unwrapEnum k') := by
  have hk := unwrap w h
  have hd := direct w hk
  simp only [TypeTable.unwrapEnum, hk.kind_eq, hd.isZero_eq]
  split
  · split
    · exact hk
    · exact unwrap w hd
  · exact hk

theorem pointee (h : Alike t u u' k k') : Alike t u u' (u.pointee k) (u'.pointee k') := by
  have hk := unwrap w h
  have hd := unwrap w (direct w hk)
  simp only [TypeTable.pointee, hk.kind_eq]
  split
  all_goals first | exact hd | exact zero

theorem sizeWithin (h : Alike t u u' k k') (m : Nat) : u'.sizeWithin m k' = u.sizeWithin m k := by
  induction m generalizing k k' with
  | zero => rfl
  | succ m ih =>
    cases h with
    | same hk => rw [w.left.grows.sizeWithin w.closed hk, w.right.grows.sizeWithin w.closed hk]
    | pointer _ hp hp' =>
      simp only [TypeTable.sizeWithin, kind_of_pointers hp, kind_of_pointers hp',
        w.left.grows.pointerSize, w.right.grows.pointerSize]
    | array h hp hp' =>
      obtain ⟨e, he, -, hd, hn⟩ := w.interned_left.array hp
      obtain ⟨e', he', -, hd', hn'⟩ := w.interned_right.array hp'
      simp only [TypeTable.sizeWithin, kind_of_arrays hp, kind_of_arrays hp', he, he', hd, hd', hn,
        hn', ih h]

theorem byteSize (h : Alike t u u' k k') : u'.byteSize k' = u.byteSize k := by
  -- The tables differ in size, but a chain of links ends in both or in neither.
  have hs : u'.size? k' = u.size? k := by
    cases hs : u.size? k with
    | some v =>
      rw [size?, ← sizeWithin w h] at hs
      exact size?_of_sizeWithin hs
    | none =>
      cases hs' : u'.size? k' with
      | none => rfl
      | some v =>
        rw [size?, sizeWithin w h] at hs'
        rw [size?_of_sizeWithin hs'] at hs
        cases hs
  rw [TypeTable.byteSize, TypeTable.byteSize, hs]

theorem matchWithin (hk : Alike t u u' k k') (hl : Alike t u u' l l') (m : Nat) :
    u'.matchWithin m k' l' = u.matchWithin m k l := by
  induction m generalizing k k' l l' with
  | zero => rfl
  | succ m ih =>
    have hk := unwrap w hk
    have hl := unwrap w hl
    have hd := ih (direct w hk) (direct w hl)
    simp only [TypeTable.matchWithin, eq_iff w hk hl, hk.kind_eq, hl.kind_eq]
    generalize u.unwrap k = k at hk hd ⊢
    generalize u'.unwrap k' = k' at hk hd ⊢
    generalize u.unwrap l = l at hl hd ⊢
    generalize u'.unwrap l' = l' at hl hd ⊢
    split
    · rfl
    split
    · rfl
    rename_i hkl
    rw [ne_eq, Decidable.not_not] at hkl
    by_cases hp : k.kind = .pointer
    · simp only [hp, hd]
    by_cases ha : k.kind = .array
    · simp only [ha, hd, count_eq w hk ha, count_eq w hl (hkl.symm.trans ha)]
    obtain ⟨rfl, hk⟩ := hk.eq_of_kind hp ha
    obtain ⟨rfl, hl⟩ := hl.eq_of_kind (hkl ▸ hp) (hkl ▸ ha)
    have howner := ih (.same (w.closed.has_owner k')) (.same (w.closed.has_owner l'))
    have hparams := all_zip_congr (t.params k') (t.params l')
      fun a b ha hb => ih (.same (w.closed.has_param ha)) (.same (w.closed.has_param hb))
    simp only [hd, w.left.grows.owner hk, w.left.grows.owner hl, w.right.grows.owner hk,
      w.right.grows.owner hl, w.left.grows.count hk, w.left.grows.count hl, w.right.grows.count hk,
      w.right.grows.count hl, w.left.grows.params hk, w.left.grows.params hl,
      w.right.grows.params hk, w.right.grows.params hl, howner, hparams]

theorem sameType (hk : Alike t u u' k k') (hl : Alike t u u' l l') :
    u'.sameType k' l' = u.sameType k l :=
  matchWithin w hk hl _

theorem coerce (hk : Alike t u u' k k') (hl : Alike t u u' l l') :
    Alike t u u' (u.coerce k l) (u'.coerce k' l') := by
  have hk := (unwrapEnum w hk).promote
  have hl := (unwrapEnum w hl).promote
  simp only [TypeTable.coerce, hk.kind_eq, hl.kind_eq, byteSize w hk, byteSize w hl, hk.group_eq,
    hl.group_eq]
  split
  · exact basic
  split
  · exact basic
  split
  · exact hk
  split
  · exact hl
  split
  · exact hl
  · exact hk

theorem scalarGroup (h : Alike t u u' k k') : u'.scalarGroup k' = u.scalarGroup k := by
  rw [TypeTable.scalarGroup, TypeTable.scalarGroup, (unwrapEnum w h).kind_eq]

theorem isPointer (h : Alike t u u' k k') : u'.isPointer k' = u.isPointer k := by
  rw [TypeTable.isPointer, TypeTable.isPointer, (unwrap w h).kind_eq]

theorem isArithmetic (h : Alike t u u' k k') : u'.isArithmetic k' = u.isArithmetic k := by
  rw [TypeTable.isArithmetic, TypeTable.isArithmetic, (unwrapEnum w h).kind_eq, scalarGroup w h]

theorem isAddressLike (h : Alike t u u' k k') : u'.isAddressLike k' = u.isAddressLike k := by
  rw [TypeTable.isAddressLike, TypeTable.isAddressLike, (unwrap w h).kind_eq]

theorem isPointerFloatCast (h : Alike t u u' k k') (hl : Alike t u u' l l') :
    u'.isPointerFloatCast k' l' = u.isPointerFloatCast k l := by
  rw [TypeTable.isPointerFloatCast, TypeTable.isPointerFloatCast, isAddressLike w h,
    isAddressLike w hl, scalarGroup w h, scalarGroup w hl]

theorem truncateTo (h : Alike t u u' k k') (n : Node) : u'.truncateTo n k' = u.truncateTo n k := by
  have hs := unwrapEnum w h
  simp only [TypeTable.truncateTo, hs.kind_eq, byteSize w hs]

theorem convert {r r' : Lowered} (hr : Alike t u u' r.type r'.type) (hn : r'.node = r.node)
    (h : Alike t u u' k k') : u'.convert r' k' = u.convert r k := by
  have hs := unwrapEnum w h
  have hrs := unwrapEnum w hr
  simp only [TypeTable.convert, scalarGroup w hr, scalarGroup w h, hn, hs.kind_eq, hrs.kind_eq,
    byteSize w hs, byteSize w hrs, truncateTo w hs]

theorem converted {r r' : Lowered} (hr : Alike t u u' r.type r'.type) (hn : r'.node = r.node)
    (h : Alike t u u' k k') : u'.converted r' k' = u.converted r k := by
  rw [TypeTable.converted, TypeTable.converted, convert w hr hn h]

theorem members (h : Alike t u u' k k') (hk : k.kind.isRecord) :
    u'.members k' = u.members k ∧ ∀ m ∈ u.members k, t.Has m.type := by
  obtain ⟨rfl, hk⟩ := h.eq_of_kind (by rintro h; rw [h] at hk; cases hk)
    (by rintro h; rw [h] at hk; cases hk)
  rw [w.left.grows.members hk, w.right.grows.members hk]
  exact ⟨rfl, fun m hm => w.closed.has_member hm⟩

end Queries

end Alike

section Asking
variable {u u' : TypeTable}

theorem interning_pointer (t : TypeTable) (k : TypeKey) : t.Interning (t.pointer k).2 :=
  Interning.refl.pointer k

theorem Alike.pointer_asked (h : Alike t u u' k k') :
    Alike t (u.pointer k).2 (u'.pointer k').2 (u.pointer k).1 (u'.pointer k').1 :=
  .pointer (h.mono (grows_pointer u k) (grows_pointer u' k')) (u.lookup_pointer k)
    (u'.lookup_pointer k')

theorem Alike.array_asked (h : Alike t u u' k k') (n : UInt64) :
    Alike t (u.array k n).2 (u'.array k' n).2 (u.array k n).1 (u'.array k' n).1 :=
  .array (h.mono (grows_array u k n) (grows_array u' k' n)) (u.lookup_array k n)
    (u'.lookup_array k' n)

end Asking

end TypeTable

end WatchExpr
