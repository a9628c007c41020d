import WatchExpr.Proofs.Types.Unwrapping

namespace WatchExpr

def TypeEntry.links (e : TypeEntry) : List TypeKey :=
  e.direct :: e.owner :: (e.params ++ e.members.map (·.type))

namespace TypeTable

variable {t t' t₁ t₂ t₃ : TypeTable} {k l : TypeKey}

/-- The entry of a key, if the key asks for one, is in the table. -/
def Has (t : TypeTable) (k : TypeKey) : Prop := k.id ≤ t.entries.size

instance (t : TypeTable) (k : TypeKey) : Decidable (t.Has k) :=
  inferInstanceAs (Decidable (k.id ≤ t.entries.size))

/-- The keys that the table refers to are keys of its own. -/
structure Closed (t : TypeTable) : Prop where
  entries : ∀ e ∈ t.entries, ∀ k ∈ e.links, t.Has k
  names : ∀ p ∈ t.names, t.Has p.2
  pointers : ∀ p ∈ t.pointers, t.Has p.2
  arrays : ∀ a ∈ t.arrays, t.Has a.2

/-- A table after some pointers and arrays were interned. -/
structure Grows (t t' : TypeTable) : Prop where
  pointerSize : t'.pointerSize = t.pointerSize
  names : t'.names = t.names
  size_le : t.entries.size ≤ t'.entries.size
  entries : t.Extends t'
  pointers : ∀ k p, t.pointers.lookup k = some p → t'.pointers.lookup k = some p
  arrays : ∀ k a, t.arrays.lookup k = some a → t'.arrays.lookup k = some a

theorem Grows.refl (t : TypeTable) : t.Grows t where
  pointerSize := rfl
  names := rfl
  size_le := Nat.le_refl _
  entries := Extends.refl t
  pointers _ _ h := h
  arrays _ _ h := h

theorem Grows.trans (h : t₁.Grows t₂) (h' : t₂.Grows t₃) : t₁.Grows t₃ where
  pointerSize := h'.pointerSize.trans h.pointerSize
  names := h'.names.trans h.names
  size_le := Nat.le_trans h.size_le h'.size_le
  entries := h.entries.trans h'.entries
  pointers k p hp := h'.pointers k p (h.pointers k p hp)
  arrays k a ha := h'.arrays k a (h.arrays k a ha)

/-- What was interned in one table is found in another under the same keys. -/
structure Recalls (t t' : TypeTable) : Prop where
  pointers : ∀ k p, t.pointers.lookup k = some p → t'.pointers.lookup k = some p
  arrays : ∀ k a, t.arrays.lookup k = some a → t'.arrays.lookup k = some a

theorem Recalls.trans (h : t₁.Recalls t₂) (h' : t₂.Recalls t₃) : t₁.Recalls t₃ where
  pointers k p hp := h'.pointers k p (h.pointers k p hp)
  arrays k a ha := h'.arrays k a (h.arrays k a ha)

theorem Grows.recalls (h : t.Grows t') : t.Recalls t' := ⟨h.pointers, h.arrays⟩

theorem Has.grows (hk : t.Has k) (h : t.Grows t') : t'.Has k := Nat.le_trans hk h.size_le

theorem has_basic {b : BasicKind} : t.Has (.basic b) := Nat.zero_le _

theorem Has.promote (hk : t.Has k) : t.Has k.promote := by
  rw [TypeKey.promote]
  split
  all_goals first | exact hk | exact has_basic

section Interning

/-- An entry without a name changes nothing but the entries. -/
theorem add_unnamed (t : TypeTable) {e : TypeEntry} (h : e.name = []) :
    t.add e = (⟨e.kind, t.entries.size + 1⟩, { t with entries := t.entries.push e }) := by
  simp [add, append, h]

theorem lookup_cons_of_lookup {α β : Type} [BEq α] [LawfulBEq α] {a a' : α} {b b' : β}
    {l : List (α × β)} (h : l.lookup a = none) (h' : l.lookup a' = some b') :
    ((a, b) :: l).lookup a' = some b' := by
  rw [List.lookup_cons]
  split
  · rename_i he
    rw [eq_of_beq he, h] at h'
    cases h'
  · exact h'

theorem mem_of_lookup {α β : Type} [BEq α] [LawfulBEq α] {a : α} {b : β} {l : List (α × β)}
    (h : l.lookup a = some b) : (a, b) ∈ l := by
  obtain ⟨before, after, rfl, -⟩ := List.lookup_eq_some_iff.1 h
  simp

theorem grows_pointer (t : TypeTable) (k : TypeKey) : t.Grows (t.pointer k).2 := by
  have he := extends_pointer t k
  rw [pointer] at he ⊢
  split
  · exact Grows.refl t
  · rename_i hl
    simp only [hl] at he
    refine ⟨?_, ?_, ?_, he, fun k' p h => ?_, fun _ _ h => ?_⟩
    all_goals simp only [t.add_unnamed (e := { kind := .pointer, direct := k }) rfl]
    · simp
    · exact lookup_cons_of_lookup hl h
    · exact h

theorem grows_array (t : TypeTable) (k : TypeKey) (count : UInt64) :
    t.Grows (t.array k count).2 := by
  have he := extends_array t k count
  rw [array] at he ⊢
  split
  · exact Grows.refl t
  · rename_i hl
    simp only [hl] at he
    refine ⟨?_, ?_, ?_, he, fun _ _ h => ?_, fun k' a h => ?_⟩
    all_goals simp only [t.add_unnamed (e := { kind := .array, direct := k, count }) rfl]
    · simp
    · exact h
    · exact lookup_cons_of_lookup hl h

theorem lookup_pointer (t : TypeTable) (k : TypeKey) :
    (t.pointer k).2.pointers.lookup k = some (t.pointer k).1 := by
  rw [pointer]
  split
  · assumption
  · simp

theorem lookup_array (t : TypeTable) (k : TypeKey) (count : UInt64) :
    (t.array k count).2.arrays.lookup (k, count) = some (t.array k count).1 := by
  rw [array]
  split
  · assumption
  · simp

/-- What was interned is found again later, and nothing is added then. -/
theorem pointer_again (h : (t.pointer k).2.Recalls t') : t'.pointer k = ((t.pointer k).1, t') := by
  rw [pointer, h.pointers _ _ (t.lookup_pointer k)]

theorem array_again {count : UInt64} (h : (t.array k count).2.Recalls t') :
    t'.array k count = ((t.array k count).1, t') := by
  rw [array, h.arrays _ _ (t.lookup_array k count)]

theorem closed_empty (pointerSize : Int) : (empty pointerSize).Closed where
  entries := by simp [empty]
  names := by simp [empty]
  pointers := by simp [empty]
  arrays := by simp [empty]

/-- A table stays closed when an entry is added whose links are there. -/
theorem Closed.push (h : t.Closed) {e : TypeEntry} (he : ∀ k ∈ e.links, t.Has k) :
    Closed { t with entries := t.entries.push e } := by
  have hs {k : TypeKey} (hk : t.Has k) : k.id ≤ (t.entries.push e).size := by
    rw [Array.size_push]
    exact Nat.le_succ_of_le hk
  refine ⟨fun e' he' k hk => hs ?_, fun p hp => hs (h.names p hp),
    fun p hp => hs (h.pointers p hp), fun a ha => hs (h.arrays a ha)⟩
  obtain he' | rfl := Array.mem_push.1 he'
  · exact h.entries e' he' k hk
  · exact he k hk

theorem links_direct {e : TypeEntry} (ho : e.owner = .zero) (hp : e.params = [])
    (hm : e.members = []) (hd : t.Has e.direct) : ∀ k ∈ e.links, t.Has k := by
  intro k hk
  simp only [TypeEntry.links, ho, hp, hm, List.map_nil, List.append_nil, List.mem_cons,
    List.not_mem_nil, or_false] at hk
  obtain rfl | rfl := hk
  · exact hd
  · exact Nat.zero_le _

theorem Closed.pointer (h : t.Closed) (hk : t.Has k) :
    (t.pointer k).2.Closed ∧ (t.pointer k).2.Has (t.pointer k).1 := by
  rw [TypeTable.pointer]
  split
  · rename_i p hp
    exact ⟨h, h.pointers _ (mem_of_lookup hp)⟩
  · have hc := h.push (links_direct (e := { kind := .pointer, direct := k }) rfl rfl rfl hk)
    simp only [t.add_unnamed (e := { kind := .pointer, direct := k }) rfl]
    have hn : t.entries.size + 1 ≤ (t.entries.push { kind := .pointer, direct := k }).size := by
      rw [Array.size_push]
    exact ⟨⟨hc.entries, hc.names, List.forall_mem_cons.2 ⟨hn, hc.pointers⟩, hc.arrays⟩, hn⟩

theorem Closed.array (h : t.Closed) (hk : t.Has k) (count : UInt64) :
    (t.array k count).2.Closed ∧ (t.array k count).2.Has (t.array k count).1 := by
  rw [TypeTable.array]
  split
  · rename_i a ha
    exact ⟨h, h.arrays _ (mem_of_lookup ha)⟩
  · have hc := h.push (links_direct (e := { kind := .array, direct := k, count }) rfl rfl rfl hk)
    simp only [t.add_unnamed (e := { kind := .array, direct := k, count }) rfl]
    have hn : t.entries.size + 1 ≤ (t.entries.push { kind := .array, direct := k, count }).size := by
      rw [Array.size_push]
    exact ⟨⟨hc.entries, hc.names, hc.pointers, List.forall_mem_cons.2 ⟨hn, hc.arrays⟩⟩, hn⟩

end Interning

section Links
variable (hc : t.Closed)
include hc

theorem Closed.has_link {e : TypeEntry} (he : t.entry? k = some e) (hl : l ∈ e.links) : t.Has l := by
  obtain ⟨-, he⟩ := entry?_eq_some.1 he
  exact hc.entries e (Array.mem_of_getElem? he) l hl

theorem Closed.has_direct (k : TypeKey) : t.Has (t.direct k) := by
  rw [direct]
  cases he : t.entry? k with
  | none => exact Nat.zero_le _
  | some e => exact hc.has_link he (by simp [TypeEntry.links])

theorem Closed.has_owner (k : TypeKey) : t.Has (t.owner k) := by
  rw [owner]
  cases he : t.entry? k with
  | none => exact Nat.zero_le _
  | some e => exact hc.has_link he (by simp [TypeEntry.links])

theorem Closed.has_param (h : l ∈ t.params k) : t.Has l := by
  rw [params] at h
  cases he : t.entry? k with
  | none => simp [he] at h
  | some e =>
    rw [he] at h
    exact hc.has_link he (by simp [TypeEntry.links, show l ∈ e.params from h])

theorem Closed.has_member {m : Member} (h : m ∈ t.members k) : t.Has m.type := by
  rw [members] at h
  cases he : t.entry? k with
  | none => simp [he] at h
  | some e =>
    rw [he] at h
    exact hc.has_link he (by simp only [TypeEntry.links]; grind)

theorem Closed.has_unwrapWithin (hk : t.Has k) (n : Nat) : t.Has (t.unwrapWithin n k) := by
  induction n generalizing k with
  | zero => exact hk
  | succ n ih =>
    simp only [unwrapWithin]
    split
    · split
      · exact hk
      · exact ih (hc.has_direct k)
    · exact hk

theorem Closed.has_unwrap (hk : t.Has k) : t.Has (t.unwrap k) := hc.has_unwrapWithin hk _

theorem Closed.has_unwrapEnum (hk : t.Has k) : t.Has (t.unwrapEnum k) := by
  simp only [unwrapEnum]
  split
  · split
    · exact hc.has_unwrap hk
    · exact hc.has_unwrap (hc.has_direct _)
  · exact hc.has_unwrap hk

theorem Closed.has_pointee (k : TypeKey) : t.Has (t.pointee k) := by
  simp only [pointee]
  split
  · exact hc.has_unwrap (hc.has_direct _)
  · exact hc.has_unwrap (hc.has_direct _)
  · exact hc.has_unwrap (hc.has_direct _)
  · exact hc.has_unwrap (hc.has_direct _)
  · exact Nat.zero_le _

theorem Closed.has_coerce (hk : t.Has k) (hl : t.Has l) : t.Has (t.coerce k l) := by
  have hk' := (hc.has_unwrapEnum hk).promote
  have hl' := (hc.has_unwrapEnum hl).promote
  simp only [coerce]
  split
  · exact Nat.zero_le _
  · split
    · exact Nat.zero_le _
    · split
      · exact hk'
      · split
        · exact hl'
        · split
          · exact hl'
          · exact hk'

end Links

theorem all_zip_congr (ks ls : List TypeKey) {f g : TypeKey → TypeKey → Bool}
    (h : ∀ a b, a ∈ ks → b ∈ ls → f a b = g a b) :
    ((ks.zip ls).all fun (a, b) => f a b) = (ks.zip ls).all fun (a, b) => g a b := by
  rw [Bool.eq_iff_iff, List.all_eq_true, List.all_eq_true]
  refine forall₂_congr fun p hp => ?_
  obtain ⟨a, b⟩ := p
  obtain ⟨ha, hb⟩ := List.of_mem_zip hp
  simp only [h a b ha hb]

section Queries
variable (hg : t.Grows t')
include hg

theorem Grows.entry? (hk : t.Has k) : t'.entry? k = t.entry? k := by
  cases he : t.entry? k with
  | some e => exact hg.entries he
  | none =>
    rw [TypeTable.entry?] at he ⊢
    split at he
    · rename_i h0
      rw [if_pos h0]
    · rename_i h0
      rw [Array.getElem?_eq_none_iff] at he
      have hk : k.id ≤ t.entries.size := hk
      omega

theorem Grows.direct (hk : t.Has k) : t'.direct k = t.direct k := by
  rw [TypeTable.direct, TypeTable.direct, hg.entry? hk]

theorem Grows.owner (hk : t.Has k) : t'.owner k = t.owner k := by
  rw [TypeTable.owner, TypeTable.owner, hg.entry? hk]

theorem Grows.count (hk : t.Has k) : t'.count k = t.count k := by
  rw [TypeTable.count, TypeTable.count, hg.entry? hk]

theorem Grows.members (hk : t.Has k) : t'.members k = t.members k := by
  rw [TypeTable.members, TypeTable.members, hg.entry? hk]

theorem Grows.params (hk : t.Has k) : t'.params k = t.params k := by
  rw [TypeTable.params, TypeTable.params, hg.entry? hk]

theorem Grows.lookup? (name : Text) : t'.lookup? name = t.lookup? name := by
  rw [TypeTable.lookup?, TypeTable.lookup?, hg.names]

variable (hc : t.Closed)
include hc

theorem Grows.unwrapWithin (hk : t.Has k) (n : Nat) : t'.unwrapWithin n k = t.unwrapWithin n k := by
  induction n generalizing k with
  | zero => rfl
  | succ n ih => simp only [TypeTable.unwrapWithin, hg.direct hk, ih (hc.has_direct k)]

theorem Grows.unwrap (hk : t.Has k) : t'.unwrap k = t.unwrap k := hg.unwrapWithin hc hk _

theorem Grows.unwrapEnum (hk : t.Has k) : t'.unwrapEnum k = t.unwrapEnum k := by
  simp only [TypeTable.unwrapEnum, hg.unwrap hc hk, hg.direct (hc.has_unwrap hk),
    hg.unwrap hc (hc.has_direct _)]

theorem Grows.pointee (hk : t.Has k) : t'.pointee k = t.pointee k := by
  simp only [TypeTable.pointee, hg.unwrap hc hk, hg.direct (hc.has_unwrap hk),
    hg.unwrap hc (hc.has_direct _)]

theorem Grows.sizeWithin (hk : t.Has k) (n : Nat) : t'.sizeWithin n k = t.sizeWithin n k := by
  induction n generalizing k with
  | zero => rfl
  | succ n ih =>
    have hd {e : TypeEntry} (he : t.entry? k = some e) :
        t'.sizeWithin n e.direct = t.sizeWithin n e.direct :=
      ih (hc.has_link he (by simp [TypeEntry.links]))
    simp only [TypeTable.sizeWithin, hg.entry? hk, hg.pointerSize]
    cases he : t.entry? k with
    | none => rfl
    | some e => simp only [hd he]

/-- A chain of links ends in both tables or in neither. -/
theorem Grows.size? (hk : t.Has k) : t'.size? k = t.size? k := by
  cases hs : t.size? k with
  | some v =>
    rw [TypeTable.size?, ← hg.sizeWithin hc hk] at hs
    exact size?_of_sizeWithin hs
  | none =>
    cases hs' : t'.size? k with
    | none => rfl
    | some v =>
      rw [TypeTable.size?, hg.sizeWithin hc hk] at hs'
      rw [size?_of_sizeWithin hs'] at hs
      cases hs

theorem Grows.byteSize (hk : t.Has k) : t'.byteSize k = t.byteSize k := by
  rw [TypeTable.byteSize, TypeTable.byteSize, hg.size? hc hk]

theorem Grows.matchWithin (hk : t.Has k) (hl : t.Has l) (n : Nat) :
    t'.matchWithin n k l = t.matchWithin n k l := by
  induction n generalizing k l with
  | zero => rfl
  | succ n ih =>
    have hk' := hc.has_unwrap hk
    have hl' := hc.has_unwrap hl
    have hparams := all_zip_congr (t.params (t.unwrap k)) (t.params (t.unwrap l))
      fun a b ha hb => ih (hc.has_param ha) (hc.has_param hb)
    simp only [TypeTable.matchWithin, hg.unwrap hc hk, hg.unwrap hc hl, hg.direct hk', hg.direct hl',
      hg.owner hk', hg.owner hl', hg.count hk', hg.count hl', hg.params hk', hg.params hl', hparams,
      ih (hc.has_direct _) (hc.has_direct _), ih (hc.has_owner _) (hc.has_owner _)]

theorem Grows.sameType (hk : t.Has k) (hl : t.Has l) : t'.sameType k l = t.sameType k l :=
  hg.matchWithin hc hk hl _

theorem Grows.coerce (hk : t.Has k) (hl : t.Has l) : t'.coerce k l = t.coerce k l := by
  simp only [TypeTable.coerce, hg.unwrapEnum hc hk, hg.unwrapEnum hc hl,
    hg.byteSize hc (hc.has_unwrapEnum hk).promote,
    hg.byteSize hc (hc.has_unwrapEnum hl).promote]

theorem Grows.scalarGroup (hk : t.Has k) : t'.scalarGroup k = t.scalarGroup k := by
  rw [TypeTable.scalarGroup, TypeTable.scalarGroup, hg.unwrapEnum hc hk]

theorem Grows.isPointer (hk : t.Has k) : t'.isPointer k = t.isPointer k := by
  rw [TypeTable.isPointer, TypeTable.isPointer, hg.unwrap hc hk]

theorem Grows.isArithmetic (hk : t.Has k) : t'.isArithmetic k = t.isArithmetic k := by
  rw [TypeTable.isArithmetic, TypeTable.isArithmetic, hg.unwrapEnum hc hk, hg.scalarGroup hc hk]

theorem Grows.isAddressLike (hk : t.Has k) : t'.isAddressLike k = t.isAddressLike k := by
  rw [TypeTable.isAddressLike, TypeTable.isAddressLike, hg.unwrap hc hk]

theorem Grows.isPointerFloatCast (hk : t.Has k) (hl : t.Has l) :
    t'.isPointerFloatCast k l = t.isPointerFloatCast k l := by
  rw [TypeTable.isPointerFloatCast, TypeTable.isPointerFloatCast, hg.isAddressLike hc hk,
    hg.isAddressLike hc hl, hg.scalarGroup hc hk, hg.scalarGroup hc hl]

theorem Grows.truncateTo (n : Node) (hk : t.Has k) : t'.truncateTo n k = t.truncateTo n k := by
  simp only [TypeTable.truncateTo, hg.unwrapEnum hc hk, hg.byteSize hc (hc.has_unwrapEnum hk)]

theorem Grows.convert {r : Lowered} (hr : t.Has r.type) (hk : t.Has k) :
    t'.convert r k = t.convert r k := by
  simp only [TypeTable.convert, hg.scalarGroup hc hr, hg.scalarGroup hc hk, hg.unwrapEnum hc hr,
    hg.unwrapEnum hc hk, hg.byteSize hc (hc.has_unwrapEnum hr),
    hg.byteSize hc (hc.has_unwrapEnum hk), hg.truncateTo hc _ (hc.has_unwrapEnum hk)]

theorem Grows.converted {r : Lowered} (hr : t.Has r.type) (hk : t.Has k) :
    t'.converted r k = t.converted r k := by
  rw [TypeTable.converted, TypeTable.converted, hg.convert hc hr hk]

end Queries

end TypeTable

end WatchExpr
