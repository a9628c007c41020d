import Mathlib.Order.Defs.Unbundled
import WatchExpr.Proofs.Types.Development
import WatchExpr.Proofs.Types.Structure

namespace WatchExpr

/-- An entry that a definition makes: it is of a kind that is defined, and its parameters are
counted. -/
structure TypeEntry.Definable (e : TypeEntry) : Prop where
  kind : e.kind.isDefinable
  count : e.kind.hasParams → e.count = e.params.length.toUInt64

namespace TypeTable

variable {t t' : TypeTable} {k l r u v d c : TypeKey} {n m : Nat} {p : List Nat} {s : UInt64}

/-- A table whose entries were all made by definitions. -/
def Definable (t : TypeTable) : Prop := ∀ e ∈ t.entries, e.Definable

section Definitions
variable {e : TypeEntry}

theorem definable_of_hasParams (hk : e.kind.isDefinable) (hp : e.kind.hasParams = false) :
    e.Definable where
  kind := hk
  count h := by
    rw [hp] at h
    cases h

theorem Definable.push (ht : t.Definable) (he : e.Definable)
    (h : t'.entries = t.entries.push e) : t'.Definable := by
  intro e' he'
  rw [h] at he'
  obtain he' | rfl := Array.mem_push.1 he'
  · exact ht e' he'
  · exact he

theorem Definable.complete (ht : t.Definable) (h : t.complete k d = .ok t') : t'.Definable := by
  obtain ⟨-, rfl⟩ := complete_eq_ok h
  intro e he
  obtain ⟨i, hi, rfl⟩ := Array.mem_iff_getElem.1 he
  rw [Array.getElem_modify]
  have hi' : i < t.entries.size := by simpa using hi
  have hold := ht t.entries[i] (Array.getElem_mem hi')
  split
  · exact ⟨hold.kind, hold.count⟩
  · exact hold

theorem entries_perform (t : TypeTable) (r : TypeRequest) :
    (t.perform r).2.entries = t.entries ∨
      (∃ e : TypeEntry, e.Definable ∧ (e.kind = .enum → e.direct.kind.isInteger) ∧
        (t.perform r).2.entries = t.entries.push e) ∨
      ∃ f d, r = .complete f d ∧ t.complete f d = .ok (t.perform r).2 := by
  have hadd {e : TypeEntry} {t' : TypeTable} (ht' : t'.entries = t.entries.push e)
      (hk : e.kind.isDefinable) (hp : e.kind.hasParams = false) (he : (e.kind == .enum) = false) :
      ∃ e : TypeEntry, e.Definable ∧ (e.kind = .enum → e.direct.kind.isInteger) ∧
        t'.entries = t.entries.push e := by
    refine ⟨e, definable_of_hasParams hk hp, fun h => ?_, ht'⟩
    rw [h] at he
    cases he
  cases r with
  | record kind name size members =>
    simp only [TypeTable.perform, defineRecord]
    split
    · rename_i hk
      cases kind with
      | record k => exact .inr (.inl (hadd (t.entries_add _) rfl rfl rfl))
      | _ => cases hk
    · exact .inl rfl
  | enum name underlying =>
    simp only [TypeTable.perform, defineEnum]
    split
    · rename_i hk
      exact .inr (.inl ⟨_, definable_of_hasParams rfl rfl, fun _ => hk, t.entries_add _⟩)
    · exact .inl rfl
  | typedef name target => exact .inr (.inl (hadd (t.entries_add _) rfl rfl rfl))
  | modifier qualifier target => exact .inr (.inl (hadd (t.entries_add _) rfl rfl rfl))
  | forward kind name definition =>
    simp only [TypeTable.perform, defineIncomplete]
    split
    · rename_i hk
      cases kind with
      | incomplete k =>
        exact .inr (.inl (hadd (e := { kind := .incomplete k, name, direct := definition })
          rfl rfl rfl rfl))
      | _ => cases hk
    · exact .inl rfl
  | complete forward definition =>
    simp only [TypeTable.perform]
    split
    · rename_i h
      exact .inr (.inr ⟨_, _, rfl, h⟩)
    · exact .inl rfl
  | function result params =>
    refine .inr (.inl ⟨_, ⟨rfl, fun _ => rfl⟩, ?_, t.entries_add _⟩)
    rintro ⟨⟩
  | method owner result params =>
    refine .inr (.inl ⟨_, ⟨rfl, fun _ => rfl⟩, ?_, t.entries_add _⟩)
    rintro ⟨⟩
  | memberPointer owner target => exact .inr (.inl (hadd (t.entries_add _) rfl rfl rfl))
  | reference kind target =>
    simp only [TypeTable.perform, reference]
    cases kind == .rref with
    | true => exact .inr (.inl (hadd (t.entries_add _) rfl rfl rfl))
    | false => exact .inr (.inl (hadd (t.entries_add _) rfl rfl rfl))
  | pointer target =>
    simp only [TypeTable.perform, pointer]
    split
    · exact .inl rfl
    · exact .inr (.inl (hadd (t.entries_add { kind := .pointer, direct := target }) rfl rfl rfl))
  | array element count =>
    simp only [TypeTable.perform, array]
    split
    · exact .inl rfl
    · exact .inr (.inl (hadd (t.entries_add { kind := .array, direct := element, count })
        rfl rfl rfl))

theorem Definable.perform (ht : t.Definable) (r : TypeRequest) : (t.perform r).2.Definable := by
  obtain h | ⟨e, he, -, h⟩ | ⟨f, d, rfl, h⟩ := t.entries_perform r
  · rw [TypeTable.Definable, h]
    exact ht
  · exact ht.push he h
  · exact ht.complete h

end Definitions

end TypeTable

/-- All entries of a table that has answered requests were made by definitions. -/
theorem TypeHistory.definable_run (pointerSize : Int) (requests : List TypeRequest) :
    ((start pointerSize).run requests).table.Definable := by
  have hrun (h : TypeHistory) (ht : h.table.Definable) : (h.run requests).table.Definable := by
    induction requests generalizing h with
    | nil => exact ht
    | cons r rs ih => exact ih (h.ask r) (ht.perform r)
  refine hrun _ ?_
  intro e he
  cases he with
  | mk he => cases he

namespace TypeTable

variable {t t' : TypeTable} {k l r u v d c : TypeKey} {n m : Nat} {p : List Nat} {s : UInt64}

theorem matchWithin_self (t : TypeTable) (n : Nat) (k : TypeKey) :
    t.matchWithin (n + 1) k k = true :=
  matchWithin_succ_iff.2 (.inl rfl)

theorem matchWithin_symm (h : t.matchWithin n k l = true) : t.matchWithin n l k = true := by
  induction n generalizing k l with
  | zero => cases h
  | succ n ih =>
    rw [matchWithin_succ_iff] at h ⊢
    obtain h | ⟨hs, hp⟩ := h
    · exact .inl h.symm
    · exact .inr ⟨hs.symm, (hp.imp fun _ _ => ih).flip⟩

theorem forall₂_trans {R : TypeKey → TypeKey → Prop} {as bs cs : List TypeKey}
    (hR : ∀ a b c, R a b → R b c → R a c) (h : List.Forall₂ R as bs) (h' : List.Forall₂ R bs cs) :
    List.Forall₂ R as cs := by
  induction h generalizing cs with
  | nil => exact h'
  | cons hab _ ih =>
    cases h' with
    | cons hbc h' => exact .cons (hR _ _ _ hab hbc) (ih h')

/-- Where one of two matches is an identity the other decides; where neither is, the parts are
compared with the same depth left on both sides. -/
theorem matchWithin_trans (h : t.matchWithin n k l = true) (h' : t.matchWithin n l r = true) :
    t.matchWithin n k r = true := by
  induction n generalizing k l r with
  | zero => cases h
  | succ n ih =>
    rw [matchWithin_succ_iff] at h h' ⊢
    obtain h | ⟨hs, hp⟩ := h
    · rw [h]
      exact h'
    obtain h' | ⟨hs', hp'⟩ := h'
    · rw [← h']
      exact .inr ⟨hs, hp⟩
    · exact .inr ⟨hs.trans hs', forall₂_trans (fun _ _ _ => ih) hp hp'⟩

theorem sameType_equivalence (t : TypeTable) :
    Equivalence fun k l => t.sameType k l = true where
  refl k := t.matchWithin_self maxChain k
  symm := matchWithin_symm
  trans := matchWithin_trans

theorem size?_of_link (h : t.sizeLink? k = some (s, d)) :
    t.size? k = (t.size? d).map (s * ·) := by
  cases hd : t.size? d with
  | some w =>
    have hd' : t.sizeWithin (t.entries.size + 2) d = some w := hd
    refine size?_of_sizeWithin (n := t.entries.size + 2 + 1) ?_
    rw [sizeWithin_succ_of_link h, hd', Option.map_some]
  | none =>
    cases hk : t.size? k with
    | none => rfl
    | some w =>
      rw [size?, sizeWithin_succ_of_link h] at hk
      obtain ⟨w', hw', -⟩ := Option.map_eq_some_iff.1 hk
      cases (size?_of_sizeWithin hw').symm.trans hd

theorem size?_of_entry_none (hk : k.kind = .null ∨ k.kind = .array) (he : t.entry? k = none) :
    t.size? k = some 0 := by
  refine size?_of_sizeWithin (n := 1) ?_
  obtain hk | hk := hk <;> simp [sizeWithin, hk, he]

/-- An array takes the space of its elements, one without an entry takes none. -/
theorem size?_array (hk : k.kind = .array) :
    t.size? k = (t.size? (t.direct k)).map (t.count k * ·) := by
  cases he : t.entry? k with
  | none =>
    rw [size?_of_entry_none (.inr hk) he, direct, count, he, Option.elim_none, Option.elim_none,
      size?_of_entry_none (.inl rfl) rfl]
    rfl
  | some e =>
    rw [direct, count, he]
    refine size?_of_link ?_
    rw [sizeLink?, hk, he]
    rfl

theorem size?_address (hk : k.kind.group = .u) (hb : k.kind.isBasic = false) :
    t.size? k = some t.pointerSize := by
  refine size?_of_sizeWithin (n := 1) ?_
  rw [sizeWithin]
  cases hkind : k.kind <;> simp_all [Kind.group, Kind.isBasic]

section Layout
variable (ht : t.Definable)
include ht

/-- A key of the table has an entry only if it is of a kind that is defined, and then the entry is
of that kind. -/
theorem Owns.entry (hk : t.Owns k) {e : TypeEntry} (he : t.entry? k = some e) :
    e.kind = k.kind ∧ e.Definable := by
  obtain ⟨hne, hmem⟩ := entry?_eq_some.1 he
  obtain hid | ⟨e', he', hkind⟩ := hk
  · exact absurd hid hne
  · cases he.symm.trans he'
    exact ⟨hkind, ht e (Array.mem_of_getElem? hmem)⟩

theorem size?_null (hk : t.Owns k) (hz : k.isZero) : t.size? k = some 0 := by
  have hkind : k.kind = .null := by simpa [TypeKey.isZero] using hz
  cases he : t.entry? k with
  | none => exact size?_of_entry_none (.inl hkind) he
  | some e =>
    obtain ⟨he', hd⟩ := hk.entry ht he
    have := hd.kind
    rw [he', hkind] at this
    cases this

/-- A type without parts that is no record and no enumeration has the size of its kind. -/
theorem size?_leaf (hk : t.Defines k) (hs : t.standsFor? k = none)
    (hn : k.kind.isNominal = false) (hg : k.kind.isBasic ∨ k.kind.group ≠ .u)
    (ha : k.kind ≠ .array) : t.size? k = some k.kind.basicSize := by
  cases he : t.entry? k with
  | none =>
    refine size?_of_sizeWithin (n := 1) ?_
    rw [sizeWithin]
    cases hkind : k.kind <;> simp_all [Kind.isNominal, Kind.isBasic, Kind.group, Kind.basicSize]
  | some e =>
    obtain ⟨hke, hd⟩ := hk.owns.entry ht he
    have hdefinable : k.kind.isDefinable := hke ▸ hd.kind
    have hz := standsFor?_eq_none.1 hs
    rw [direct_of_entry he] at hz
    have howns : t.Owns e.direct := direct_of_entry he ▸ hk _ (.direct .self)
    have hlink (h : t.sizeLink? k = some (1, e.direct)) (htransparent : k.kind.isTransparent) :
        t.size? k = some 0 := by
      rw [size?_of_link h, size?_null ht howns (hz htransparent)]
      rfl
    cases hkind : k.kind with
    | basic b => exact size?_of_sizeWithin (n := 1) (by simp [sizeWithin, hkind, Kind.basicSize])
    | modifier => exact hlink (by simp [sizeLink?, hkind, he]) (by rw [hkind]; rfl)
    | typedef => exact hlink (by simp [sizeLink?, hkind, he]) (by rw [hkind]; rfl)
    | incomplete f =>
      have hz := hz (by rw [hkind]; rfl)
      exact size?_of_sizeWithin (n := 1) (by simp [sizeWithin, hkind, he, hz, Kind.basicSize])
    | _ => simp_all [Kind.isNominal, Kind.isBasic, Kind.group, Kind.isDefinable]

theorem Similar.size? (h : t.Similar u v) (hu : t.Defines u) (hv : t.Defines v)
    (hsu : t.standsFor? u = none) (hsv : t.standsFor? v = none)
    (harray : u.kind = .array → t.size? (t.direct u) = t.size? (t.direct v)) :
    t.size? u = t.size? v := by
  by_cases ha : u.kind = .array
  · have ha' : v.kind = .array := h.kind ▸ ha
    rw [size?_array ha, size?_array ha', h.count (by rw [ha]; rfl), harray ha]
  by_cases hg : u.kind.isBasic = false ∧ u.kind.group = .u
  · obtain ⟨hb, hg⟩ := hg
    rw [size?_address hg hb, size?_address (h.kind ▸ hg) (h.kind ▸ hb)]
  · have hg : u.kind.isBasic ∨ u.kind.group ≠ .u := by
      rw [not_and_or, Bool.not_eq_false] at hg
      exact hg
    rw [size?_leaf ht hu hsu h.structural hg ha, size?_leaf ht hv hsv (h.kind ▸ h.structural)
      (h.kind ▸ hg) (h.kind ▸ ha), h.kind]

theorem size?_of_matchWithin (hs : t.ShortChains) (hk : t.Defines k) (hl : t.Defines l)
    (h : t.matchWithin n k l = true) : t.size? k = t.size? l := by
  induction n generalizing k l with
  | zero => cases h
  | succ n ih =>
    rw [← size?_unwrapped t k, ← size?_unwrapped t l]
    obtain h | ⟨hsimilar, hparts⟩ := matchWithin_succ_iff.1 h
    · rw [h]
    · have hku := hk.unwrap hs
      have hlu := hl.unwrap hs
      obtain ⟨_, hc⟩ := hs.chain hk.owns
      obtain ⟨_, hc'⟩ := hs.chain hl.owns
      refine hsimilar.size? ht hku hlu hc.standsFor? hc'.standsFor? ?_
      intro ha
      have ha' : (t.unwrap l).kind = .array := hsimilar.kind ▸ ha
      simp only [PartsMatch, parts, ha, ha', List.forall₂_cons, List.Forall₂.nil,
        and_true] at hparts
      exact ih (hku.uses (.direct .self)) (hlu.uses (.direct .self)) hparts

end Layout

/-- Matching is an equivalence on all keys. Types of a table that match have the same size, if they
have one, and values of both are worked on in the same group. -/
theorem sameType_respects_layout :
    (∀ t : TypeTable, Equivalence fun k l => t.sameType k l = true) ∧
    ∀ (pointerSize : Int) (requests : List TypeRequest),
      let t := ((TypeHistory.start pointerSize).run requests).table
      t.ShortChains → ∀ k l, t.Defines k → t.Defines l → t.sameType k l = true →
        t.size? k = t.size? l ∧ t.byteSize k = t.byteSize l ∧ t.group k = t.group l := by
  refine ⟨sameType_equivalence, ?_⟩
  intro pointerSize requests t hs k l hk hl h
  have ht : t.Definable := TypeHistory.definable_run pointerSize requests
  have hsize := size?_of_matchWithin ht hs hk hl h
  refine ⟨hsize, by rw [byteSize, byteSize, hsize], ?_⟩
  obtain hu | ⟨hsimilar, -⟩ := matchWithin_succ_iff.1 h
  · rw [group, group, hu]
  · rw [group, group, hsimilar.kind]

/-- A record that is announced first, and functions and arrays that name it in two ways. -/
def pointRequests : List TypeRequest :=
  [.forward (.incomplete .struct) "Point" .zero, .record (.record .struct) "Point" 8 [],
    .complete ⟨.incomplete .struct, 1⟩ ⟨.record .struct, 2⟩,
    .typedef (Text.ofString "Length") (.basic .s32),
    .pointer ⟨.incomplete .struct, 1⟩, .pointer ⟨.record .struct, 2⟩,
    .function (.basic .s32) [.basic .s32, ⟨.pointer, 4⟩],
    .function ⟨.typedef, 3⟩ [⟨.typedef, 3⟩, ⟨.pointer, 5⟩],
    .array ⟨.pointer, 4⟩ 3, .array ⟨.pointer, 5⟩ 3]

def pointTable : TypeTable := ((TypeHistory.start 8).run pointRequests).table

def pointKeys : List TypeKey :=
  [.zero, .basic .s32, ⟨.incomplete .struct, 1⟩, ⟨.record .struct, 2⟩, ⟨.typedef, 3⟩,
    ⟨.pointer, 4⟩, ⟨.pointer, 5⟩, ⟨.function, 6⟩, ⟨.function, 7⟩, ⟨.array, 8⟩, ⟨.array, 9⟩]

theorem shortChains_pointTable : pointTable.ShortChains :=
  shortChains_of_entries (by decide +kernel)

theorem defines_pointTable (hk : k ∈ pointKeys) : pointTable.Defines k :=
  defines_of_closed pointKeys hk (by decide +kernel)

theorem arrays_respect_layout :
    pointTable.ShortChains ∧ pointTable.Defines ⟨.array, 8⟩ ∧ pointTable.Defines ⟨.array, 9⟩ ∧
      pointTable.sameType ⟨.array, 8⟩ ⟨.array, 9⟩ = true ∧
      pointTable.size? ⟨.array, 8⟩ = pointTable.size? ⟨.array, 9⟩ ∧
      pointTable.size? ⟨.array, 9⟩ = some 24 := by
  have hk : pointTable.Defines ⟨.array, 8⟩ := defines_pointTable (by decide)
  have hl : pointTable.Defines ⟨.array, 9⟩ := defines_pointTable (by decide)
  have h : pointTable.sameType ⟨.array, 8⟩ ⟨.array, 9⟩ = true := by decide +kernel
  obtain ⟨hsize, -, -⟩ :=
    sameType_respects_layout.2 8 pointRequests shortChains_pointTable _ _ hk hl h
  exact ⟨shortChains_pointTable, hk, hl, h, hsize, by decide +kernel⟩

/-- The tree of a type in which an uncompleted forward declaration is only what it announces. -/
def announcedTree (t : TypeTable) (k : TypeKey) : Set (List Nat × Shape) :=
  Prod.map id Shape.announced '' t.tree k

/-- What matching sees of a type apart from its parts. -/
def label (t : TypeTable) (k : TypeKey) : Shape := (t.shape k).announced

theorem mem_announcedTree {s : Shape} :
    (p, s) ∈ t.announcedTree k ↔ ∃ u, t.At k p u ∧ t.label u = s := by
  constructor
  · rintro ⟨⟨q, s'⟩, ⟨u, hu, hs⟩, hx⟩
    obtain ⟨rfl, rfl⟩ := Prod.mk.inj hx
    exact ⟨u, hu, congrArg Shape.announced hs⟩
  · rintro ⟨u, hu, rfl⟩
    exact ⟨(p, t.shape u), ⟨u, hu, rfl⟩, rfl⟩

theorem label_eq (t : TypeTable) (k : TypeKey) : t.label k =
    if k.kind = .array then .array (t.count k)
    else if k.kind.isNominal then .declared k else .form k.kind := by
  rw [label, shape]
  cases hk : k.kind <;> simp [Shape.announced, Kind.isNominal, Kind.isIncomplete, hk]

theorem Similar.label (h : t.Similar u v) : t.label u = t.label v := by
  rw [label_eq, label_eq, ← h.kind, h.structural]
  split
  · rename_i ha
    rw [h.count (by rw [ha]; rfl)]
  · rfl

/-- A label tells the kind, which record or enumeration it is, and the number of elements. -/
theorem label_eq_iff : t.label u = t.label v ↔ u.kind = v.kind ∧
    (u.kind.isNominal → u = v) ∧ (u.kind = .array → t.count u = t.count v) := by
  rw [label_eq, label_eq]
  grind [Kind.isNominal]

theorem mem_announcedTree_nil (hc : t.Chain n k u) {s : Shape} :
    ([], s) ∈ t.announcedTree k ↔ t.label u = s := by
  simp only [mem_announcedTree, hc.at_iff, at_nil_iff hc.standsFor?, exists_eq_left]

theorem mem_announcedTree_cons (hc : t.Chain n k u) {i : Nat} {s : Shape} :
    (i :: p, s) ∈ t.announcedTree k ↔
      ∃ c, (t.parts u)[i]? = some c ∧ (p, s) ∈ t.announcedTree c := by
  simp only [mem_announcedTree, hc.at_iff, at_cons_iff hc.standsFor?]
  grind

theorem mem_tree_cons (hc : t.Chain n k u) {i : Nat} {s : Shape} (hi : (t.parts u)[i]? = some c)
    (h : (p, s) ∈ t.tree c) : (i :: p, s) ∈ t.tree k := by
  obtain ⟨v, hv, hs⟩ := h
  exact ⟨v, hc.at_iff.2 (.part hc.standsFor? hi hv), hs⟩

theorem exists_getElem?_of_forall₂ {R : TypeKey → TypeKey → Prop} {as bs : List TypeKey} {i : Nat}
    {a : TypeKey} (h : List.Forall₂ R as bs) (ha : as[i]? = some a) :
    ∃ b, bs[i]? = some b ∧ R a b := by
  obtain ⟨hlength, hget⟩ := List.forall₂_iff_get.1 h
  obtain ⟨hi, rfl⟩ := List.getElem?_eq_some_iff.1 ha
  exact ⟨_, List.getElem?_eq_getElem (hlength ▸ hi), hget i hi (hlength ▸ hi)⟩

theorem forall₂_of_getElem? {R : TypeKey → TypeKey → Prop} {as bs : List TypeKey}
    (hlength : as.length = bs.length)
    (h : ∀ (i : Nat) a b, as[i]? = some a → bs[i]? = some b → R a b) : List.Forall₂ R as bs := by
  rw [List.forall₂_iff_get]
  refine ⟨hlength, fun i hi hi' => ?_⟩
  exact h i _ _ (List.getElem?_eq_getElem hi) (List.getElem?_eq_getElem hi')

theorem announcedTree_subset_of_matchWithin (hs : t.ShortChains) (hk : t.Defines k)
    (hl : t.Defines l) (h : t.matchWithin n k l = true) :
    t.announcedTree k ⊆ t.announcedTree l := by
  induction n generalizing k l with
  | zero => cases h
  | succ n ih =>
    obtain ⟨_, hc⟩ := hs.chain hk.owns
    obtain ⟨_, hc'⟩ := hs.chain hl.owns
    rintro ⟨p, s⟩ hp
    obtain h | ⟨hsimilar, hparts⟩ := matchWithin_succ_iff.1 h
    · simp only [mem_announcedTree, hc.at_iff, hc'.at_iff, h] at hp ⊢
      exact hp
    · cases p with
      | nil =>
        rw [mem_announcedTree_nil hc] at hp
        rwa [mem_announcedTree_nil hc', ← hsimilar.label]
      | cons i p =>
        rw [mem_announcedTree_cons hc] at hp
        obtain ⟨c, hi, hp⟩ := hp
        obtain ⟨c', hi', hmatch⟩ := exists_getElem?_of_forall₂ hparts hi
        have hd := (hk.unwrap hs).part (List.mem_of_getElem? hi)
        have hd' := (hl.unwrap hs).part (List.mem_of_getElem? hi')
        exact (mem_announcedTree_cons hc').2 ⟨c', hi', ih hd hd' hmatch hp⟩

theorem announcedTree_eq_of_matchWithin (hs : t.ShortChains) (hk : t.Defines k) (hl : t.Defines l)
    (h : t.matchWithin n k l = true) : t.announcedTree k = t.announcedTree l :=
  (announcedTree_subset_of_matchWithin hs hk hl h).antisymm
    (announcedTree_subset_of_matchWithin hs hl hk (matchWithin_symm h))

theorem count_eq_length (ht : t.Definable) (hk : t.Owns k) (h : k.kind.hasParams) :
    t.count k = (t.params k).length.toUInt64 := by
  rw [count, params]
  cases he : t.entry? k with
  | none => rfl
  | some e =>
    obtain ⟨hkind, hd⟩ := hk.entry ht he
    exact hd.count (hkind ▸ h)

theorem length_params_of_parts (hk : u.kind = v.kind) (hp : u.kind.hasParams)
    (h : (t.parts u).length = (t.parts v).length) :
    (t.params u).length = (t.params v).length := by
  rw [parts, parts, ← hk] at h
  generalize u.kind = kind at hp h
  cases kind with
  | function => simpa using h
  | method => simpa using h
  | _ => cases hp

theorem exists_part_of_tree (hs : t.ShortChains) (hc : t.Chain n k u) (hc' : t.Chain m l v)
    (h : t.announcedTree k = t.announcedTree l) (hu : t.Defines u) {i : Nat}
    (hi : (t.parts u)[i]? = some c) : ∃ c', (t.parts v)[i]? = some c' := by
  obtain ⟨_, hchain⟩ := hs.chain (hu.part (List.mem_of_getElem? hi)).owns
  have hmem := (mem_announcedTree_cons hc).2 ⟨c, hi, (mem_announcedTree_nil hchain).2 rfl⟩
  rw [h, mem_announcedTree_cons hc'] at hmem
  obtain ⟨c', hi', -⟩ := hmem
  exact ⟨c', hi'⟩

theorem length_parts_of_tree (hs : t.ShortChains) (hc : t.Chain n k u) (hc' : t.Chain m l v)
    (h : t.announcedTree k = t.announcedTree l) (hu : t.Defines u) (hv : t.Defines v) :
    (t.parts u).length = (t.parts v).length := by
  refine Nat.le_antisymm ?_ ?_
  · refine Nat.le_of_not_lt fun hlt => ?_
    obtain ⟨c, hc⟩ := exists_part_of_tree hs hc hc' h hu (List.getElem?_eq_getElem hlt)
    rw [List.getElem?_eq_none (Nat.le_refl _)] at hc
    cases hc
  · refine Nat.le_of_not_lt fun hlt => ?_
    obtain ⟨c, hc⟩ := exists_part_of_tree hs hc' hc h.symm hv (List.getElem?_eq_getElem hlt)
    rw [List.getElem?_eq_none (Nat.le_refl _)] at hc
    cases hc

theorem announcedTree_part (hc : t.Chain n k u) (hc' : t.Chain m l v)
    (h : t.announcedTree k = t.announcedTree l) {i : Nat} {c' : TypeKey}
    (hi : (t.parts u)[i]? = some c) (hi' : (t.parts v)[i]? = some c') :
    t.announcedTree c = t.announcedTree c' := by
  ext ⟨p, s⟩
  have hmem : (i :: p, s) ∈ t.announcedTree k ↔ (i :: p, s) ∈ t.announcedTree l := by rw [h]
  simpa only [mem_announcedTree_cons hc, mem_announcedTree_cons hc', hi, hi', Option.some.injEq,
    exists_eq_left'] using hmem

theorem matchWithin_of_parts (ht : t.Definable) (hs : t.ShortChains) (hk : t.Defines k)
    (hl : t.Defines l) (h : t.announcedTree k = t.announcedTree l)
    (hparts : ∀ (i : Nat) c c', (t.parts (t.unwrap k))[i]? = some c →
      (t.parts (t.unwrap l))[i]? = some c' → t.matchWithin n c c' = true) :
    t.matchWithin (n + 1) k l = true := by
  obtain ⟨_, hc⟩ := hs.chain hk.owns
  obtain ⟨_, hc'⟩ := hs.chain hl.owns
  have hku := hk.unwrap hs
  have hlu := hl.unwrap hs
  rw [matchWithin_succ_iff]
  have hroot := (mem_announcedTree_nil hc).2 rfl
  rw [h, mem_announcedTree_nil hc'] at hroot
  obtain ⟨hkind, hnominal, harray⟩ := label_eq_iff.1 hroot.symm
  have hlength := length_parts_of_tree hs hc hc' h hku hlu
  cases hn : (t.unwrap k).kind.isNominal with
  | true => exact .inl (hnominal hn)
  | false =>
    refine .inr ⟨⟨hkind, hn, fun hcounted => ?_⟩, forall₂_of_getElem? hlength hparts⟩
    by_cases ha : (t.unwrap k).kind = .array
    · exact harray ha
    · have hp := Kind.hasParams_of_isCounted hcounted ha
      rw [count_eq_length ht hku.owns hp, count_eq_length ht hlu.owns (hkind ▸ hp),
        length_params_of_parts hkind hp hlength]

theorem matchWithin_of_announcedTree (ht : t.Definable) (hs : t.ShortChains) (hk : t.Defines k)
    (hl : t.Defines l) (hd : ∀ x ∈ t.tree k, x.1.length ≤ n)
    (h : t.announcedTree k = t.announcedTree l) : t.matchWithin (n + 1) k l = true := by
  induction n generalizing k l with
  | zero =>
    refine matchWithin_of_parts ht hs hk hl h fun i c c' hi _ => ?_
    obtain ⟨_, hc⟩ := hs.chain hk.owns
    obtain ⟨_, hchain⟩ := hs.chain ((hk.unwrap hs).part (List.mem_of_getElem? hi)).owns
    have hroot : ([], t.shape (t.unwrap c)) ∈ t.tree c :=
      ⟨_, hchain.at_iff.2 (.root hchain.standsFor?), rfl⟩
    exact absurd (hd _ (mem_tree_cons hc hi hroot)) (by simp)
  | succ n ih =>
    refine matchWithin_of_parts ht hs hk hl h fun i c c' hi hi' => ?_
    obtain ⟨_, hc⟩ := hs.chain hk.owns
    obtain ⟨_, hc'⟩ := hs.chain hl.owns
    have hpart := (hk.unwrap hs).part (List.mem_of_getElem? hi)
    have hpart' := (hl.unwrap hs).part (List.mem_of_getElem? hi')
    have hdepth : ∀ x ∈ t.tree c, x.1.length ≤ n := fun x hx =>
      Nat.le_of_succ_le_succ (hd _ (mem_tree_cons hc hi hx))
    exact ih hpart hpart' hdepth (announcedTree_part hc hc' h hi hi')

theorem announcedTree_eq_tree (h : ∀ x ∈ t.tree k, x.2.isForward = false) :
    t.announcedTree k = t.tree k := by
  have hannounced (s : Shape) (hs : s.isForward = false) : s.announced = s := by
    cases s with
    | declared c => simpa [Shape.announced, Shape.isForward] using hs
    | _ => rfl
  refine (Set.image_congr fun x hx => ?_).trans (Set.image_id _)
  rw [Prod.map, hannounced x.2 (h x hx)]
  rfl

/-- Types of a table of which one is not too deep match if and only if they unfold into the same
tree, apart from forward declarations that are never completed: two of them match if they announce
the same. -/
theorem sameType_iff_tree (pointerSize : Int) (requests : List TypeRequest) (k l : TypeKey) :
    let t := ((TypeHistory.start pointerSize).run requests).table
    t.ShortChains → t.Defines k → t.Defines l → (∀ x ∈ t.tree k, x.1.length ≤ 64) →
    (t.sameType k l = true ↔ t.announcedTree k = t.announcedTree l) ∧
      ((∀ x ∈ t.tree k, x.2.isForward = false) → (∀ x ∈ t.tree l, x.2.isForward = false) →
        (t.sameType k l = true ↔ t.tree k = t.tree l)) := by
  intro t hs hk hl hd
  have ht : t.Definable := TypeHistory.definable_run pointerSize requests
  have hiff : t.sameType k l = true ↔ t.announcedTree k = t.announcedTree l :=
    ⟨announcedTree_eq_of_matchWithin hs hk hl, matchWithin_of_announcedTree ht hs hk hl hd⟩
  refine ⟨hiff, fun hkf hlf => ?_⟩
  rw [hiff, announcedTree_eq_tree hkf, announcedTree_eq_tree hlf]

/-- A record and its announcement lie behind the parameters of two functions. -/
theorem functions_have_one_tree :
    pointTable.ShortChains ∧ pointTable.Defines ⟨.function, 6⟩ ∧
      pointTable.Defines ⟨.function, 7⟩ ∧
      (∀ x ∈ pointTable.tree ⟨.function, 6⟩, x.1.length ≤ 64) ∧
      pointTable.sameType ⟨.function, 6⟩ ⟨.function, 7⟩ = true ∧
      pointTable.announcedTree ⟨.function, 6⟩ = pointTable.announcedTree ⟨.function, 7⟩ := by
  have hk : pointTable.Defines ⟨.function, 6⟩ := defines_pointTable (by decide)
  have hl : pointTable.Defines ⟨.function, 7⟩ := defines_pointTable (by decide)
  have hd : ∀ x ∈ pointTable.tree ⟨.function, 6⟩, x.1.length ≤ 64 := by
    intro x hx
    have hrank := length_le_of_rank pointKeys
      (fun k => if k.kind.isCounted then 2 else if k.kind = .pointer then 1 else 0)
      (by decide +kernel) (by decide) hx
    exact Nat.le_trans hrank (by decide)
  have h : pointTable.sameType ⟨.function, 6⟩ ⟨.function, 7⟩ = true := by decide +kernel
  obtain ⟨hiff, -⟩ := sameType_iff_tree 8 pointRequests _ _ shortChains_pointTable hk hl hd
  exact ⟨shortChains_pointTable, hk, hl, hd, h, hiff.1 h⟩

/-- Two announcements of different records, neither of them completed. -/
def announcedTable : TypeTable :=
  ((TypeHistory.start 8).run
    [.forward (.incomplete .struct) "A" .zero, .forward (.incomplete .struct) "B" .zero]).table

theorem at_announced {i : Nat} (h : announcedTable.standsFor? ⟨.incomplete .struct, i⟩ = none)
    (hp : announcedTable.At ⟨.incomplete .struct, i⟩ p u) :
    p = [] ∧ u = ⟨.incomplete .struct, i⟩ := by
  cases hp with
  | name h' => cases h.symm.trans h'
  | root => exact ⟨rfl, rfl⟩
  | part _ hi => cases hi

/-- Two forward declarations match although they are leaves of their own. -/
theorem announcements_match :
    announcedTable.ShortChains ∧ announcedTable.Defines ⟨.incomplete .struct, 1⟩ ∧
      announcedTable.Defines ⟨.incomplete .struct, 2⟩ ∧
      (∀ x ∈ announcedTable.tree ⟨.incomplete .struct, 1⟩, x.1.length ≤ 64) ∧
      (∀ x ∈ announcedTable.tree ⟨.incomplete .struct, 2⟩, x.1.length ≤ 64) ∧
      announcedTable.sameType ⟨.incomplete .struct, 1⟩ ⟨.incomplete .struct, 2⟩ = true ∧
      announcedTable.tree ⟨.incomplete .struct, 1⟩ ≠
        announcedTable.tree ⟨.incomplete .struct, 2⟩ := by
  have h₁ : announcedTable.standsFor? ⟨.incomplete .struct, 1⟩ = none := by decide +kernel
  have h₂ : announcedTable.standsFor? ⟨.incomplete .struct, 2⟩ = none := by decide +kernel
  have hdefines {k : TypeKey}
      (hk : k ∈ [.zero, ⟨.incomplete .struct, 1⟩, (⟨.incomplete .struct, 2⟩ : TypeKey)]) :
      announcedTable.Defines k := defines_of_closed _ hk (by decide +kernel)
  refine ⟨shortChains_of_entries (by decide +kernel), hdefines (by decide), hdefines (by decide),
    ?_, ?_, by decide +kernel, ?_⟩
  · rintro x ⟨u, hu, -⟩
    rw [(at_announced h₁ hu).1]
    exact Nat.zero_le _
  · rintro x ⟨u, hu, -⟩
    rw [(at_announced h₂ hu).1]
    exact Nat.zero_le _
  · intro htree
    have hmem : ([], .declared ⟨.incomplete .struct, 1⟩) ∈
        announcedTable.tree ⟨.incomplete .struct, 1⟩ := ⟨_, .root h₁, rfl⟩
    rw [htree] at hmem
    obtain ⟨u, hu, hs⟩ := hmem
    rw [(at_announced h₂ hu).2] at hs
    cases hs

end TypeTable

end WatchExpr
