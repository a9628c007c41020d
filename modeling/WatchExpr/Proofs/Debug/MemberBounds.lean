import WatchExpr.Proofs.Debug.WellFoundedness
import WatchExpr.Proofs.Types.Occupancy

namespace WatchExpr

namespace DebugInfo

/-- A declared record in a scope, with the bounds of its members: their exact sizes are counted with
all types of the scope defined. -/
structure DefinesRecord (t : TypeTable) (d : TypeDecl) (k : TypeKey) : Prop where
  record : ∃ kind visible, recordKind? d.kind = some kind ∧ DescribesRecord t visible d kind k
  members : ∀ m ∈ t.members k, ∃ n, t.Occupies m.type n ∧ t.byteSize m.type = .ofNat n ∧
    ((∀ r, t.Holds m.type r → r.kind.isRecord → r.id < k.id) →
      (m.offset.toNat + n ≤ d.size.toNat ↔ m.offset.toNat + n < 2 ^ 64))

theorem end_le_iff {offset bytes size : UInt64} {n : Nat} (hn : bytes = .ofNat n)
    (h : offset + bytes ≤ size) :
    offset.toNat + n ≤ size.toNat ↔ offset.toNat + n < 2 ^ 64 := by
  subst hn
  rw [UInt64.le_iff_toNat_le, UInt64.toNat_add, UInt64.toNat_ofNat'] at h
  have hsize := size.toNat_lt
  constructor
  · intro hle
    omega
  · intro hlt
    omega

namespace Pending

variable {p p' q : Pending} {ns : List Text} {ks : List TypeKey} {k : TypeKey} {d : TypeDecl}

theorem renews_parse {text : Text} (hp : p.parse text = .ok (k, p')) :
    p.types.Renews [] p'.types := by
  obtain ⟨e, -, -, -, -, -, rfl⟩ := parse_eq_ok hp
  exact TypeTable.renews_key _ e

theorem grows_parse {text : Text} (hp : p.parse text = .ok (k, p')) : p.types.Grows p'.types := by
  obtain ⟨e, -, -, -, -, -, rfl⟩ := parse_eq_ok hp
  exact TypeTable.grows_key _ e

theorem renews_defineName (hp : p.defineName d = .ok p') : p.types.Renews [] p'.types := by
  rw [Pending.defineName] at hp
  split at hp
  · cases hp
    exact .refl _
  split at hp
  · obtain ⟨⟨k, p₁⟩, hk, hp⟩ := Node.bind_eq_ok hp
    obtain ⟨⟨enum, types⟩, ht, hp⟩ := Node.bind_eq_ok hp
    cases hp
    have ht := of_mapError ht
    rw [TypeTable.defineEnum] at ht
    split at ht
    · obtain rfl := congrArg Prod.snd (Except.ok.inj ht)
      exact (renews_parse (of_mapError hk)).trans (TypeTable.renews_add _ rfl)
    · cases ht
  split at hp
  · obtain ⟨⟨k, p₁⟩, hk, hp⟩ := Node.bind_eq_ok hp
    cases hp
    exact (renews_parse (of_mapError hk)).trans (TypeTable.renews_add _ rfl)
  · cases hp

theorem renews_symbolType {d : SymbolDecl} (hp : symbolType p d = .ok (k, p')) :
    p.types.Renews [] p'.types := by
  rw [symbolType] at hp
  split at hp
  · exact renews_parse (of_mapError hp)
  split at hp
  · cases hp
    exact TypeTable.renews_add _ (e := { kind := .function, direct := .basic .void }) rfl
  · cases hp

theorem renews_addSymbol {s s' : DebugScope} {forwards : List (Text × TypeKey)} {d : SymbolDecl}
    (hp : addSymbol s forwards d = .ok s') : s.types.Renews [] s'.types := by
  rw [addSymbol] at hp
  split at hp
  · cases hp
  obtain ⟨⟨k, p⟩, hk, hp⟩ := Node.bind_eq_ok hp
  have hr := renews_symbolType hk
  simp only at hp
  split at hp
  · obtain ⟨sym, -, hp⟩ := Node.bind_eq_ok hp
    cases hp
    exact hr
  split at hp
  · cases hp
    exact hr
  split at hp
  · cases hp
    exact hr
  split at hp
  · cases hp
    exact hr
  · cases hp

theorem renews_foldlM {ε α β : Type} (types : β → TypeTable) {f : β → α → Except ε β}
    (hf : ∀ {b b' : β} {a : α}, f b a = .ok b' → (types b).Renews [] (types b')) {l : List α}
    {b b' : β} (h : l.foldlM f b = .ok b') : (types b).Renews [] (types b') := by
  induction l generalizing b with
  | nil =>
    cases h
    exact .refl _
  | cons a l ih =>
    rw [List.foldlM_cons] at h
    obtain ⟨b₁, ha, h⟩ := Node.bind_eq_ok h
    exact (hf ha).trans (ih h)

/-- All members of a record end within it, as far as sizes are known once all of them are read;
reading more of them only interns types. -/
theorem Sound.checks_members (h : p.Sound) {l : List MemberDecl} {ms ms' : List Member}
    (hp : l.foldlM (Pending.addMember d) (ms, p) = .ok (ms', p')) :
    p.types.Grows p'.types ∧ p.types.Renews [] p'.types ∧ ∃ added, ms' = ms ++ added ∧
      ∀ m ∈ added, m.offset + p'.types.byteSize m.type ≤ d.size := by
  induction l generalizing p ms with
  | nil =>
    cases hp
    exact ⟨.refl _, .refl _, [], (List.append_nil _).symm, List.forall_mem_nil _⟩
  | cons m l ih =>
    rw [List.foldlM_cons] at hp
    obtain ⟨⟨ms₁, p₁⟩, hm, hp⟩ := Node.bind_eq_ok hp
    obtain ⟨k, hk, rfl, hle⟩ := addMember_eq_ok hm
    obtain ⟨ha, hknows, -⟩ := h.parse hk
    obtain ⟨hg, hr, added, rfl, hadded⟩ := ih ha.sound hp
    refine ⟨(grows_parse hk).trans hg, (renews_parse hk).trans hr, ⟨m.name, k, m.offset⟩ :: added,
      by simp, ?_⟩
    intro m' hm'
    obtain rfl | hm' := List.mem_cons.1 hm'
    · rw [hg.byteSize ha.sound.closed hknows.has]
      exact hle
    · exact hadded m' hm'

theorem Sound.renews_defineRecord (h : p.Sound) {kind : RecordKind}
    (hkind : recordKind? d.kind = some kind) (hp : p.defineRecord d = .ok p') {ms : List Member}
    {p₁ : Pending} (hms : p.members d = .ok (ms, p₁)) :
    p₁.types.Renews [⟨.record kind, p₁.types.entries.size + 1⟩] p'.types := by
  rw [Pending.defineRecord, hkind] at hp
  simp only [hms] at hp
  obtain ⟨ha, -⟩ := h.members (p.members_eq d ▸ hms)
  have hadd := p₁.types.renews_add_record
    (e := { kind := .record kind, name := d.name, size := d.size, members := ms }) rfl
  obtain ⟨-, ⟨⟩, hp⟩ := Node.bind_eq_ok hp
  simp only at hp
  split at hp
  · cases hp
    exact hadd
  · rename_i f hf
    obtain ⟨types, ht, hp⟩ := Node.bind_eq_ok hp
    cases hp
    obtain ⟨hi, e, he, hkind', -⟩ := ha.sound.forwards d.name f hf
    rw [← hkind'] at hi
    refine hadd.complete he hi ?_ ?_ (of_mapError ht)
    · rw [TypeTable.kind_add]
      rfl
    · rw [TypeTable.key_add]
      exact Nat.lt_succ_self _

/-- The bytes of a type that holds no record defined later are known already. -/
theorem Sound.occupies_later (h : p.Sound) {t : TypeTable} (hr : p.types.Renews ks t)
    (hk : p.Knows k)
    (hearly : ∀ r, t.Holds k r → r.kind.isRecord → r.id ≤ p.types.entries.size) {n : Nat}
    (hn : p.types.Occupies k n) : t.Occupies k n := by
  induction hn with
  | leaf hl =>
    obtain he | ⟨r, hlink, hrecord, hlate⟩ := hr.entry?_cases hk.has fun _ he => hk.kind_entry he
    · rw [← TypeTable.byteSize_leaf_congr hr.pointerSize he hl]
      exact .leaf ((TypeTable.sizeLink?_congr he).trans hl)
    · exact absurd (hearly r (.link hlink .self) hrecord) (Nat.not_le_of_lt hlate)
  | link hl hd ih =>
    obtain he | ⟨r, hlink, hrecord, hlate⟩ := hr.entry?_cases hk.has fun _ he => hk.kind_entry he
    · have hl' := (TypeTable.sizeLink?_congr he).trans hl
      obtain ⟨e, hentry, rfl⟩ := TypeTable.direct_of_sizeLink? hl
      have hknows := h.links _ e hentry _ List.mem_cons_self
      exact .link hl' (ih hknows fun r hr => hearly r (.link hl' hr))
    · exact absurd (hearly r (.link hlink .self) hrecord) (Nat.not_le_of_lt hlate)

theorem Sound.knows_member (h : p.Sound) {m : Member} (hm : m ∈ p.types.members k) :
    p.Knows m.type := by
  rw [TypeTable.members] at hm
  cases he : p.types.entry? k with
  | none =>
    rw [he] at hm
    cases hm
  | some e =>
    rw [he] at hm
    have hlink := List.mem_append_right e.params (List.mem_map_of_mem (f := (·.type)) hm)
    exact h.links k e he m.type (List.mem_cons_of_mem _ (List.mem_cons_of_mem _ hlink))

theorem Sound.defines_record (h : p.Sound) {kind : RecordKind}
    (hkind : recordKind? d.kind = some kind) (hp : p.defineRecord d = .ok p')
    (ha : p'.Advances ns q) (hr : p'.types.Renews ks q.types) :
    ∃ k, p.types.Renews [k] p'.types ∧ DefinesRecord q.types d k := by
  obtain ⟨-, k, ⟨p₁, hms, hid⟩, hdescribes, -⟩ := h.defineRecord hkind hp
  obtain ⟨hsound, added, hadded, hknows, -⟩ := h.members (p.members_eq d ▸ hms)
  obtain ⟨-, hread, added', hadded', hfits⟩ := h.checks_members (p.members_eq d ▸ hms)
  have hrecord := h.renews_defineRecord hkind hp hms
  have hk : (⟨.record kind, p₁.types.entries.size + 1⟩ : TypeKey) = k := by
    rw [← hid, ← hdescribes.key]
  rw [hk] at hrecord
  refine ⟨k, hread.trans hrecord, ⟨kind, p.visible, hkind, hdescribes.develops ha.types⟩, ?_⟩
  intro m hm
  obtain ⟨i, v, hv⟩ := ha.sound.exists_size (ha.sound.knows_member hm)
  obtain ⟨n, hn⟩ := TypeTable.exists_occupies hv
  refine ⟨n, hn, hn.byteSize, ?_⟩
  intro hearly
  obtain ⟨e, he, -⟩ := hdescribes.entry
  rw [ha.types.members he, ← (TypeTable.Develops.refl [] _).members he] at hm
  -- what was checked was the size known before the record; by then it was final
  have hknown : p₁.Knows m.type := by
    rw [hadded, List.nil_append] at hm
    exact hknows m hm
  have hle : m.offset + p₁.types.byteSize m.type ≤ d.size := by
    rw [hadded', List.nil_append] at hm
    exact hfits m hm
  obtain ⟨i', v', hv'⟩ := hsound.sound.exists_size hknown
  obtain ⟨n', hn'⟩ := TypeTable.exists_occupies hv'
  have hsame : n' = n := by
    have hlater := hrecord.trans hr
    refine TypeTable.Occupies.unique (hsound.sound.occupies_later hlater hknown ?_ hn') hn
    intro r hholds hrecord
    have := hearly r hholds hrecord
    omega
  rw [hsame] at hn'
  exact end_le_iff hn'.byteSize hle

theorem Sound.defines_records (h : p.Sound) {ds : List TypeDecl}
    (hp : ds.foldlM Pending.defineRecord p = .ok p') (ha : p'.Advances ns q)
    (hr : p'.types.Renews ks q.types) : ∃ ks', p.types.Renews ks' p'.types ∧
      List.Forall₂ (DefinesRecord q.types)
        (ds.filter fun d => (recordKind? d.kind).isSome) ks' := by
  induction ds generalizing p with
  | nil =>
    cases hp
    exact ⟨[], .refl _, .nil⟩
  | cons d ds ih =>
    rw [List.foldlM_cons] at hp
    obtain ⟨p₁, hd, hp⟩ := Node.bind_eq_ok hp
    have ha₁ := h.advances_defineRecord hd
    obtain ⟨ks', hrest, hdefines⟩ := ih ha₁.sound hp
    cases hkind : recordKind? d.kind with
    | none =>
      rw [Pending.defineRecord, hkind] at hd
      cases hd
      rw [List.filter_cons_of_neg (by simp [hkind])]
      exact ⟨ks', hrest, hdefines⟩
    | some kind =>
      have hlater := ha₁.sound.pass (fun h => h.advances_defineRecord) hp
      obtain ⟨k, hfirst, hk⟩ := h.defines_record hkind hd (hlater.trans ha) (hrest.trans hr)
      rw [List.filter_cons_of_pos (by simp [hkind])]
      exact ⟨k :: ks', hfirst.trans hrest, .cons hk hdefines⟩

end Pending

theorem exists_of_mem_right {α β : Type} {R : α → β → Prop} {l : List α} {l' : List β}
    (h : List.Forall₂ R l l') {b : β} (hb : b ∈ l') : ∃ a ∈ l, R a b := by
  induction h with
  | nil => cases hb
  | cons hab _ ih =>
    obtain rfl | hb := List.mem_cons.1 hb
    · exact ⟨_, List.mem_cons_self, hab⟩
    · obtain ⟨a, ha, hab⟩ := ih hb
      exact ⟨a, List.mem_cons_of_mem _ ha, hab⟩

theorem defines_types {pointerSize : Int} {decls : List TypeDecl} {p q : Pending}
    {ns : List Text} (h : defineTypes (.empty pointerSize) decls = .ok p)
    (ha : p.Advances ns q) (hr : p.types.Renews [] q.types) : ∃ ks,
      ks.Pairwise (·.id < ·.id) ∧
      List.Forall₂ (DefinesRecord q.types) (decls.filter fun d => (recordKind? d.kind).isSome) ks ∧
      ∀ k e, q.types.entry? k = some e → e.kind.isRecord → e.kind = k.kind → k ∈ ks := by
  obtain ⟨named, hnamed, hrecords⟩ := Node.bind_eq_ok h
  have hannounces : Pending.Announces ([] ++ decls) (decls.foldl Pending.announce _) :=
    (Pending.announces_empty pointerSize).foldl
  have ha₁ := hannounces.sound.pass (fun h => h.defineName) hnamed
  have hr₁ := Pending.renews_foldlM Pending.types Pending.renews_defineName hnamed
  obtain ⟨ks, hr₂, hdefines⟩ := ha₁.sound.defines_records hrecords ha hr
  have hall := (hr₁.trans hr₂).trans hr
  rw [List.nil_append, List.append_nil] at hall
  refine ⟨ks, hall.sorted, hdefines, ?_⟩
  intro k e he hrecord hkind
  by_cases hlt : (decls.foldl Pending.announce { types := .empty pointerSize }).types.entries.size
      < k.id
  · obtain ⟨l, hl, hid⟩ := hall.records k e he hrecord hlt
    obtain ⟨d, -, ⟨kind, visible, -, hdescribes⟩, -⟩ := exists_of_mem_right hdefines hl
    obtain ⟨e', he', hkind', -⟩ := hdescribes.entry
    rw [TypeTable.entry?_of_id hid, he] at he'
    cases he'
    have hkey : l.kind = k.kind := hdescribes.key.trans (hkind'.symm.trans hkind)
    have hlk : l = k := by
      cases l
      cases k
      cases hid
      cases hkey
      rfl
    rw [← hlk]
    exact hl
  · -- nothing but forward declarations was there before the first definition
    obtain ⟨e₀, he₀⟩ := TypeTable.exists_entry? (TypeTable.has_of_entry he).1
      (Nat.le_of_not_lt hlt)
    obtain ⟨hi, -⟩ := hannounces.entries k e₀ he₀
    obtain ⟨d, he', -⟩ := hall.entries k e₀ he₀
    cases he.symm.trans he'
    cases hk : e₀.kind <;> simp_all [Kind.isRecord, Kind.isIncomplete]

/-- The records of a built scope are those declared, numbered in the declared order. A member whose
type holds no record that is numbered after its own ends within the declared size, counted without
wrap-around and with all types of the scope defined, if and only if its end is below two to the
64th. -/
theorem build_members_fit {info : DebugInfo} {s : DebugScope} (h : info.build = .ok s) : ∃ ks,
    ks.Pairwise (·.id < ·.id) ∧
    List.Forall₂ (DefinesRecord s.types)
      (info.types.filter fun d => (recordKind? d.kind).isSome) ks ∧
    ∀ k e, s.types.entry? k = some e → e.kind.isRecord → e.kind = k.kind → k ∈ ks := by
  rw [build] at h
  split at h
  · obtain ⟨p, hp, h⟩ := Node.bind_eq_ok h
    have hsound := (finished_defineTypes hp).sound
    obtain ⟨ha, -⟩ := Pending.Sound.addSymbols hsound (List.forall_mem_nil _) h
    have hr := Pending.renews_foldlM DebugScope.types Pending.renews_addSymbol h
    exact defines_types hp ha hr
  · cases h

/-- A path refers to itself and holds points, which are declared before it. -/
def pathInfo : DebugInfo where
  arch := "x64"
  types :=
    [{ name := "Point", kind := "struct", size := 8
       members := [⟨"x", "int", 0⟩, ⟨"y", "int", 4⟩] },
      { name := "Path", kind := "struct", size := 40
        members := [⟨"next", "Path*", 0⟩, ⟨"points", "Point[4]", 8⟩] }]

theorem path_members_fit : ∃ s m, pathInfo.build = .ok s ∧
    m ∈ s.types.members ⟨.record .struct, 6⟩ ∧ m.offset = 8 ∧ s.types.Occupies m.type 32 ∧
    m.offset.toNat + 32 ≤ (40 : UInt64).toNat := by
  have htable : pathInfo.build.toOption.any fun s => decide
      (s.types.entry? ⟨.record .struct, 6⟩ = some
          { kind := .record .struct, name := "Path", size := 40
            members := [⟨"next", ⟨.pointer, 4⟩, 0⟩, ⟨"points", ⟨.array, 5⟩, 8⟩] } ∧
        s.types.sizeLink? ⟨.array, 5⟩ = some (4, ⟨.record .struct, 3⟩) ∧
        s.types.byteSize ⟨.record .struct, 3⟩ = 8) := by decide +kernel
  cases hbuild : pathInfo.build with
  | error e =>
    rw [hbuild] at htable
    cases htable
  | ok s =>
    rw [hbuild] at htable
    obtain ⟨hpath, hlink, hsize⟩ := of_decide_eq_true htable
    have hleaf : s.types.sizeLink? ⟨.record .struct, 3⟩ = none := rfl
    have hbytes : s.types.Occupies ⟨.array, 5⟩ 32 := by
      have h := TypeTable.Occupies.link hlink (.leaf hleaf)
      rw [hsize] at h
      exact h
    obtain ⟨ks, -, hdefines, hall⟩ := build_members_fit hbuild
    obtain ⟨d, -, ⟨kind, visible, -, hdescribes⟩, hmembers⟩ :=
      exists_of_mem_right hdefines (hall _ _ hpath rfl rfl)
    have hmem : ⟨"points", ⟨.array, 5⟩, 8⟩ ∈ s.types.members ⟨.record .struct, 6⟩ := by
      rw [TypeTable.members, hpath]
      exact List.mem_cons_of_mem _ List.mem_cons_self
    obtain ⟨n, hn, -, hfits⟩ := hmembers _ hmem
    obtain rfl := hn.unique hbytes
    have hearly : ∀ r, s.types.Holds ⟨.array, 5⟩ r → r.kind.isRecord → r.id < 6 := by
      intro r hr hrecord
      cases hr with
      | self => cases hrecord
      | link h hl =>
        cases hlink.symm.trans h
        cases hl with
        | self => decide
        | link h hl => cases hleaf.symm.trans h
    obtain ⟨e, he, -, -, hd, -⟩ := hdescribes.entry
    cases hpath.symm.trans he
    have hend := (hfits hearly).2 (by decide)
    rw [← hd] at hend
    exact ⟨s, _, rfl, hmem, rfl, hbytes, hend⟩

/-- Some member of a named record ends past the declared end of the record. -/
def PastEnd (s : DebugScope) (name : Text) : Prop := ∃ k m n, s.types.lookup? name = some k ∧
  k.kind.isRecord ∧ m ∈ s.types.members k ∧ s.types.Occupies m.type n ∧
  (s.types.byteSize k).toNat < m.offset.toNat + n

/-- The end of the field wraps around. -/
def wrappingInfo : DebugInfo where
  arch := "x64"
  types :=
    [{ name := "A", kind := "struct", size := 4
       members := [⟨"x", "int", 0xffffffffffffffff⟩] }]

/-- The field holds a record that is declared later. -/
def forwardInfo : DebugInfo where
  arch := "x64"
  types :=
    [{ name := "A", kind := "struct", size := 1, members := [⟨"b", "B", 0⟩] },
      { name := "B", kind := "struct", size := 8, members := [⟨"y", "long", 0⟩] }]

/-- Neither a member whose end wraps around nor one of a record declared later is refused. -/
theorem members_past_end :
    (∃ s, wrappingInfo.build = .ok s ∧ PastEnd s "A") ∧
    ∃ s, forwardInfo.build = .ok s ∧ PastEnd s "A" := by
  have hwrapping : wrappingInfo.build.toOption.any fun s => decide
      (s.types.lookup? "A" = some ⟨.record .struct, 2⟩ ∧
        s.types.members ⟨.record .struct, 2⟩ = [⟨"x", .basic .s32, 0xffffffffffffffff⟩] ∧
        s.types.byteSize ⟨.record .struct, 2⟩ = 4 ∧ s.types.byteSize (.basic .s32) = 4) := by
    decide +kernel
  have hforward : forwardInfo.build.toOption.any fun s => decide
      (s.types.lookup? "A" = some ⟨.record .struct, 3⟩ ∧
        s.types.members ⟨.record .struct, 3⟩ = [⟨"b", ⟨.incomplete .struct, 2⟩, 0⟩] ∧
        s.types.byteSize ⟨.record .struct, 3⟩ = 1 ∧
        s.types.sizeLink? ⟨.incomplete .struct, 2⟩ = some (1, ⟨.record .struct, 4⟩) ∧
        s.types.byteSize ⟨.record .struct, 4⟩ = 8) := by decide +kernel
  constructor
  · cases hbuild : wrappingInfo.build with
    | error e =>
      rw [hbuild] at hwrapping
      cases hwrapping
    | ok s =>
      rw [hbuild] at hwrapping
      obtain ⟨hname, hmembers, hsize, hint⟩ := of_decide_eq_true hwrapping
      have hmem := List.mem_singleton_self (⟨"x", .basic .s32, 0xffffffffffffffff⟩ : Member)
      rw [← hmembers] at hmem
      refine ⟨s, rfl, _, _, _, hname, rfl, hmem, .leaf rfl, ?_⟩
      rw [hsize, hint]
      decide
  · cases hbuild : forwardInfo.build with
    | error e =>
      rw [hbuild] at hforward
      cases hforward
    | ok s =>
      rw [hbuild] at hforward
      obtain ⟨hname, hmembers, hsize, hlink, hheld⟩ := of_decide_eq_true hforward
      have hleaf : s.types.sizeLink? ⟨.record .struct, 4⟩ = none := rfl
      have hmem := List.mem_singleton_self (⟨"b", ⟨.incomplete .struct, 2⟩, 0⟩ : Member)
      rw [← hmembers] at hmem
      refine ⟨s, rfl, _, _, _, hname, rfl, hmem, .link hlink (.leaf hleaf), ?_⟩
      rw [hsize, hheld]
      decide

end DebugInfo

end WatchExpr
