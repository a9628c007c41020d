import WatchExpr.Proofs.Debug.Construction

namespace WatchExpr

namespace DebugScope

/-- The symbols of a scope, hidden ones included. -/
def symbols (s : DebugScope) : List (Text × Symbol) :=
  s.locals ++ s.globals ++ s.threadLocals ++ s.procedures

theorem types_add (s : DebugScope) (scope : SymbolScope) (sym : Symbol) :
    (s.add scope sym).types = s.types := by
  cases scope <;> rfl

theorem mem_symbols_add {s : DebugScope} {scope : SymbolScope} {sym : Symbol} {b : Text × Symbol}
    (hb : b ∈ (s.add scope sym).symbols) : b ∈ s.symbols ∨ b = (sym.name, sym) := by
  cases scope <;> simp only [add, symbols, List.mem_append, List.mem_cons] at hb ⊢ <;> tauto

end DebugScope

namespace DebugInfo

theorem of_mapError {ε ε' α : Type} {f : ε → ε'} {x : Except ε α} {a : α}
    (h : x.mapError f = .ok a) : x = .ok a := by
  cases x with
  | ok b =>
    cases h
    rfl
  | error e => cases h

/-- A member as declared; its type is the one written, read under some visible names. -/
structure DescribesMember (t : TypeTable) (visible : List (Text × TypeKey)) (d : MemberDecl)
    (m : Member) : Prop where
  name : m.name = d.name
  offset : m.offset = d.offset
  type : t.Denotes visible d.type m.type

/-- A record as declared: complete, with the declared size and the members in declared order. -/
structure DescribesRecord (t : TypeTable) (visible : List (Text × TypeKey)) (d : TypeDecl)
    (kind : RecordKind) (k : TypeKey) : Prop where
  key : k.kind = .record kind
  entry : ∃ e, t.entry? k = some e ∧ e.kind = .record kind ∧ e.name = d.name ∧ e.size = d.size ∧
    List.Forall₂ (DescribesMember t visible) d.members e.members

section
variable {t t' : TypeTable} {visible : List (Text × TypeKey)} {ns : List Text}

theorem DescribesMember.develops {d : MemberDecl} {m : Member}
    (h : DescribesMember t visible d m) (ht : t.Develops ns t') : DescribesMember t' visible d m :=
  ⟨h.name, h.offset, h.type.develops ht⟩

theorem DescribesRecord.develops {d : TypeDecl} {kind : RecordKind} {k : TypeKey}
    (h : DescribesRecord t visible d kind k) (ht : t.Develops ns t') :
    DescribesRecord t' visible d kind k where
  key := h.key
  entry := by
    obtain ⟨e, he, hkind, hname, hsize, hmembers⟩ := h.entry
    obtain ⟨direct, he', -⟩ := ht.entries k e he
    refine ⟨_, he', hkind, hname, hsize, ?_⟩
    exact hmembers.imp fun d m hm => hm.develops ht

end

namespace Pending

variable {p p' : Pending} {ns : List Text} {k : TypeKey} {d : TypeDecl}

/-- The names that types are read under. -/
def visible (p : Pending) : List (Text × TypeKey) := p.types.names ++ p.forwards

theorem Advances.visible (h : p.Advances [] p') : p'.visible = p.visible := by
  obtain ⟨bound, hbound, hnil⟩ := h.types.names
  have hb : bound = [] := List.eq_nil_iff_forall_not_mem.2 fun b hb => List.not_mem_nil (hnil b hb)
  rw [Pending.visible, hbound, hb, h.forwards]
  rfl

theorem Sound.named (h : p.Sound) {e : TypeEntry} {name : Text} (hc : e.kind.isIncomplete = false)
    (ho : e.owner = .zero) (hp : e.params = []) (hm : e.members = []) (hd : p.Knows e.direct) :
    p.Advances [name] { p with types := (p.types.add { e with name }).2 } :=
  (h.add (e := { e with name }) hc (knows_links_direct ho hp hm hd)).1

theorem Sound.defineName (h : p.Sound) (hp : p.defineName d = .ok p') :
    p.Advances [d.name] p' := by
  rw [Pending.defineName] at hp
  split at hp
  · cases hp
    exact h.advances _
  split at hp
  · obtain ⟨⟨k, p₁⟩, hk, hp⟩ := Node.bind_eq_ok hp
    obtain ⟨⟨enum, types⟩, ht, hp⟩ := Node.bind_eq_ok hp
    cases hp
    obtain ⟨ha, hk, -⟩ := h.parse (of_mapError hk)
    have ht := of_mapError ht
    rw [TypeTable.defineEnum] at ht
    split at ht
    · obtain rfl := congrArg Prod.snd (Except.ok.inj ht)
      exact ha.trans (ha.sound.named (e := { kind := .enum, direct := k }) rfl rfl rfl rfl hk)
    · cases ht
  split at hp
  · obtain ⟨⟨k, p₁⟩, hk, hp⟩ := Node.bind_eq_ok hp
    cases hp
    obtain ⟨ha, hk, -⟩ := h.parse (of_mapError hk)
    exact ha.trans (ha.sound.named (e := { kind := .typedef, direct := k }) rfl rfl rfl rfl hk)
  · cases hp

/-- One member is read and checked against the declared size. -/
def addMember (d : TypeDecl) : List Member × Pending → MemberDecl →
    Except BuildError (List Member × Pending) := fun (ms, p) m => do
  let (type, p) ← (p.parse m.type).mapError (.memberType d.name m.name)
  if m.offset + p.types.byteSize type > d.size then throw (.memberPastEnd d.name m.name)
  return (ms ++ [⟨m.name, type, m.offset⟩], p)

theorem members_eq (p : Pending) (d : TypeDecl) :
    p.members d = d.members.foldlM (addMember d) ([], p) := rfl

/-- A member that is accepted ends within the declared size, as far as the table knows sizes. -/
theorem addMember_eq_ok {m : MemberDecl} {ms ms' : List Member}
    (hp : Pending.addMember d (ms, p) m = .ok (ms', p')) : ∃ k, p.parse m.type = .ok (k, p') ∧
      ms' = ms ++ [⟨m.name, k, m.offset⟩] ∧ m.offset + p'.types.byteSize k ≤ d.size := by
  obtain ⟨⟨k, p₁⟩, hk, hp⟩ := Node.bind_eq_ok hp
  simp only at hp
  split at hp
  · cases hp
  · rename_i hle
    cases hp
    exact ⟨k, of_mapError hk, rfl, UInt64.not_lt.1 hle⟩

theorem Sound.addMember (h : p.Sound) {m : MemberDecl} {ms ms' : List Member}
    (hp : Pending.addMember d (ms, p) m = .ok (ms', p')) : p.Advances [] p' ∧ ∃ added,
      ms' = ms ++ [added] ∧ p'.Knows added.type ∧
      DescribesMember p'.types p.visible m added := by
  obtain ⟨k, hk, rfl, -⟩ := addMember_eq_ok hp
  obtain ⟨ha, hk, hd⟩ := h.parse hk
  exact ⟨ha, _, rfl, hk, rfl, rfl, hd⟩

theorem Sound.members (h : p.Sound) {l : List MemberDecl} {ms ms' : List Member}
    (hp : l.foldlM (Pending.addMember d) (ms, p) = .ok (ms', p')) : p.Advances [] p' ∧
      ∃ added, ms' = ms ++ added ∧ (∀ m ∈ added, p'.Knows m.type) ∧
      List.Forall₂ (DescribesMember p'.types p.visible) l added := by
  induction l generalizing p ms with
  | nil =>
    cases hp
    exact ⟨h.advances [], [], (List.append_nil _).symm, List.forall_mem_nil _, .nil⟩
  | cons m l ih =>
    rw [List.foldlM_cons] at hp
    obtain ⟨⟨ms₁, p₁⟩, hm, hp⟩ := Node.bind_eq_ok hp
    obtain ⟨ha, first, rfl, hknows, hfirst⟩ := h.addMember hm
    obtain ⟨ha', rest, rfl, hknows', hrest⟩ := ih ha.sound hp
    refine ⟨ha.trans ha', first :: rest, by simp, ?_, .cons (hfirst.develops ha'.types) ?_⟩
    · exact List.forall_mem_cons.2 ⟨hknows.advances ha', hknows'⟩
    · rw [← ha.visible]
      exact hrest

theorem lookup?_add {t : TypeTable} {e : TypeEntry} (hn : e.name ≠ [])
    (hm : e.kind ≠ .modifier) : (t.add e).2.lookup? e.name = some (t.add e).1 := by
  have hcond : (e.name.isEmpty || e.kind == .modifier) = false := by simp [hn, hm]
  simp only [TypeTable.add, hcond]
  rw [if_neg Bool.false_ne_true, TypeTable.lookup?, List.lookup_cons_self]

theorem Sound.defineRecord (h : p.Sound) {kind : RecordKind}
    (hkind : recordKind? d.kind = some kind) (hp : p.defineRecord d = .ok p') :
    p.Advances [d.name] p' ∧ ∃ k,
      (∃ p₁, p.members d = .ok (p'.types.members k, p₁) ∧ k.id = p₁.types.entries.size + 1) ∧
      DescribesRecord p'.types p.visible d kind k ∧
      (d.name ≠ [] → p'.types.lookup? d.name = some k) ∧
      ∀ f, p.forwards.lookup d.name = some f → (p'.types.direct f).kind.isRecord := by
  rw [Pending.defineRecord, hkind] at hp
  obtain ⟨⟨ms, p₁⟩, hms, hp⟩ := Node.bind_eq_ok hp
  obtain ⟨ha, _, rfl, hknows, hmembers⟩ := h.members (p.members_eq d ▸ hms)
  let e : TypeEntry := { kind := .record kind, name := d.name, size := d.size, members := ms }
  have hlinks : ∀ k ∈ e.links, p₁.Knows k := by
    intro k hk
    obtain rfl | hk := List.mem_cons.1 hk
    · exact knows_zero
    obtain rfl | hk := List.mem_cons.1 hk
    · exact knows_zero
    obtain ⟨m, hm, rfl⟩ := List.mem_map.1 hk
    exact hknows m hm
  obtain ⟨ha', hk⟩ := ha.sound.add (e := e) rfl hlinks
  have hkey : (p₁.types.add e).1.kind = .record kind := p₁.types.kind_add e
  have hlookup (hn : d.name ≠ []) : (p₁.types.add e).2.lookup? d.name = some (p₁.types.add e).1 :=
    lookup?_add (e := e) hn nofun
  have hentry : TypeTable.entry? (p₁.types.add e).2 (p₁.types.add e).1 = some e := by
    rw [TypeTable.key_add]
    exact TypeTable.entry?_push (p₁.types.entries_add e) e.kind
  have hdescribes : DescribesRecord (p₁.types.add e).2 p.visible d kind (p₁.types.add e).1 :=
    ⟨hkey, e, hentry, rfl, rfl, rfl, hmembers.imp fun _ _ hm => hm.develops ha'.types⟩
  have hread {t : TypeTable} {ns : List Text} (ht : (p₁.types.add e).2.Develops ns t) :
      ∃ p₁', p.members d = .ok (t.members (p₁.types.add e).1, p₁') ∧
        (p₁.types.add e).1.id = p₁'.types.entries.size + 1 := by
    refine ⟨p₁, ?_, by rw [TypeTable.key_add]⟩
    rw [ht.members hentry]
    exact hms
  simp only at hp
  split at hp
  · rename_i hf
    cases hp
    refine ⟨ha.trans ha', _, hread (.refl [] _), hdescribes, hlookup, fun f hf' => ?_⟩
    rw [← ha.forwards, hf] at hf'
    cases hf'
  · rename_i f hf
    obtain ⟨types, ht, hp⟩ := Node.bind_eq_ok hp
    cases hp
    have hbound (hn : d.name ≠ []) := TypeTable.mem_of_lookup (hlookup hn)
    obtain ⟨ha'', hdirect⟩ :=
      ha'.sound.complete hf hk (by rw [hkey]; rfl) hbound (of_mapError ht)
    refine ⟨(ha.trans ha').trans ha'', _, hread ha''.types, hdescribes.develops ha''.types, ?_,
      fun f' hf' => ?_⟩
    · intro hn
      exact ha''.types.lookup? List.not_mem_nil (hlookup hn)
    · rw [← ha.forwards, hf] at hf'
      cases hf'
      rw [hdirect, hkey]
      rfl

theorem Sound.advances_defineRecord (h : p.Sound) (hp : p.defineRecord d = .ok p') :
    p.Advances [d.name] p' := by
  cases hkind : recordKind? d.kind with
  | none =>
    rw [Pending.defineRecord, hkind] at hp
    cases hp
    exact h.advances _
  | some kind => exact (h.defineRecord hkind hp).1

/-- A pass over some declarations binds only their names. -/
theorem Sound.pass {f : Pending → TypeDecl → Except BuildError Pending}
    (hf : ∀ {p p' : Pending} {d : TypeDecl}, p.Sound → f p d = .ok p' → p.Advances [d.name] p')
    (h : p.Sound) {ds : List TypeDecl} (hp : ds.foldlM f p = .ok p') :
    p.Advances (ds.map (·.name)) p' := by
  induction ds generalizing p with
  | nil =>
    cases hp
    exact h.advances _
  | cons d ds ih =>
    rw [List.foldlM_cons] at hp
    obtain ⟨p₁, hd, hp⟩ := Node.bind_eq_ok hp
    have ha := hf h hd
    exact ha.trans (ih ha.sound hp)

/-- Nothing but forward declarations of some records. -/
structure Announces (ds : List TypeDecl) (p : Pending) : Prop where
  entries : ∀ k e, p.types.entry? k = some e → e.kind.isIncomplete ∧ ∀ l ∈ e.links, l = .zero
  names : p.types.names = []
  pointers : p.types.pointers = []
  arrays : p.types.arrays = []
  forwards : ∀ name f, p.forwards.lookup name = some f → f.kind.isIncomplete ∧
    (∃ e, p.types.entry? f = some e ∧ e.kind = f.kind ∧ e.name = name) ∧
    ∃ d ∈ ds, d.name = name ∧ (recordKind? d.kind).isSome

theorem Announces.sound {ds : List TypeDecl} (h : p.Announces ds) : p.Sound where
  links k e he l hl := by
    rw [(h.entries k e he).2 l hl]
    exact knows_zero
  names := by
    rw [h.names]
    exact List.forall_mem_nil _
  pointers := by
    rw [h.pointers]
    exact List.forall_mem_nil _
  arrays := by
    rw [h.arrays]
    exact List.forall_mem_nil _
  earlier k e he hc := by
    rw [(h.entries k e he).1] at hc
    cases hc
  forwards name f hf := by
    obtain ⟨hi, ⟨e, he, hkind, hname⟩, -⟩ := h.forwards name f hf
    exact ⟨hi, e, he, hkind, hname, .inl ((h.entries f e he).2 _ List.mem_cons_self)⟩

theorem Announces.announce {ds : List TypeDecl} (h : p.Announces ds) (d : TypeDecl) :
    (p.announce d).Announces (ds ++ [d]) := by
  have hmono {name : Text} : (∃ d ∈ ds, d.name = name ∧ (recordKind? d.kind).isSome) →
      ∃ d' ∈ ds ++ [d], d'.name = name ∧ (recordKind? d'.kind).isSome := by
    rintro ⟨d', hd', hname⟩
    exact ⟨d', List.mem_append_left _ hd', hname⟩
  rw [Pending.announce]
  cases hkind : recordKind? d.kind with
  | none =>
    refine ⟨h.entries, h.names, h.pointers, h.arrays, fun name f hf => ?_⟩
    obtain ⟨hi, he, hd⟩ := h.forwards name f hf
    exact ⟨hi, he, hmono hd⟩
  | some kind =>
    let e : TypeEntry := { kind := .incomplete (forwardOf kind), name := d.name }
    have hpush : (p.types.append e).2.entries = p.types.entries.push e := rfl
    refine ⟨fun k e' he' => ?_, h.names, h.pointers, h.arrays, fun name f hf => ?_⟩
    · obtain he' | ⟨-, rfl⟩ := TypeTable.entry?_push_cases hpush he'
      · exact h.entries k e' he'
      · refine ⟨rfl, fun l hl => ?_⟩
        simpa [TypeEntry.links, e] using hl
    · obtain ⟨rfl, rfl⟩ | hf := TypeTable.lookup_cons_cases hf
      · refine ⟨rfl, ⟨e, TypeTable.entry?_push hpush e.kind, rfl, rfl⟩, d, by simp, rfl, ?_⟩
        rw [hkind]
        rfl
      · obtain ⟨hi, ⟨e', he', hkind', hname'⟩, hd⟩ := h.forwards name f hf
        exact ⟨hi, ⟨e', TypeTable.extends_of_push hpush he', hkind', hname'⟩, hmono hd⟩

theorem Announces.foldl {ds ds' : List TypeDecl} (h : p.Announces ds) :
    (ds'.foldl Pending.announce p).Announces (ds ++ ds') := by
  induction ds' generalizing p ds with
  | nil =>
    rw [List.append_nil]
    exact h
  | cons d ds' ih =>
    rw [List.foldl_cons, List.append_cons]
    exact ih (h.announce d)

theorem announces_empty (pointerSize : Int) :
    Announces [] { types := .empty pointerSize } where
  entries k e he := by
    simp [TypeTable.entry?, TypeTable.empty] at he
  names := rfl
  pointers := rfl
  arrays := rfl
  forwards := nofun

end Pending

theorem foldlM_split {ε α β : Type} {f : β → α → Except ε β} {l : List α} {a : α} (ha : a ∈ l)
    {b b' : β} (h : l.foldlM f b = .ok b') : ∃ before after b₁ b₂, l = before ++ a :: after ∧
      before.foldlM f b = .ok b₁ ∧ f b₁ a = .ok b₂ ∧ after.foldlM f b₂ = .ok b' := by
  obtain ⟨before, after, rfl⟩ := List.append_of_mem ha
  rw [List.foldlM_append] at h
  obtain ⟨b₁, h₁, h⟩ := Node.bind_eq_ok h
  rw [List.foldlM_cons] at h
  obtain ⟨b₂, h₂, h⟩ := Node.bind_eq_ok h
  exact ⟨before, after, b₁, b₂, rfl, h₁, h₂, h⟩

/-- The types of a finished scope: all that was announced is complete, and a record whose name was
declared once is found under it. -/
structure Finished (decls : List TypeDecl) (p : Pending) : Prop where
  sound : p.Sound
  complete : ∀ name f, p.forwards.lookup name = some f → (p.types.direct f).kind.isRecord
  records : ∀ d ∈ decls, ∀ kind, recordKind? d.kind = some kind →
    (decls.map (·.name)).count d.name = 1 → d.name ≠ [] → ∃ k visible,
      p.types.lookup? d.name = some k ∧ DescribesRecord p.types visible d kind k ∧
      ∀ name l, visible.lookup name = some l →
        (name, l) ∈ p.types.names ∨ p.forwards.lookup name = some l

theorem finished_defineTypes {pointerSize : Int} {decls : List TypeDecl} {p : Pending}
    (h : defineTypes (.empty pointerSize) decls = .ok p) : Finished decls p := by
  obtain ⟨named, hnamed, hrecords⟩ := Node.bind_eq_ok h
  have hannounces : Pending.Announces ([] ++ decls) (decls.foldl Pending.announce _) :=
    (Pending.announces_empty pointerSize).foldl
  have ha₁ := hannounces.sound.pass (fun h => h.defineName) hnamed
  have ha₂ := ha₁.sound.pass (fun h => h.advances_defineRecord) hrecords
  have hforwards : p.forwards = (decls.foldl Pending.announce
      { types := .empty pointerSize }).forwards := ha₂.forwards.trans ha₁.forwards
  refine ⟨ha₂.sound, ?_, ?_⟩
  · intro name f hf
    rw [hforwards] at hf
    obtain ⟨-, -, d, hd, rfl, hkind⟩ := hannounces.forwards name f hf
    obtain ⟨kind, hkind⟩ := Option.isSome_iff_exists.1 hkind
    obtain ⟨before, after, p₁, p₂, -, hbefore, hstep, hafter⟩ := foldlM_split hd hrecords
    have hb := ha₁.sound.pass (fun h => h.advances_defineRecord) hbefore
    obtain ⟨hs, k, -, -, -, hcomplete⟩ := hb.sound.defineRecord hkind hstep
    have hl := hs.sound.pass (fun h => h.advances_defineRecord) hafter
    refine hl.types.isRecord_direct (hcomplete f ?_)
    rw [hb.forwards, ha₁.forwards]
    exact hf
  · intro d hd kind hkind hcount hname
    obtain ⟨before, after, p₁, p₂, hdecls, hbefore, hstep, hafter⟩ := foldlM_split hd hrecords
    have hb := ha₁.sound.pass (fun h => h.advances_defineRecord) hbefore
    obtain ⟨hs, k, -, hdescribes, hlookup, -⟩ := hb.sound.defineRecord hkind hstep
    have hl := hs.sound.pass (fun h => h.advances_defineRecord) hafter
    have hfresh : d.name ∉ after.map (·.name) := by
      intro hmem
      rw [hdecls, List.map_append, List.map_cons, List.count_append, List.count_cons_self] at hcount
      have := List.count_pos_iff.2 hmem
      omega
    refine ⟨k, p₁.visible, hl.types.lookup? hfresh (hlookup hname),
      hdescribes.develops hl.types, ?_⟩
    intro name l hvisible
    rw [Pending.visible, List.lookup_append, Option.or_eq_some_iff] at hvisible
    obtain hvisible | ⟨-, hvisible⟩ := hvisible
    · have hmem := hs.types.mem_names (TypeTable.mem_of_lookup hvisible)
      exact .inl (hl.types.mem_names hmem)
    · rw [hl.forwards, hs.forwards]
      exact .inr hvisible

namespace Pending

variable {p p' : Pending} {ns : List Text} {k l : TypeKey}

theorem Sound.function (h : p.Sound) (hk : p.Knows k) :
    p.Advances [] { p with types := (p.types.defineFunction k []).2 } ∧
      Knows { p with types := (p.types.defineFunction k []).2 }
        (p.types.defineFunction k []).1 := by
  have hlinks := knows_links_direct (e := { kind := .function, direct := k }) rfl rfl rfl hk
  obtain ⟨⟨hs, hf, ht⟩, hknows⟩ := h.add (e := { kind := .function, direct := k }) rfl hlinks
  refine ⟨⟨hs, hf, ht.size_le, ht.entries, ?_, ht.recalls⟩, hknows⟩
  exact ⟨[], rfl, List.forall_mem_nil _⟩

theorem Sound.symbolType (h : p.Sound) {d : SymbolDecl}
    (hp : DebugInfo.symbolType p d = .ok (k, p')) : p.Advances [] p' ∧ p'.Knows k := by
  rw [DebugInfo.symbolType] at hp
  split at hp
  · obtain ⟨ha, hk, -⟩ := h.parse (of_mapError hp)
    exact ⟨ha, hk⟩
  split at hp
  · cases hp
    exact h.function knows_basic
  · cases hp

theorem type_locate {arch : Arch} {sym sym' : Symbol} {d : SymbolDecl}
    (h : locate arch sym d = .ok sym') : sym'.type = sym.type := by
  rw [locate] at h
  split at h
  · cases h
    rfl
  split at h
  · cases h
  rename_i location _
  cases location with
  | addressCode | valueCode =>
    simp only at h
    split at h
    · cases h
    · split at h
      · cases h
      · cases h
        rfl
  | registerOffset | registerOffsetStored | register =>
    simp only at h
    split at h
    · cases h
    · cases h
      rfl
  | _ =>
    cases h
    rfl

variable {s s' : DebugScope} {forwards : List (Text × TypeKey)}

theorem Sound.addSymbol (h : Sound ⟨s.types, forwards⟩) {d : SymbolDecl}
    (hp : DebugInfo.addSymbol s forwards d = .ok s') :
    Advances [] ⟨s.types, forwards⟩ ⟨s'.types, forwards⟩ ∧
      ∀ b ∈ s'.symbols, b ∈ s.symbols ∨ Knows ⟨s'.types, forwards⟩ b.2.type := by
  rw [DebugInfo.addSymbol] at hp
  split at hp
  · cases hp
  obtain ⟨⟨k, p⟩, hk, hscope⟩ := Node.bind_eq_ok hp
  obtain ⟨ha, hknows⟩ := h.symbolType hk
  have hf : forwards = p.forwards := ha.forwards.symm
  subst hf
  have hadd {sym : Symbol} (hsym : sym.type = k) (scope : SymbolScope)
      (hs : { s with types := p.types }.add scope sym = s') :
      Advances [] ⟨s.types, p.forwards⟩ ⟨s'.types, p.forwards⟩ ∧
        ∀ b ∈ s'.symbols, b ∈ s.symbols ∨ Knows ⟨s'.types, p.forwards⟩ b.2.type := by
    subst hs
    rw [DebugScope.types_add]
    refine ⟨ha, fun b hb => ?_⟩
    obtain hb | rfl := DebugScope.mem_symbols_add hb
    · exact .inl hb
    · right
      rw [hsym]
      exact hknows
  simp only at hscope
  split at hscope
  · obtain ⟨sym, hsym, hadded⟩ := Node.bind_eq_ok hscope
    exact hadd (type_locate hsym) .procLocal (Except.ok.inj hadded)
  split at hscope
  · exact hadd rfl .global (Except.ok.inj hscope)
  split at hscope
  · exact hadd rfl .threadLocal (Except.ok.inj hscope)
  split at hscope
  · exact hadd rfl .procedure (Except.ok.inj hscope)
  · cases hscope

theorem Sound.addSymbols (h : Sound ⟨s.types, forwards⟩) {ds : List SymbolDecl}
    (hs : ∀ b ∈ s.symbols, Knows ⟨s.types, forwards⟩ b.2.type)
    (hp : ds.foldlM (fun s d => DebugInfo.addSymbol s forwards d) s = .ok s') :
    Advances [] ⟨s.types, forwards⟩ ⟨s'.types, forwards⟩ ∧
      ∀ b ∈ s'.symbols, Knows ⟨s'.types, forwards⟩ b.2.type := by
  induction ds generalizing s with
  | nil =>
    cases hp
    exact ⟨h.advances [], hs⟩
  | cons d ds ih =>
    rw [List.foldlM_cons] at hp
    obtain ⟨s₁, hd, hp⟩ := Node.bind_eq_ok hp
    obtain ⟨ha, hadded⟩ := h.addSymbol hd
    have hs₁ : ∀ b ∈ s₁.symbols, Knows ⟨s₁.types, forwards⟩ b.2.type := by
      intro b hb
      obtain hb | hb := hadded b hb
      · exact (hs b hb).advances ha
      · exact hb
    obtain ⟨ha', hs'⟩ := ih ha.sound hs₁ hp
    exact ⟨ha.trans ha', hs'⟩

end Pending

/-- A built scope has the types that its declarations define, and symbols of known types. -/
theorem finished_build {info : DebugInfo} {s : DebugScope} (h : info.build = .ok s) :
    ∃ p, Finished info.types p ∧ Pending.Advances [] p ⟨s.types, p.forwards⟩ ∧
      ∀ b ∈ s.symbols, Pending.Knows ⟨s.types, p.forwards⟩ b.2.type := by
  rw [build] at h
  split at h
  · obtain ⟨p, hp, h⟩ := Node.bind_eq_ok h
    have hfinished := finished_defineTypes hp
    exact ⟨p, hfinished, Pending.Sound.addSymbols hfinished.sound (List.forall_mem_nil _) h⟩
  · cases h

end DebugInfo

end WatchExpr
