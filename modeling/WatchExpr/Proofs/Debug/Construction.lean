import WatchExpr.Debug.Info
import WatchExpr.Proofs.Tree.Simulation
import WatchExpr.Proofs.Types.Development

namespace WatchExpr

namespace DebugInfo

namespace Pending

variable {p p' p₁ p₂ : Pending} {ns ns' : List Text} {k : TypeKey}

/-- A key of the table under construction. Its entry has its kind, and a forward declaration is one
of those announced. -/
structure Knows (p : Pending) (k : TypeKey) : Prop where
  entry : k.id ≠ 0 → ∃ e, p.types.entry? k = some e ∧ e.kind = k.kind
  forward : k.kind.isIncomplete → ∃ name, p.forwards.lookup name = some k

/-- What holds of a table under construction at every moment. -/
structure Sound (p : Pending) : Prop where
  links : ∀ k e, p.types.entry? k = some e → ∀ l ∈ e.links, p.Knows l
  names : ∀ b ∈ p.types.names, p.Knows b.2
  pointers : ∀ b ∈ p.types.pointers, p.Knows b.2
  arrays : ∀ b ∈ p.types.arrays, p.Knows b.2
  /-- A link leads to an earlier entry. -/
  earlier : ∀ k e, p.types.entry? k = some e → e.kind.isIncomplete = false → e.direct.id < k.id
  /-- A forward declaration stands for the record that its name was bound to. -/
  forwards : ∀ name f, p.forwards.lookup name = some f → f.kind.isIncomplete ∧
    ∃ e, p.types.entry? f = some e ∧ e.kind = f.kind ∧ e.name = name ∧
      (e.direct = .zero ∨ e.direct.kind.isRecord ∧ (name ≠ [] → (name, e.direct) ∈ p.types.names))

/-- A sound construction after some steps that bound only some names. -/
structure Advances (ns : List Text) (p p' : Pending) : Prop where
  sound : p'.Sound
  forwards : p'.forwards = p.forwards
  types : p.types.Develops ns p'.types

theorem Sound.advances (h : p.Sound) (ns : List Text) : p.Advances ns p := ⟨h, rfl, .refl ns _⟩

theorem Advances.trans (h : p.Advances ns p₁) (h' : p₁.Advances ns' p₂) :
    p.Advances (ns ++ ns') p₂ :=
  ⟨h'.sound, h'.forwards.trans h.forwards, h.types.trans h'.types⟩

theorem knows_basic {b : BasicKind} : p.Knows (.basic b) := ⟨fun h => absurd rfl h, nofun⟩

theorem knows_zero : p.Knows .zero := ⟨fun h => absurd rfl h, nofun⟩

theorem Knows.has (h : p.Knows k) : p.types.Has k := by
  by_cases hid : k.id = 0
  · rw [TypeTable.Has, hid]
    exact Nat.zero_le _
  · obtain ⟨e, he, -⟩ := h.entry hid
    rw [TypeTable.entry?, if_neg hid] at he
    obtain ⟨hi, -⟩ := Array.getElem?_eq_some_iff.1 he
    rw [TypeTable.Has]
    omega

theorem Knows.kind_entry (h : p.Knows k) {e : TypeEntry} (he : p.types.entry? k = some e) :
    e.kind = k.kind := by
  have hid : k.id ≠ 0 := by
    intro hid
    rw [TypeTable.entry?, if_pos hid] at he
    cases he
  obtain ⟨e', he', hkind⟩ := h.entry hid
  cases he.symm.trans he'
  exact hkind

theorem Knows.develops (h : p.Knows k) (hf : p'.forwards = p.forwards)
    (ht : p.types.Develops ns p'.types) : p'.Knows k where
  entry hid := by
    obtain ⟨e, he, hkind⟩ := h.entry hid
    obtain ⟨d, he', -⟩ := ht.entries k e he
    exact ⟨_, he', hkind⟩
  forward hi := by
    rw [hf]
    exact h.forward hi

theorem Knows.advances (h : p.Knows k) (ha : p.Advances ns p') : p'.Knows k :=
  h.develops ha.forwards ha.types

theorem Sound.knows_lookup (h : p.Sound) {name : Text}
    (hk : (p.types.names ++ p.forwards).lookup name = some k) : p.Knows k := by
  rw [List.lookup_append, Option.or_eq_some_iff] at hk
  obtain hk | ⟨-, hk⟩ := hk
  · exact h.names _ (TypeTable.mem_of_lookup hk)
  · obtain ⟨-, e, he, hkind, -⟩ := h.forwards name k hk
    exact ⟨fun _ => ⟨e, he, hkind⟩, fun _ => ⟨name, hk⟩⟩

/-- A definition whose links are known keeps the construction sound; what was bound or interned
meanwhile has the key of the definition. -/
theorem Sound.push (h : p.Sound) {types : TypeTable} {e : TypeEntry}
    (hc : e.kind.isIncomplete = false) (he : ∀ k ∈ e.links, p.Knows k)
    (hentries : types.entries = p.types.entries.push e) (ht : p.types.Develops ns types)
    (hnames : ∀ b ∈ types.names, b ∈ p.types.names ∨ b.2 = ⟨e.kind, p.types.entries.size + 1⟩)
    (hpointers : ∀ b ∈ types.pointers,
      b ∈ p.types.pointers ∨ b.2 = ⟨e.kind, p.types.entries.size + 1⟩)
    (harrays : ∀ b ∈ types.arrays,
      b ∈ p.types.arrays ∨ b.2 = ⟨e.kind, p.types.entries.size + 1⟩) :
    p.Advances ns { p with types } ∧
      Knows { p with types } ⟨e.kind, p.types.entries.size + 1⟩ := by
  have hold (k : TypeKey) (hk : p.Knows k) : Knows { p with types } k := hk.develops rfl ht
  have hnew : Knows { p with types } ⟨e.kind, p.types.entries.size + 1⟩ := by
    refine ⟨fun _ => ⟨e, TypeTable.entry?_push hentries e.kind, rfl⟩, fun hi => ?_⟩
    rw [hc] at hi
    cases hi
  have hor {k : TypeKey} (hk : p.Knows k ∨ k = ⟨e.kind, p.types.entries.size + 1⟩) :
      Knows { p with types } k := by
    obtain hk | rfl := hk
    · exact hold k hk
    · exact hnew
  refine ⟨⟨?_, rfl, ht⟩, hnew⟩
  constructor
  · intro k e' he' l hl
    obtain he' | ⟨-, rfl⟩ := TypeTable.entry?_push_cases hentries he'
    · exact hold l (h.links k e' he' l hl)
    · exact hold l (he l hl)
  · intro b hb
    exact hor ((hnames b hb).imp_left (h.names b))
  · intro b hb
    exact hor ((hpointers b hb).imp_left (h.pointers b))
  · intro b hb
    exact hor ((harrays b hb).imp_left (h.arrays b))
  · intro k e' he' hc'
    obtain he' | ⟨hid, rfl⟩ := TypeTable.entry?_push_cases hentries he'
    · exact h.earlier k e' he' hc'
    · have hd := (he e'.direct List.mem_cons_self).has
      rw [TypeTable.Has] at hd
      omega
  · intro name f hf
    obtain ⟨hi, e', he', hkind, hname, hd⟩ := h.forwards name f hf
    refine ⟨hi, e', TypeTable.extends_of_push hentries he', hkind, hname, hd.imp_right ?_⟩
    exact fun hd => ⟨hd.1, fun hne => ht.mem_names (hd.2 hne)⟩

theorem Sound.add (h : p.Sound) {e : TypeEntry} (hc : e.kind.isIncomplete = false)
    (he : ∀ k ∈ e.links, p.Knows k) :
    p.Advances [e.name] { p with types := (p.types.add e).2 } ∧
      Knows { p with types := (p.types.add e).2 } (p.types.add e).1 := by
  rw [TypeTable.key_add]
  refine h.push hc he (p.types.entries_add e) (p.types.develops_add e) ?_ ?_ ?_
  · intro b hb
    simp only [TypeTable.add] at hb
    split at hb
    · exact .inl hb
    · obtain rfl | hb := List.mem_cons.1 hb
      · exact .inr rfl
      · exact .inl hb
  · intro b hb
    simp only [TypeTable.add] at hb
    split at hb <;> exact .inl hb
  · intro b hb
    simp only [TypeTable.add] at hb
    split at hb <;> exact .inl hb

theorem knows_links_direct {e : TypeEntry} (ho : e.owner = .zero) (hp : e.params = [])
    (hm : e.members = []) (hd : p.Knows e.direct) : ∀ k ∈ e.links, p.Knows k := by
  intro k hk
  simp only [TypeEntry.links, ho, hp, hm, List.map_nil, List.append_nil, List.mem_cons,
    List.not_mem_nil, or_false] at hk
  obtain rfl | rfl := hk
  · exact hd
  · exact knows_zero

theorem Sound.pointer (h : p.Sound) (hk : p.Knows k) :
    p.Advances [] { p with types := (p.types.pointer k).2 } ∧
      Knows { p with types := (p.types.pointer k).2 } (p.types.pointer k).1 := by
  have hd := (p.types.grows_pointer k).develops []
  rw [TypeTable.pointer] at hd ⊢
  split
  · rename_i f hf
    exact ⟨h.advances [], h.pointers _ (TypeTable.mem_of_lookup hf)⟩
  · rename_i hl
    simp only [hl] at hd
    have hunnamed := p.types.add_unnamed (e := { kind := .pointer, direct := k }) rfl
    simp only [hunnamed] at hd ⊢
    refine h.push rfl (knows_links_direct rfl rfl rfl hk) rfl hd ?_ ?_ ?_
    · exact fun b hb => .inl hb
    · intro b hb
      obtain rfl | hb := List.mem_cons.1 hb
      · exact .inr rfl
      · exact .inl hb
    · exact fun b hb => .inl hb

theorem Sound.array (h : p.Sound) (hk : p.Knows k) (count : UInt64) :
    p.Advances [] { p with types := (p.types.array k count).2 } ∧
      Knows { p with types := (p.types.array k count).2 } (p.types.array k count).1 := by
  have hd := (p.types.grows_array k count).develops []
  rw [TypeTable.array] at hd ⊢
  split
  · rename_i f hf
    exact ⟨h.advances [], h.arrays _ (TypeTable.mem_of_lookup hf)⟩
  · rename_i hl
    simp only [hl] at hd
    have hunnamed := p.types.add_unnamed (e := { kind := .array, direct := k, count }) rfl
    simp only [hunnamed] at hd ⊢
    refine h.push rfl (knows_links_direct rfl rfl rfl hk) rfl hd ?_ ?_ ?_
    · exact fun b hb => .inl hb
    · exact fun b hb => .inl hb
    · intro b hb
      obtain rfl | hb := List.mem_cons.1 hb
      · exact .inr rfl
      · exact .inl hb

theorem Sound.key (h : p.Sound) {e : TypeExpr} (hk : p.Knows e.base) :
    p.Advances [] { p with types := (e.key p.types).2 } ∧
      Knows { p with types := (e.key p.types).2 } (e.key p.types).1 := by
  induction e with
  | named span name k => exact ⟨h.advances [], hk⟩
  | pointer span elem ih =>
    obtain ⟨ha, hk'⟩ := ih hk
    simp only [TypeExpr.key]
    split
    · exact ⟨ha, knows_zero⟩
    · obtain ⟨ha', hk''⟩ := ha.sound.pointer hk'
      exact ⟨ha.trans ha', hk''⟩
  | array span elem count ih =>
    obtain ⟨ha, hk'⟩ := ih hk
    simp only [TypeExpr.key]
    split
    · exact ⟨ha, knows_zero⟩
    · obtain ⟨ha', hk''⟩ := ha.sound.array hk' count
      exact ⟨ha.trans ha', hk''⟩

/-- A type name is read under the visible names, and only interning changes the table. -/
theorem parse_eq_ok {text : Text} (hp : p.parse text = .ok (k, p')) :
    ∃ (e : TypeExpr) (t : TypeTable),
      ({ p.types with names := p.types.names ++ p.forwards } : TypeTable).parseName text =
        .ok (k, t) ∧
      (TypeExpr.read { types := { p.types with names := p.types.names ++ p.forwards } } text
        (Lexer.scan text)).type = some e ∧
      { t with names := p.types.names } = (e.key p.types).2 ∧
      (e.key p.types).1 = k ∧ { p with types := (e.key p.types).2 } = p' := by
  obtain ⟨⟨k', t⟩, ht, hp⟩ := Node.bind_eq_ok hp
  cases hp
  obtain ⟨e, he, hkey, -⟩ := TypeTable.parseName_eq_ok ht
  rw [TypeTable.key_names] at hkey
  obtain ⟨rfl, rfl⟩ := Prod.mk.inj hkey
  have hnames : ({ (e.key p.types).2 with names := p.types.names } : TypeTable) =
      (e.key p.types).2 := by
    rw [← (TypeTable.grows_key p.types e).names]
  refine ⟨e, _, ht, he, hnames, rfl, ?_⟩
  simp only [hnames]

/-- A type name gives a known key, and it denotes the same type from then on under the names that
are visible now. -/
theorem Sound.parse (h : p.Sound) {text : Text} (hp : p.parse text = .ok (k, p')) :
    p.Advances [] p' ∧ p'.Knows k ∧ p'.types.Denotes (p.types.names ++ p.forwards) text k := by
  obtain ⟨e, t, ht, he, hsame, rfl, rfl⟩ := parse_eq_ok hp
  have hbase : p.Knows e.base := by
    obtain ⟨b, hb⟩ | ⟨name, hb⟩ := TypeExpr.base_read he
    · rw [hb]
      exact knows_basic
    · exact h.knows_lookup hb
  obtain ⟨ha, hk⟩ := h.key hbase
  have hdenotes := (TypeTable.Develops.refl [] _).denotes ht
  simp only [hsame] at hdenotes
  exact ⟨ha, hk, hdenotes⟩

theorem Sound.complete (h : p.Sound) {name : Text} {f : TypeKey} {types : TypeTable}
    (hf : p.forwards.lookup name = some f) (hk : p.Knows k) (hrecord : k.kind.isRecord)
    (hbound : name ≠ [] → (name, k) ∈ p.types.names) (hc : p.types.complete f k = .ok types) :
    p.Advances [] { p with types } ∧ types.direct f = k := by
  obtain ⟨hi, e, he, hkind, hname, -⟩ := h.forwards name f hf
  have hincomplete : e.kind.isIncomplete := by rw [hkind]; exact hi
  have hdevelops := TypeTable.develops_complete hc he hincomplete hrecord
  have hold (k : TypeKey) (hk : p.Knows k) : Knows { p with types } k := hk.develops rfl hdevelops
  have hentry := TypeTable.entry?_completed hc
  have hnew : types.entry? f = some { e with direct := k } := by
    rw [hentry, if_pos rfl, he]
    rfl
  have hcases {l : TypeKey} {e' : TypeEntry} (he' : types.entry? l = some e') :
      e' = { e with direct := k } ∨ p.types.entry? l = some e' := by
    by_cases hl : l.id = f.id
    · rw [TypeTable.entry?_of_id hl, hnew] at he'
      cases he'
      exact .inl rfl
    · rw [hentry, if_neg hl] at he'
      exact .inr he'
  have hnames : types.names = p.types.names ∧ types.pointers = p.types.pointers ∧
      types.arrays = p.types.arrays := by
    obtain ⟨-, rfl⟩ := TypeTable.complete_eq_ok hc
    exact ⟨rfl, rfl, rfl⟩
  refine ⟨⟨⟨?_, ?_, ?_, ?_, ?_, ?_⟩, rfl, hdevelops⟩, TypeTable.direct_of_entry hnew⟩
  · intro l e' he' m hm
    obtain rfl | he' := hcases he'
    · obtain rfl | hm := List.mem_cons.1 hm
      · exact hold _ hk
      · exact hold m (h.links f e he m (List.mem_cons_of_mem _ hm))
    · exact hold m (h.links l e' he' m hm)
  · rw [hnames.1]
    exact fun b hb => hold _ (h.names b hb)
  · rw [hnames.2.1]
    exact fun b hb => hold _ (h.pointers b hb)
  · rw [hnames.2.2]
    exact fun b hb => hold _ (h.arrays b hb)
  · intro l e' he' hc'
    obtain rfl | he' := hcases he'
    · rw [hincomplete] at hc'
      cases hc'
    · exact h.earlier l e' he' hc'
  · intro name' f' hf'
    obtain ⟨hi', e', he', hkind', hname', hd⟩ := h.forwards name' f' hf'
    by_cases hid : f'.id = f.id
    · -- entries carry their names, so this is the forward declaration that was completed
      rw [TypeTable.entry?_of_id hid, he] at he'
      cases he'
      refine ⟨hi', _, (TypeTable.entry?_of_id hid).trans hnew, hkind', hname', .inr ⟨hrecord, ?_⟩⟩
      intro hne
      rw [hnames.1, ← hname', hname]
      rw [← hname', hname] at hne
      exact hbound hne
    · refine ⟨hi', e', ?_, hkind', hname', ?_⟩
      · rw [hentry, if_neg hid, he']
      · rw [hnames.1]
        exact hd

end Pending

end DebugInfo

end WatchExpr
