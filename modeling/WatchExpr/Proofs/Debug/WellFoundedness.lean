import WatchExpr.Proofs.Debug.Definitions
import WatchExpr.Proofs.Lowering.Interning

namespace WatchExpr

namespace TypeTable

variable {t t' : TypeTable} {k l : TypeKey}

/-- The types that can be reached from a type by the links of the entries: what an entry points to,
aliases or holds elements of, its owner, its parameters and the types of its members. -/
inductive Reaches (t : TypeTable) (k : TypeKey) : TypeKey → Prop
  | self : t.Reaches k k
  | link {l m : TypeKey} {e : TypeEntry} (h : t.Reaches k l) (he : t.entry? l = some e)
      (hm : m ∈ e.links) : t.Reaches k m

theorem Closed.has_reaches (hc : t.Closed) (hk : t.Has k) (h : t.Reaches k l) : t.Has l := by
  induction h with
  | self => exact hk
  | link _ he hm => exact hc.has_link he hm

/-- Interning adds nothing to what can be reached from a type of a closed table. -/
theorem Grows.reaches_iff (hg : t.Grows t') (hc : t.Closed) (hk : t.Has k) :
    t'.Reaches k l ↔ t.Reaches k l := by
  constructor
  · intro h
    induction h with
    | self => exact .self
    | link _ he hm ih =>
      rw [hg.entry? (hc.has_reaches hk ih)] at he
      exact ih.link he hm
  · intro h
    induction h with
    | self => exact .self
    | link _ he hm ih => exact ih.link (hg.entries he) hm

theorem sizeLink?_of_isRecord (h : k.kind.isRecord) : t.sizeLink? k = none := by
  rw [sizeLink?]
  split <;> simp_all [Kind.isRecord]

theorem byteSize_record {e : TypeEntry} {kind : RecordKind} (hk : k.kind = .record kind)
    (he : t.entry? k = some e) : t.byteSize k = e.size := by
  apply byteSize_of_sizeWithin (n := 1)
  simp only [sizeWithin, hk, he, Option.elim_some]

end TypeTable

/-- What can be asked of a scope once it is built. -/
inductive ScopeRequest where
  | pointer (direct : TypeKey)
  | array (direct : TypeKey) (count : UInt64)
  | compile (text : Text) (maxDepth : Int)

namespace DebugScope

variable {s : DebugScope} {k : TypeKey}

def after (s : DebugScope) : ScopeRequest → DebugScope
  | .pointer direct => { s with types := (s.types.pointer direct).2 }
  | .array direct count => { s with types := (s.types.array direct count).2 }
  | .compile text maxDepth => { s with types := (compile (s.context maxDepth) text).2 }

def afterAll (s : DebugScope) (rs : List ScopeRequest) : DebugScope := rs.foldl after s

theorem symbols_after (s : DebugScope) (r : ScopeRequest) : (s.after r).symbols = s.symbols := by
  cases r <;> rfl

theorem grows_after (s : DebugScope) (r : ScopeRequest) : s.types.Grows (s.after r).types := by
  cases r with
  | pointer direct => exact s.types.grows_pointer direct
  | array direct count => exact s.types.grows_array direct count
  | compile text maxDepth => exact grows_compile (s.context maxDepth) text

theorem symbols_afterAll (s : DebugScope) (rs : List ScopeRequest) :
    (s.afterAll rs).symbols = s.symbols := by
  induction rs generalizing s with
  | nil => rfl
  | cons r rs ih => exact (ih (s.after r)).trans (s.symbols_after r)

theorem grows_afterAll (s : DebugScope) (rs : List ScopeRequest) :
    s.types.Grows (s.afterAll rs).types := by
  induction rs generalizing s with
  | nil => exact .refl _
  | cons r rs ih => exact (s.grows_after r).trans (ih (s.after r))

/-- The named types of a scope and the types of its symbols. -/
inductive Shows (s : DebugScope) : TypeKey → Prop
  | named {name : Text} {k : TypeKey} (h : (name, k) ∈ s.types.names) : s.Shows k
  | symbol {b : Text × Symbol} (h : b ∈ s.symbols) : s.Shows b.2.type

/-- The types that can be reached from a named type or from the type of a symbol. -/
def Reaches (s : DebugScope) (k : TypeKey) : Prop := ∃ root, s.Shows root ∧ s.types.Reaches root k

theorem shows_afterAll_iff (s : DebugScope) (rs : List ScopeRequest) :
    (s.afterAll rs).Shows k ↔ s.Shows k := by
  constructor
  · intro h
    cases h with
    | named h =>
      rw [(s.grows_afterAll rs).names] at h
      exact .named h
    | symbol h =>
      rw [symbols_afterAll] at h
      exact .symbol h
  · intro h
    cases h with
    | named h =>
      rw [← (s.grows_afterAll rs).names] at h
      exact .named h
    | symbol h =>
      rw [← s.symbols_afterAll rs] at h
      exact .symbol h

theorem reaches_afterAll_iff (hc : s.types.Closed) (hs : ∀ root, s.Shows root → s.types.Has root)
    (rs : List ScopeRequest) : (s.afterAll rs).Reaches k ↔ s.Reaches k := by
  have hg := s.grows_afterAll rs
  constructor
  · rintro ⟨root, hroot, hk⟩
    have hroot := (s.shows_afterAll_iff rs).1 hroot
    exact ⟨root, hroot, (hg.reaches_iff hc (hs root hroot)).1 hk⟩
  · rintro ⟨root, hroot, hk⟩
    exact ⟨root, (s.shows_afterAll_iff rs).2 hroot, (hg.reaches_iff hc (hs root hroot)).2 hk⟩

end DebugScope

namespace DebugInfo.Pending.Sound

variable {p : Pending} {k l : TypeKey} (h : p.Sound)
include h

theorem closed : p.types.Closed where
  entries e he l hl := by
    obtain ⟨i, hi⟩ := Array.mem_iff_getElem?.1 he
    exact (h.links ⟨e.kind, i + 1⟩ e hi l hl).has
  names b hb := (h.names b hb).has
  pointers b hb := (h.pointers b hb).has
  arrays b hb := (h.arrays b hb).has

theorem knows_reaches (hk : p.Knows k) (hl : p.types.Reaches k l) : p.Knows l := by
  induction hl with
  | self => exact hk
  | link _ he hm _ => exact h.links _ _ he _ hm

/-- The links that a size is computed from end: they lead to earlier entries, or from a forward
declaration to a record, which has its size. -/
theorem exists_size (hk : p.Knows k) : ∃ n v, p.types.sizeWithin n k = some v := by
  induction hid : k.id using Nat.strong_induction_on generalizing k with
  | _ id ih =>
    cases hlink : p.types.sizeLink? k with
    | none =>
      obtain ⟨v, hv⟩ := TypeTable.sizeWithin_succ_of_no_link hlink
      exact ⟨1, v, hv 0⟩
    | some link =>
      obtain ⟨c, d⟩ := link
      obtain ⟨e, he, rfl⟩ := TypeTable.direct_of_sizeLink? hlink
      suffices ∃ n v, p.types.sizeWithin n e.direct = some v by
        obtain ⟨n, v, hv⟩ := this
        exact ⟨n + 1, c * v, by rw [TypeTable.sizeWithin_succ_of_link hlink, hv, Option.map_some]⟩
      -- the rank is the number of the entry; a completed declaration leads forward, but its record
      -- has no link of its own
      cases hc : e.kind.isIncomplete with
      | false =>
        have hd := h.links k e he e.direct List.mem_cons_self
        exact ih _ (hid ▸ h.earlier k e he hc) hd rfl
      | true =>
        obtain ⟨name, hf⟩ := hk.forward (by rw [← hk.kind_entry he]; exact hc)
        obtain ⟨-, e', he', -, -, hd⟩ := h.forwards name k hf
        cases he.symm.trans he'
        have hstop : p.types.sizeLink? e.direct = none := by
          obtain hd | ⟨hd, -⟩ := hd
          · rw [hd]
            rfl
          · exact TypeTable.sizeLink?_of_isRecord hd
        obtain ⟨v, hv⟩ := TypeTable.sizeWithin_succ_of_no_link hstop
        exact ⟨1, v, hv 0⟩

end DebugInfo.Pending.Sound

namespace DebugInfo

/-- Built scopes have well-founded types. No forward declaration that can be reached from a named
type or from the type of a symbol is incomplete, and the size of every type that can be reached is
found; both still hold after types were interned and expressions were compiled. A record with a
name that was declared once is found under it, complete, with the declared size and the declared
members in order. Their types are those that were written, read with every name bound as it is in
the scope, or to the forward declaration of the record that it is bound to. -/
theorem build_well_founded {info : DebugInfo} {s : DebugScope} (h : info.build = .ok s) :
    (∀ (rs : List ScopeRequest) (k : TypeKey), ((s.afterAll rs).Reaches k ↔ s.Reaches k) ∧
      (s.Reaches k →
        (k.kind.isIncomplete → ((s.afterAll rs).types.direct k).isZero = false) ∧
        ∃ n size, s.types.sizeWithin n k = some size ∧
          (s.afterAll rs).types.sizeWithin n k = some size)) ∧
    ∀ d ∈ info.types, ∀ kind, recordKind? d.kind = some kind →
      (info.types.map (·.name)).count d.name = 1 → d.name ≠ [] → ∃ k visible,
        s.types.lookup? d.name = some k ∧ s.types.byteSize k = d.size ∧
        DescribesRecord s.types visible d kind k ∧
        ∀ name l, name ≠ [] → visible.lookup name = some l → (name, l) ∈ s.types.names ∨
          l.kind.isIncomplete ∧ (name, s.types.direct l) ∈ s.types.names := by
  obtain ⟨p, hfinished, ha, hsymbols⟩ := finished_build h
  have hsound := ha.sound
  have hshows (root : TypeKey) (hroot : s.Shows root) :
      Pending.Knows ⟨s.types, p.forwards⟩ root := by
    cases hroot with
    | named hroot => exact hsound.names _ hroot
    | symbol hroot => exact hsymbols _ hroot
  have hknows {k : TypeKey} (hk : s.Reaches k) : Pending.Knows ⟨s.types, p.forwards⟩ k := by
    obtain ⟨root, hroot, hk⟩ := hk
    exact hsound.knows_reaches (hshows root hroot) hk
  have hcomplete {name : Text} {f : TypeKey} (hf : p.forwards.lookup name = some f) :
      (s.types.direct f).kind.isRecord := ha.types.isRecord_direct (hfinished.complete name f hf)
  constructor
  · intro rs k
    have hgrows := s.grows_afterAll rs
    constructor
    · exact s.reaches_afterAll_iff hsound.closed (fun root hroot => (hshows root hroot).has) rs
    · intro hk
      have hknown := hknows hk
      constructor
      · intro hi
        obtain ⟨name, hf⟩ := hknown.forward hi
        have hrecord := hcomplete hf
        rw [← hgrows.direct hknown.has] at hrecord
        exact TypeTable.isZero_of_isRecord hrecord
      · obtain ⟨n, size, hsize⟩ := hsound.exists_size hknown
        exact ⟨n, size, hsize, by rw [hgrows.sizeWithin hsound.closed hknown.has, hsize]⟩
  · intro d hd kind hkind hcount hname
    obtain ⟨k, visible, hlookup, hdescribes, hvisible⟩ :=
      hfinished.records d hd kind hkind hcount hname
    have hdescribes := hdescribes.develops ha.types
    have hsize : s.types.byteSize k = d.size := by
      obtain ⟨e, he, -, -, hsize, -⟩ := hdescribes.entry
      rw [TypeTable.byteSize_record hdescribes.key he, hsize]
    refine ⟨k, visible, ha.types.lookup? List.not_mem_nil hlookup, hsize, hdescribes, ?_⟩
    intro name l hne hl
    obtain hl | hl := hvisible name l hl
    · exact .inl (ha.types.mem_names hl)
    · right
      obtain ⟨hi, e, he, -, -, hd⟩ := hsound.forwards name l hl
      have hrecord := hcomplete hl
      rw [TypeTable.direct_of_entry he] at hrecord ⊢
      obtain hd | hd := hd
      · rw [hd] at hrecord
        cases hrecord
      · exact ⟨hi, hd.2 hne⟩

/-- A node of a chain; it refers to itself through an alias, and to items declared later. -/
def nodeDecl : TypeDecl where
  name := "Node"
  kind := "struct"
  size := 16
  members := [⟨"next", "Link", 0⟩, ⟨"items", "Item[2]", 8⟩]

def chainInfo : DebugInfo where
  arch := "x64"
  types :=
    [{ name := "Link", kind := "alias", base := "Node*" }, nodeDecl,
      { name := "Item", kind := "struct", size := 4, members := [⟨"value", "int", 0⟩] }]
  symbols := [{ scope := "global", name := "first", type := "Node*", offset := 16 }]

theorem chain_well_founded : ∃ s, chainInfo.build = .ok s ∧
    s.Reaches ⟨.incomplete .struct, 1⟩ ∧
    (s.types.direct ⟨.incomplete .struct, 1⟩).isZero = false ∧
    (∃ n size, s.types.sizeWithin n ⟨.incomplete .struct, 1⟩ = some size) ∧
    nodeDecl ∈ chainInfo.types ∧ recordKind? nodeDecl.kind = some .struct ∧
    (chainInfo.types.map (·.name)).count nodeDecl.name = 1 ∧ nodeDecl.name ≠ [] ∧
    ∃ k visible, s.types.lookup? nodeDecl.name = some k ∧
      DescribesRecord s.types visible nodeDecl .struct k := by
  have hlinks : chainInfo.build.toOption.any fun s => decide
      ((Text.ofString "Link", ⟨.typedef, 4⟩) ∈ s.types.names ∧
        s.types.entry? ⟨.typedef, 4⟩ =
          some { kind := .typedef, name := "Link", direct := ⟨.pointer, 3⟩ } ∧
        s.types.entry? ⟨.pointer, 3⟩ =
          some { kind := .pointer, direct := ⟨.incomplete .struct, 1⟩ }) := by decide +kernel
  have hnode : nodeDecl ∈ chainInfo.types := by decide
  have hcount : (chainInfo.types.map (·.name)).count nodeDecl.name = 1 := by decide
  cases hbuild : chainInfo.build with
  | error e =>
    rw [hbuild] at hlinks
    cases hlinks
  | ok s =>
    rw [hbuild] at hlinks
    obtain ⟨hname, hlink, hpointer⟩ := of_decide_eq_true hlinks
    have hreaches : s.Reaches ⟨.incomplete .struct, 1⟩ := by
      have hfirst : s.types.Reaches ⟨.typedef, 4⟩ ⟨.pointer, 3⟩ := .link .self hlink (by decide)
      exact ⟨_, .named hname, hfirst.link hpointer (by decide)⟩
    obtain ⟨htypes, hrecords⟩ := build_well_founded hbuild
    obtain ⟨-, hwell⟩ := htypes [] ⟨.incomplete .struct, 1⟩
    obtain ⟨hcomplete, n, size, hsize, -⟩ := hwell hreaches
    obtain ⟨k, visible, hlookup, -, hdescribes, -⟩ :=
      hrecords nodeDecl hnode .struct rfl hcount (by decide)
    exact ⟨s, rfl, hreaches, hcomplete rfl, ⟨n, size, hsize⟩, hnode, rfl, hcount, by decide,
      k, visible, hlookup, hdescribes⟩

def unnamedInfo : DebugInfo where
  arch := "x64"
  types := [{ kind := "struct", size := 4, members := [⟨"a", "int", 0⟩] }]

/-- Declarations without a name are accepted, but unnamed types bind nothing. -/
theorem unnamed_record_not_found : ∃ s d, unnamedInfo.build = .ok s ∧ d ∈ unnamedInfo.types ∧
    recordKind? d.kind = some .struct ∧ (unnamedInfo.types.map (·.name)).count d.name = 1 ∧
    s.types.lookup? d.name = none := by
  have hnone : unnamedInfo.build.toOption.any fun s => decide (s.types.lookup? [] = none) := by
    decide +kernel
  cases hbuild : unnamedInfo.build with
  | error e =>
    rw [hbuild] at hnone
    cases hnone
  | ok s =>
    rw [hbuild] at hnone
    exact ⟨s, _, rfl, List.mem_singleton.2 rfl, rfl, by decide, of_decide_eq_true hnone⟩

end DebugInfo

end WatchExpr
