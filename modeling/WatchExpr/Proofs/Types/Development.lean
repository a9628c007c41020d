import WatchExpr.Proofs.Lowering.Repetition
import WatchExpr.Proofs.Types.History

namespace WatchExpr

namespace TypeTable

variable {t t' t₁ t₂ t₃ : TypeTable} {ns ns' : List Text} {k : TypeKey}

/-- A table after definitions, completions and interning. The names that were bound meanwhile are
among some, and forward declarations were completed with records. -/
structure Develops (ns : List Text) (t t' : TypeTable) : Prop where
  size_le : t.entries.size ≤ t'.entries.size
  entries : ∀ k e, t.entry? k = some e → ∃ d, t'.entry? k = some { e with direct := d } ∧
    (d = e.direct ∨ e.kind.isIncomplete ∧ d.kind.isRecord)
  names : ∃ bound, t'.names = bound ++ t.names ∧ ∀ b ∈ bound, b.1 ∈ ns
  recalls : t.Recalls t'

theorem Develops.refl (ns : List Text) (t : TypeTable) : t.Develops ns t where
  size_le := Nat.le_refl _
  entries _ e he := ⟨e.direct, he, .inl rfl⟩
  names := ⟨[], rfl, List.forall_mem_nil _⟩
  recalls := ⟨fun _ _ h => h, fun _ _ h => h⟩

theorem Develops.trans (h : t₁.Develops ns t₂) (h' : t₂.Develops ns' t₃) :
    t₁.Develops (ns ++ ns') t₃ where
  size_le := Nat.le_trans h.size_le h'.size_le
  entries k e he := by
    obtain ⟨d, he₂, hd⟩ := h.entries k e he
    obtain ⟨d', he₃, hd'⟩ := h'.entries k _ he₂
    refine ⟨d', he₃, ?_⟩
    obtain rfl | hd' := hd'
    · exact hd
    · exact .inr hd'
  names := by
    obtain ⟨bound, hb, hns⟩ := h.names
    obtain ⟨bound', hb', hns'⟩ := h'.names
    refine ⟨bound' ++ bound, by rw [hb', hb, List.append_assoc], ?_⟩
    intro b hmem
    obtain hmem | hmem := List.mem_append.1 hmem
    · exact List.mem_append_right _ (hns' b hmem)
    · exact List.mem_append_left _ (hns b hmem)
  recalls := h.recalls.trans h'.recalls

theorem Grows.develops (h : t.Grows t') (ns : List Text) : t.Develops ns t' where
  size_le := h.size_le
  entries _ e he := ⟨e.direct, h.entries he, .inl rfl⟩
  names := ⟨[], h.names, List.forall_mem_nil _⟩
  recalls := h.recalls

theorem entry?_push_cases {e e' : TypeEntry} (h : t'.entries = t.entries.push e)
    (he : t'.entry? k = some e') :
    t.entry? k = some e' ∨ k.id = t.entries.size + 1 ∧ e' = e := by
  obtain ⟨hid, he⟩ := entry?_eq_some.1 he
  rw [h, Array.getElem?_push] at he
  split at he
  · cases he
    exact .inr ⟨by omega, rfl⟩
  · exact .inl (entry?_eq_some.2 ⟨hid, he⟩)

theorem key_add (t : TypeTable) (e : TypeEntry) :
    (t.add e).1 = ⟨e.kind, t.entries.size + 1⟩ := by
  simp only [add]
  split <;> rfl

theorem develops_add (t : TypeTable) (e : TypeEntry) : t.Develops [e.name] (t.add e).2 where
  size_le := by
    rw [entries_add, Array.size_push]
    exact Nat.le_succ _
  entries k e' he := ⟨e'.direct, extends_add t e he, .inl rfl⟩
  names := by
    simp only [add]
    split
    · exact ⟨[], rfl, List.forall_mem_nil _⟩
    · exact ⟨[(e.name, _)], rfl, List.forall_mem_singleton.2 (List.mem_singleton.2 rfl)⟩
  recalls := by
    simp only [add]
    split <;> exact ⟨fun _ _ h => h, fun _ _ h => h⟩

section Completion
variable {f d : TypeKey} (h : t.complete f d = .ok t')
include h

theorem complete_eq_ok : f.id ≠ 0 ∧
    t' = { t with entries := t.entries.modify (f.id - 1) fun e => { e with direct := d } } := by
  rw [complete] at h
  split at h
  · cases h
  rename_i hforward
  split at h
  · cases h
  obtain ⟨-, hf⟩ : f.kind.isIncomplete ∧ f.id ≠ 0 := by simpa using hforward
  exact ⟨hf, (Except.ok.inj h).symm⟩

theorem entry?_completed (k : TypeKey) : t'.entry? k =
    if k.id = f.id then (t.entry? k).map fun e => { e with direct := d } else t.entry? k := by
  obtain ⟨hf, rfl⟩ := complete_eq_ok h
  exact entry?_complete t hf d k

theorem develops_complete {e : TypeEntry} (he : t.entry? f = some e) (hi : e.kind.isIncomplete)
    (hd : d.kind.isRecord) : t.Develops [] t' where
  size_le := by
    obtain ⟨-, rfl⟩ := complete_eq_ok h
    rw [Array.size_modify]
  entries k e' he' := by
    rw [entry?_completed h, he']
    split
    · rename_i hk
      rw [entry?_of_id hk, he] at he'
      cases he'
      exact ⟨d, rfl, .inr ⟨hi, hd⟩⟩
    · exact ⟨e'.direct, rfl, .inl rfl⟩
  names := by
    obtain ⟨-, rfl⟩ := complete_eq_ok h
    exact ⟨[], rfl, List.forall_mem_nil _⟩
  recalls := by
    obtain ⟨-, rfl⟩ := complete_eq_ok h
    exact ⟨fun _ _ h => h, fun _ _ h => h⟩

end Completion

theorem Develops.members (h : t.Develops ns t') {e : TypeEntry} (he : t.entry? k = some e) :
    t'.members k = e.members := by
  obtain ⟨d, he', -⟩ := h.entries k e he
  rw [TypeTable.members, he', Option.elim_some]

theorem Develops.mem_names (h : t.Develops ns t') {b : Text × TypeKey} (hb : b ∈ t.names) :
    b ∈ t'.names := by
  obtain ⟨bound, hbound, -⟩ := h.names
  rw [hbound]
  exact List.mem_append_right _ hb

/-- A name keeps its type as long as it is not bound again. -/
theorem Develops.lookup? {name : Text} (h : t.Develops ns t') (hname : name ∉ ns)
    (hk : t.lookup? name = some k) : t'.lookup? name = some k := by
  obtain ⟨bound, hbound, hns⟩ := h.names
  have hnone : bound.lookup name = none := by
    rw [List.lookup_eq_none_iff]
    intro b hb
    have hne : name ≠ b.1 := fun he => hname (he ▸ hns b hb)
    simpa using hne
  rw [TypeTable.lookup?, hbound, List.lookup_append, hnone]
  exact hk

/-- A forward declaration that has been completed with a record stays so. -/
theorem Develops.isRecord_direct (h : t.Develops ns t') (hk : (t.direct k).kind.isRecord) :
    (t'.direct k).kind.isRecord := by
  cases he : t.entry? k with
  | none =>
    rw [direct, he] at hk
    cases hk
  | some e =>
    obtain ⟨d, he', hd⟩ := h.entries k e he
    rw [direct_of_entry he] at hk
    rw [direct_of_entry he']
    obtain rfl | hd := hd
    · exact hk
    · exact hd.2

section Names
variable (t : TypeTable) (names : List (Text × TypeKey))

theorem pointer_names (k : TypeKey) :
    ({ t with names } : TypeTable).pointer k =
      ((t.pointer k).1, { (t.pointer k).2 with names }) := by
  cases h : t.pointers.lookup k with
  | some p =>
    have hp : t.pointer k = (p, t) := by rw [pointer, h]
    rw [hp, pointer, show ({ t with names } : TypeTable).pointers.lookup k = some p from h]
  | none =>
    rw [pointer, show ({ t with names } : TypeTable).pointers.lookup k = none from h]
    simp only [pointer, h]
    rfl

theorem array_names (k : TypeKey) (count : UInt64) :
    ({ t with names } : TypeTable).array k count =
      ((t.array k count).1, { (t.array k count).2 with names }) := by
  cases h : t.arrays.lookup (k, count) with
  | some a =>
    have ha : t.array k count = (a, t) := by rw [array, h]
    rw [ha, array, show ({ t with names } : TypeTable).arrays.lookup (k, count) = some a from h]
  | none =>
    rw [array, show ({ t with names } : TypeTable).arrays.lookup (k, count) = none from h]
    simp only [array, h]
    rfl

theorem key_names (e : TypeExpr) :
    e.key { t with names } = ((e.key t).1, { (e.key t).2 with names }) := by
  induction e with
  | named span name k => rfl
  | pointer span elem ih =>
    simp only [TypeExpr.key, ih]
    split
    · rfl
    · exact pointer_names _ names _
  | array span elem count ih =>
    simp only [TypeExpr.key, ih]
    split
    · rfl
    · exact array_names _ names _ count

end Names

/-- Under some visible names a text is the name of a type, all of which is in the table. -/
def Denotes (t : TypeTable) (visible : List (Text × TypeKey)) (text : Text) (k : TypeKey) : Prop :=
  ({ t with names := visible } : TypeTable).parseName text = .ok (k, { t with names := visible })

end TypeTable

theorem TypeExpr.read_congr {c c' : Context} (h : ∀ name, c'.typeNamed? name = c.typeNamed? name)
    (text : Text) (ts : List Token) : read c' text ts = read c text ts := by
  cases ts with
  | nil => rfl
  | cons tok rest => simp only [read, h]

def TypeExpr.base : TypeExpr → TypeKey
  | named _ _ k => k
  | pointer _ elem => elem.base
  | array _ elem _ => elem.base

theorem TypeExpr.base_readSuffixes {start : Nat} {e e' : TypeExpr} {ts : List Token}
    (h : (readSuffixes start e ts).type = some e') : e'.base = e.base := by
  fun_induction readSuffixes start e ts with
  | case1 e => cases h; rfl
  | case2 e tok rest _ ih => exact ih h
  | case3 e tok _ _ n close after _ count _ ih => exact ih h
  | case4 => cases h
  | case5 => cases h; rfl
  | case6 => cases h; rfl
  | case7 => cases h; rfl

theorem TypeExpr.base_read {c : Context} {text : Text} {ts : List Token} {e : TypeExpr}
    (h : (read c text ts).type = some e) :
    (∃ b, e.base = .basic b) ∨ ∃ name, c.types.lookup? name = some e.base := by
  have hsigned (tok : Token) (rest : List Token) :
      ∃ b, (readSigned text tok rest).1.base = .basic b := by
    simp only [readSigned]
    split
    · split
      · split <;> exact ⟨_, rfl⟩
      · exact ⟨_, rfl⟩
    · exact ⟨_, rfl⟩
  simp only [read] at h
  split at h
  · cases h
  split at h
  · rw [base_readSuffixes h]
    exact .inl (hsigned _ _)
  split at h
  · split at h
    · rename_i tok rest _ _ k hk
      rw [base_readSuffixes h, base]
      simp only [Context.typeNamed?] at hk
      split at hk
      · rename_i hl
        cases hk
        exact .inr ⟨_, hl⟩
      · obtain ⟨b, -, rfl⟩ := Option.map_eq_some_iff.1 hk
        exact .inl ⟨b, rfl⟩
    · cases h
  · cases h

namespace TypeTable

variable {t t' : TypeTable} {text : Text} {k : TypeKey}

theorem parseName_eq_ok (h : t.parseName text = .ok (k, t')) :
    ∃ e, (TypeExpr.read { types := t } text (Lexer.scan text)).type = some e ∧
      e.key t = (k, t') ∧ k.isZero = false := by
  simp only [parseName] at h
  split at h
  · cases h
  split at h
  · rename_i e he _
    split at h
    · cases h
    · rename_i hz
      cases h
      exact ⟨e, he, rfl, by simpa using hz⟩
  · cases h

/-- The same type name is accepted again in every table that shows the same names and has the
type. -/
theorem parseName_again {t₂ : TypeTable} (h : t.parseName text = .ok (k, t'))
    (hnames : t₂.names = t.names)
    (hkey : ∀ e : TypeExpr, e.key t = (k, t') → e.key t₂ = (k, t₂)) :
    t₂.parseName text = .ok (k, t₂) := by
  have hread : TypeExpr.read { types := t₂ } text (Lexer.scan text) =
      TypeExpr.read { types := t } text (Lexer.scan text) := by
    refine TypeExpr.read_congr (fun name => ?_) _ _
    simp only [Context.typeNamed?, lookup?, hnames]
  simp only [parseName] at h ⊢
  rw [hread]
  split at h
  · cases h
  · rename_i hd
    rw [if_neg hd]
    split at h
    · rename_i e he hrest
      split at h
      · cases h
      · rename_i hz
        have hk : e.key t = (k, t') := Except.ok.inj h
        rw [hk] at hz
        simp only [hkey e hk]
        rw [if_neg hz]
    · cases h

/-- What was read under some visible names stays readable under these. -/
theorem Develops.denotes {visible : List (Text × TypeKey)} {ns : List Text} {t₁ : TypeTable}
    (h : Develops ns { t' with names := t.names } t₁)
    (hk : ({ t with names := visible } : TypeTable).parseName text = .ok (k, t')) :
    t₁.Denotes visible text k := by
  refine parseName_again hk rfl ?_
  intro e he
  rw [key_names] at he
  obtain ⟨rfl, rfl⟩ := Prod.mk.inj he
  have hnames : ({ (e.key t).2 with names := t.names } : TypeTable) = (e.key t).2 := by
    rw [← (grows_key t e).names]
  simp only [hnames] at h
  rw [key_names, key_again h.recalls]

theorem Denotes.develops {visible : List (Text × TypeKey)} {ns : List Text}
    (h : t.Denotes visible text k) (ht : t.Develops ns t') : t'.Denotes visible text k := by
  have hd : Develops ns { ({ t with names := visible } : TypeTable) with names := t.names } t' := ht
  exact hd.denotes h

end TypeTable

end WatchExpr
