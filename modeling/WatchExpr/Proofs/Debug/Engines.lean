import Mathlib.Data.List.Nodup
import Mathlib.Data.List.Sort
import Mathlib.Data.Multiset.AddSub
import WatchExpr.Debug.Database

namespace WatchExpr

/-- What the tables of a database hold: settings by name, and rows in no order, those of types and
symbols with their numbers. -/
structure Contents where
  setting : Text → Option Text := fun _ => none
  types : Multiset (Nat × TypeRow) := 0
  members : Multiset MemberRow := 0
  symbols : Multiset (Nat × SymbolRow) := 0

def MemberRow.key (row : MemberRow) : Text × Nat := (row.typeName, row.ordinal)

/-- The order of the members table: names byte by byte, then ordinals. -/
def MemberRow.Le (a b : MemberRow) : Prop :=
  a.typeName < b.typeName ∨ a.typeName = b.typeName ∧ a.ordinal ≤ b.ordinal

variable {σ : Type}

/-- A statement succeeds, and what it gives and the contents that it leaves have a property. -/
def Succeeds {ε α : Type} (contents : σ → Option Contents) (x : EStateM ε σ α) (s : σ)
    (P : α → Contents → Prop) : Prop :=
  ∃ a s' c, x s = .ok a s' ∧ contents s' = some c ∧ P a c

/-- What is assumed of an engine, whose connections show certain contents once the tables are made.
Rows are stored as they are; the engine refuses a type only when its name is taken, and a member
only when its type has a member of the same ordinal. New rows have greater numbers than those that
are there. Selecting changes nothing, and gives all rows in the order that is asked for. -/
structure Engine.Faithful (engine : Engine σ) (contents : σ → Option Contents) : Prop where
  createTables : ∀ s, Succeeds contents engine.createTables s fun _ c => c = (contents s).getD {}
  begin : ∀ s c, contents s = some c → Succeeds contents engine.begin s fun _ c' => c' = c
  commit : ∀ s c, contents s = some c → Succeeds contents engine.commit s fun _ c' => c' = c
  replaceSetting : ∀ s c name value, contents s = some c →
    Succeeds contents (engine.replaceSetting name value) s fun _ c' =>
      c' = { c with setting := Function.update c.setting name (some value) }
  insertType : ∀ s c row, contents s = some c → (∀ r ∈ c.types, r.2.name ≠ row.name) →
    Succeeds contents (engine.insertType row) s fun _ c' =>
      ∃ n, (∀ r ∈ c.types, r.1 < n) ∧ c' = { c with types := (n, row) ::ₘ c.types }
  insertMember : ∀ s c row, contents s = some c → (∀ r ∈ c.members, r.key ≠ row.key) →
    Succeeds contents (engine.insertMember row) s fun _ c' =>
      c' = { c with members := row ::ₘ c.members }
  insertSymbol : ∀ s c row, contents s = some c →
    Succeeds contents (engine.insertSymbol row) s fun _ c' =>
      ∃ n, (∀ r ∈ c.symbols, r.1 < n) ∧ c' = { c with symbols := (n, row) ::ₘ c.symbols }
  selectSetting : ∀ s c name, contents s = some c →
    Succeeds contents (engine.selectSetting name) s fun value c' => c' = c ∧ value = c.setting name
  selectTypes : ∀ s c, contents s = some c →
    Succeeds contents engine.selectTypes s fun rows c' =>
      c' = c ∧ ∃ numbered : List (Nat × TypeRow),
        numbered.map Prod.snd = rows ∧ numbered = c.types ∧ numbered.Pairwise (·.1 ≤ ·.1)
  selectMembers : ∀ s c, contents s = some c →
    Succeeds contents engine.selectMembers s fun rows c' =>
      c' = c ∧ rows = c.members ∧ rows.Pairwise MemberRow.Le
  selectSymbols : ∀ s c, contents s = some c →
    Succeeds contents engine.selectSymbols s fun rows c' =>
      c' = c ∧ ∃ numbered : List (Nat × SymbolRow),
        numbered.map Prod.snd = rows ∧ numbered = c.symbols ∧ numbered.Pairwise (·.1 ≤ ·.1)

namespace Succeeds

variable {ε ε' α β : Type} {contents : σ → Option Contents} {s : σ} {c : Contents}
  {x : EStateM ε σ α} {P : α → Contents → Prop}

theorem pure {a : α} (hc : contents s = some c) (h : P a c) :
    Succeeds contents (Pure.pure a : EStateM ε σ α) s P :=
  ⟨a, s, c, rfl, hc, h⟩

theorem bind {f : α → EStateM ε σ β} {Q : β → Contents → Prop} (h : Succeeds contents x s P)
    (hf : ∀ a s' c, contents s' = some c → P a c → Succeeds contents (f a) s' Q) :
    Succeeds contents (x >>= f) s Q := by
  obtain ⟨a, s', c, hx, hc, hP⟩ := h
  obtain ⟨b, s'', c', hb, hc', hQ⟩ := hf a s' c hc hP
  refine ⟨b, s'', c', ?_, hc', hQ⟩
  change EStateM.bind x f s = _
  rw [EStateM.bind, hx]
  exact hb

theorem imp {Q : α → Contents → Prop} (h : Succeeds contents x s P) (hi : ∀ a c, P a c → Q a c) :
    Succeeds contents x s Q := by
  obtain ⟨a, s', c, hx, hc, hP⟩ := h
  exact ⟨a, s', c, hx, hc, hi a c hP⟩

theorem adapt (h : Succeeds contents x s P) (g : ε → ε') :
    Succeeds contents (x.adaptExcept g) s P := by
  obtain ⟨a, s', c, hx, hc, hP⟩ := h
  refine ⟨a, s', c, ?_, hc, hP⟩
  rw [EStateM.adaptExcept, hx]

theorem tryCatch (h : Succeeds contents x s P) (handle : ε → EStateM ε σ α) :
    Succeeds contents (MonadExcept.tryCatch x handle) s P := by
  obtain ⟨a, s', c, hx, hc, hP⟩ := h
  refine ⟨a, s', c, ?_, hc, hP⟩
  change EStateM.tryCatch x handle s = _
  rw [EStateM.tryCatch, hx]

end Succeeds

/-- Rows in the order of a list, with numbers that increase in this order. -/
def Numbered {α : Type} (rows : Multiset (Nat × α)) (l : List α) : Prop :=
  ∃ numbered : List (Nat × α),
    numbered = rows ∧ numbered.Pairwise (·.1 < ·.1) ∧ numbered.map Prod.snd = l

namespace Numbered

variable {α : Type} {rows : Multiset (Nat × α)} {l : List α}

theorem nil : Numbered (0 : Multiset (Nat × α)) [] := ⟨[], rfl, .nil, rfl⟩

theorem mem_iff (h : Numbered rows l) {x : α} : (∃ n, (n, x) ∈ rows) ↔ x ∈ l := by
  obtain ⟨numbered, rfl, -, rfl⟩ := h
  simp

theorem insert (h : Numbered rows l) {n : Nat} (hn : ∀ r ∈ rows, r.1 < n) (x : α) :
    Numbered ((n, x) ::ₘ rows) (l ++ [x]) := by
  obtain ⟨numbered, rfl, hlt, rfl⟩ := h
  refine ⟨numbered ++ [(n, x)], ?_, ?_, by simp⟩
  · rw [Multiset.cons_coe, Multiset.coe_eq_coe]
    exact List.perm_append_singleton _ _
  · rw [List.pairwise_append]
    refine ⟨hlt, List.pairwise_singleton _ _, ?_⟩
    intro r hr r' hr'
    rw [List.mem_singleton.1 hr']
    exact hn r hr

theorem select (h : Numbered rows l) {sorted : List (Nat × α)} (hs : sorted = rows)
    (hle : sorted.Pairwise (·.1 ≤ ·.1)) : sorted.map Prod.snd = l := by
  obtain ⟨numbered, rfl, hlt, rfl⟩ := h
  have hperm := Multiset.coe_eq_coe.1 hs
  have hnodup : (numbered.map Prod.fst).Nodup := List.pairwise_map.2 (hlt.imp Nat.ne_of_lt)
  have heq : sorted = numbered := by
    apply hperm.eq_of_pairwise _ hle (hlt.imp Nat.le_of_lt)
    intro a b ha hb hab hba
    exact List.inj_on_of_nodup_map hnodup (hperm.mem_iff.1 ha) hb (Nat.le_antisymm hab hba)
  rw [heq]

end Numbered

end WatchExpr
