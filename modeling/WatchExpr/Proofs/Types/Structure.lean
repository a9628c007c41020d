import Mathlib.Data.List.Forall2
import WatchExpr.Proofs.Types.History

namespace WatchExpr

namespace Kind

/-- Kinds whose types are the same only if they are one type. -/
def isNominal : Kind → Bool
  | record _ | enum => true
  | _ => false

/-- Kinds whose types have a number of elements or parameters. -/
def isCounted : Kind → Bool
  | array | function | method => true
  | _ => false

/-- Kinds that an entry can be made with. -/
def isDefinable : Kind → Bool
  | null | basic _ | bitfield | variadic | undefined _ => false
  | _ => true

/-- Kinds whose types have parameters. -/
def hasParams : Kind → Bool
  | function | method => true
  | _ => false

theorem hasParams_of_isCounted {kind : Kind} (h : kind.isCounted) (ha : kind ≠ .array) :
    kind.hasParams := by
  cases kind with
  | array => exact absurd rfl ha
  | function => rfl
  | method => rfl
  | _ => cases h

end Kind

/-- What a type is apart from the types it is built from. -/
inductive Shape where
  | form (kind : Kind)
  | array (count : UInt64)
  /-- A type that equals no other. -/
  | declared (key : TypeKey)
  deriving DecidableEq

/-- Forgets which forward declaration it is, but not what is announced. -/
def Shape.announced : Shape → Shape
  | declared k => if k.kind.isIncomplete then form k.kind else declared k
  | s => s

def Shape.isForward : Shape → Bool
  | declared k => k.kind.isIncomplete
  | _ => false

namespace TypeTable

variable {t : TypeTable} {k l r u v d c : TypeKey} {n m : Nat} {p : List Nat}

/-- What a name, a qualifier or a completed forward declaration stands for. -/
def standsFor? (t : TypeTable) (k : TypeKey) : Option TypeKey :=
  if k.kind.isTransparent && !(t.direct k).isZero then some (t.direct k) else none

/-- A chain of so many names that ends at a type which stands for no other. -/
inductive Chain (t : TypeTable) : Nat → TypeKey → TypeKey → Prop
  | done {k : TypeKey} (h : t.standsFor? k = none) : t.Chain 0 k k
  | link {k d u : TypeKey} {n : Nat} (h : t.standsFor? k = some d) (hd : t.Chain n d u) :
      t.Chain (n + 1) k u

def parts (t : TypeTable) (k : TypeKey) : List TypeKey :=
  match k.kind with
  | .pointer | .lref | .rref | .array => [t.direct k]
  | .memberPointer => [t.direct k, t.owner k]
  | .function => t.direct k :: t.params k
  | .method => t.direct k :: t.owner k :: t.params k
  | _ => []

/-- What a type is without its parts. Records, enumerations and forward declarations equal no other
type. -/
def shape (t : TypeTable) (k : TypeKey) : Shape :=
  match k.kind with
  | .array => .array (t.count k)
  | .record _ | .enum | .incomplete _ => .declared k
  | kind => .form kind

/-- The type at a path of the tree of a type, which says at each level which part is taken. -/
inductive At (t : TypeTable) : TypeKey → List Nat → TypeKey → Prop
  | name {k d u : TypeKey} {p : List Nat} (h : t.standsFor? k = some d) (hd : t.At d p u) :
      t.At k p u
  | root {k : TypeKey} (h : t.standsFor? k = none) : t.At k [] k
  | part {k c u : TypeKey} {i : Nat} {p : List Nat} (h : t.standsFor? k = none)
      (hi : (t.parts k)[i]? = some c) (hc : t.At c p u) : t.At k (i :: p) u

/-- The tree that a type unfolds into, as the set of its paths with the shapes found there. -/
def tree (t : TypeTable) (k : TypeKey) : Set (List Nat × Shape) :=
  { x | ∃ u, t.At k x.1 u ∧ t.shape u = x.2 }

def keyAt (t : TypeTable) (i : Fin t.entries.size) : TypeKey := ⟨t.entries[i].kind, i + 1⟩

/-- A builtin key, or the key of an entry. -/
def Owns (t : TypeTable) (k : TypeKey) : Prop :=
  k.id = 0 ∨ ∃ e, t.entry? k = some e ∧ e.kind = k.kind

instance (t : TypeTable) (k : TypeKey) : Decidable (t.Owns k) :=
  inferInstanceAs (Decidable (_ ∨ ∃ e ∈ t.entry? k, e.kind = k.kind))

/-- The keys that a type is made from, names and all. -/
inductive Uses (t : TypeTable) (k : TypeKey) : TypeKey → Prop
  | self : t.Uses k k
  | direct {l : TypeKey} (h : t.Uses k l) : t.Uses k (t.direct l)
  | owner {l : TypeKey} (h : t.Uses k l) : t.Uses k (t.owner l)
  | param {l m : TypeKey} (h : t.Uses k l) (hm : m ∈ t.params l) : t.Uses k m

/-- A type of the table: all keys that it is made from are builtin or have their entries there. -/
def Defines (t : TypeTable) (k : TypeKey) : Prop := ∀ l, t.Uses k l → t.Owns l

/-- No chain of names runs in a circle or has more than 64 links. -/
def ShortChains (t : TypeTable) : Prop := ∀ k, t.Owns k → ∃ n u, n ≤ 64 ∧ t.Chain n k u

theorem standsFor?_eq_some : t.standsFor? k = some d ↔
    k.kind.isTransparent ∧ (t.direct k).isZero = false ∧ t.direct k = d := by
  simp [standsFor?, and_assoc]

theorem standsFor?_eq_none :
    t.standsFor? k = none ↔ (k.kind.isTransparent → (t.direct k).isZero) := by
  simp [standsFor?]

theorem Chain.standsFor? (h : t.Chain n k u) : t.standsFor? u = none := by
  induction h with
  | done h => exact h
  | link _ _ ih => exact ih

theorem unwrapWithin_of_standsFor (h : t.standsFor? k = none) (n : Nat) :
    t.unwrapWithin n k = k := by
  rw [standsFor?_eq_none] at h
  cases n with
  | zero => rfl
  | succ n =>
    rw [unwrapWithin]
    split
    · rename_i hk
      rw [if_pos (h hk)]
    · rfl

/-- Taking names off reaches the end of a chain that is no longer than the names taken. -/
theorem Chain.unwrapWithin (h : t.Chain n k u) (hn : n ≤ m) : t.unwrapWithin m k = u := by
  induction h generalizing m with
  | done h => exact unwrapWithin_of_standsFor h m
  | link h _ ih =>
    obtain ⟨hk, hz, rfl⟩ := standsFor?_eq_some.1 h
    obtain ⟨m, rfl⟩ : ∃ m', m = m' + 1 := ⟨m - 1, by omega⟩
    rw [TypeTable.unwrapWithin, if_pos hk]
    simp only [hz, Bool.false_eq_true, if_false]
    exact ih (by omega)

/-- A chain ends where taking names off leaves none. -/
theorem exists_chain (h : t.standsFor? (t.unwrapWithin m k) = none) :
    ∃ n, n ≤ m ∧ t.Chain n k (t.unwrapWithin m k) := by
  induction m generalizing k with
  | zero => exact ⟨0, Nat.le_refl _, .done h⟩
  | succ m ih =>
    cases hk : t.standsFor? k with
    | none =>
      rw [unwrapWithin_of_standsFor hk]
      exact ⟨0, Nat.zero_le _, .done hk⟩
    | some d =>
      obtain ⟨htransparent, hz, rfl⟩ := standsFor?_eq_some.1 hk
      have hu : t.unwrapWithin (m + 1) k = t.unwrapWithin m (t.direct k) := by
        rw [TypeTable.unwrapWithin, if_pos htransparent]
        simp only [hz, Bool.false_eq_true, if_false]
      rw [hu] at h ⊢
      obtain ⟨n, hn, hc⟩ := ih h
      exact ⟨n + 1, Nat.succ_le_succ hn, .link hk hc⟩

theorem ShortChains.chain (h : t.ShortChains) (hk : t.Owns k) : ∃ n, t.Chain n k (t.unwrap k) := by
  obtain ⟨n, u, hn, hc⟩ := h k hk
  have hu : t.unwrap k = u := hc.unwrapWithin hn
  exact ⟨n, hu ▸ hc⟩

theorem standsFor?_of_entry (h : t.entry? k = none) : t.standsFor? k = none := by
  rw [standsFor?_eq_none, TypeTable.direct, h]
  intro _
  rfl

theorem Owns.entry?_eq_none_or (h : t.Owns k) :
    t.entry? k = none ∨ ∃ i, k = t.keyAt i := by
  obtain hid | ⟨e, he, hkind⟩ := h
  · exact .inl (if_pos hid)
  · obtain ⟨hid, he⟩ := entry?_eq_some.1 he
    obtain ⟨hi, rfl⟩ := Array.getElem?_eq_some_iff.1 he
    refine .inr ⟨⟨k.id - 1, hi⟩, ?_⟩
    rw [keyAt, Fin.getElem_fin, hkind, Nat.sub_add_cancel (Nat.pos_of_ne_zero hid)]

theorem shortChains_of_entries
    (h : ∀ i, t.standsFor? (t.unwrap (t.keyAt i)) = none) : t.ShortChains := by
  intro k hk
  obtain hnone | ⟨i, rfl⟩ := hk.entry?_eq_none_or
  · exact ⟨0, k, by omega, .done (standsFor?_of_entry hnone)⟩
  · obtain ⟨n, hn, hc⟩ := exists_chain (m := maxChain) (h i)
    exact ⟨n, _, hn, hc⟩

theorem Uses.trans (h : t.Uses k l) (h' : t.Uses l u) : t.Uses k u := by
  induction h' with
  | self => exact h
  | direct _ ih => exact ih.direct
  | owner _ ih => exact ih.owner
  | param _ hm ih => exact ih.param hm

theorem Uses.chain (h : t.Chain n k u) : t.Uses k u := by
  induction h with
  | done => exact .self
  | link h _ ih =>
    obtain ⟨-, -, rfl⟩ := standsFor?_eq_some.1 h
    exact Uses.trans (.direct .self) ih

theorem Uses.part (h : c ∈ t.parts k) : t.Uses k c := by
  rw [parts] at h
  have hdirect : t.Uses k (t.direct k) := .direct .self
  have howner : t.Uses k (t.owner k) := .owner .self
  have hparam {m : TypeKey} (hm : m ∈ t.params k) : t.Uses k m := .param .self hm
  split at h <;> grind

namespace Defines

variable (hk : t.Defines k)
include hk

theorem owns : t.Owns k := hk k .self

theorem uses (h : t.Uses k l) : t.Defines l := fun u hu => hk u (h.trans hu)

theorem part (h : c ∈ t.parts k) : t.Defines c := hk.uses (.part h)

theorem unwrap (hs : t.ShortChains) : t.Defines (t.unwrap k) := by
  obtain ⟨n, hc⟩ := hs.chain hk.owns
  exact hk.uses (.chain hc)

end Defines

/-- A type is one of the table if the keys it is made from are among some that are the table's. -/
theorem defines_of_closed (ks : List TypeKey) (hk : k ∈ ks)
    (h : ∀ l ∈ ks, t.Owns l ∧ t.direct l ∈ ks ∧ t.owner l ∈ ks ∧ ∀ m ∈ t.params l, m ∈ ks) :
    t.Defines k := by
  intro l hl
  refine (h l ?_).1
  induction hl with
  | self => exact hk
  | direct _ ih => exact (h _ ih).2.1
  | owner _ ih => exact (h _ ih).2.2.1
  | param _ hm ih => exact (h _ ih).2.2.2 _ hm

theorem Chain.at_iff (h : t.Chain n k u) : t.At k p v ↔ t.At u p v := by
  induction h with
  | done => exact Iff.rfl
  | link h _ ih =>
    rw [← ih]
    constructor
    · intro hp
      cases hp with
      | name h' hd =>
        cases h.symm.trans h'
        exact hd
      | root h' => cases h.symm.trans h'
      | part h' => cases h.symm.trans h'
    · exact .name h

theorem at_nil_iff (hu : t.standsFor? u = none) : t.At u [] v ↔ v = u := by
  constructor
  · intro h
    cases h with
    | name h _ => cases hu.symm.trans h
    | root _ => rfl
  · rintro rfl
    exact .root hu

theorem at_cons_iff {i : Nat} (hu : t.standsFor? u = none) :
    t.At u (i :: p) v ↔ ∃ c, (t.parts u)[i]? = some c ∧ t.At c p v := by
  constructor
  · intro h
    cases h with
    | name h _ => cases hu.symm.trans h
    | part _ hi hc => exact ⟨_, hi, hc⟩
  · rintro ⟨c, hi, hc⟩
    exact .part hu hi hc

/-- A tree is no deeper than a rank that falls from a type to its parts, and nowhere rises. -/
theorem length_le_of_rank (ks : List TypeKey) (rank : TypeKey → Nat)
    (h : ∀ l ∈ ks, (∀ d ∈ t.standsFor? l, d ∈ ks ∧ rank d ≤ rank l) ∧
      ∀ c ∈ t.parts l, c ∈ ks ∧ rank c < rank l)
    (hk : k ∈ ks) {x : List Nat × Shape} (hx : x ∈ t.tree k) : x.1.length ≤ rank k := by
  obtain ⟨u, hu, -⟩ := hx
  generalize x.1 = p at hu
  induction hu with
  | name hs _ ih =>
    obtain ⟨hd, hrank⟩ := (h _ hk).1 _ hs
    exact Nat.le_trans (ih hd) hrank
  | root => exact Nat.zero_le _
  | part _ hi _ ih =>
    obtain ⟨hc, hrank⟩ := (h _ hk).2 _ (List.mem_of_getElem? hi)
    exact Nat.le_trans (Nat.succ_le_succ (ih hc)) hrank

/-- Two different types that may have the same tree, if their parts have. -/
structure Similar (t : TypeTable) (k l : TypeKey) : Prop where
  kind : k.kind = l.kind
  structural : k.kind.isNominal = false
  count : k.kind.isCounted → t.count k = t.count l

theorem Similar.symm (h : t.Similar k l) : t.Similar l k where
  kind := h.kind.symm
  structural := h.kind ▸ h.structural
  count hl := (h.count (h.kind ▸ hl)).symm

theorem Similar.trans (h : t.Similar k l) (h' : t.Similar l r) : t.Similar k r where
  kind := h.kind.trans h'.kind
  structural := h.structural
  count hk := (h.count hk).trans (h'.count (h.kind ▸ hk))

def PartsMatch (t : TypeTable) (n : Nat) (k l : TypeKey) : Prop :=
  List.Forall₂ (fun a b => t.matchWithin n a b = true) (t.parts k) (t.parts l)

theorem all_zip_iff {ks ls : List TypeKey} :
    ((ks.length == ls.length) && (ks.zip ls).all fun (a, b) => t.matchWithin n a b) = true ↔
      List.Forall₂ (fun a b => t.matchWithin n a b = true) ks ls := by
  rw [List.forall₂_iff_zip, Bool.and_eq_true, beq_iff_eq, List.all_eq_true]
  exact and_congr_right fun _ => ⟨fun h a b hab => h (a, b) hab, fun h x hx => h hx⟩

theorem matchWithin_succ_iff : t.matchWithin (n + 1) l r = true ↔
    t.unwrap l = t.unwrap r ∨ t.Similar (t.unwrap l) (t.unwrap r) ∧
      t.PartsMatch n (t.unwrap l) (t.unwrap r) := by
  simp only [matchWithin]
  generalize t.unwrap l = u
  generalize t.unwrap r = v
  by_cases huv : u = v
  · simp only [huv, if_true, true_or]
  by_cases hk : u.kind = v.kind
  · have hsimilar (h : v.kind.isNominal = false) :
        t.Similar u v ↔ (u.kind.isCounted → t.count u = t.count v) :=
      ⟨fun hs => hs.count, fun hc => ⟨hk, hk ▸ h, hc⟩⟩
    have hnominal (h : v.kind.isNominal) : ¬ t.Similar u v := fun hs => by
      have hstructural := hs.structural
      rw [hk, h] at hstructural
      cases hstructural
    simp only [huv, if_false, hk, ne_eq, not_true_eq_false, false_or, PartsMatch, parts]
    cases hkind : v.kind with
    | record _ => simp [hnominal, hkind, Kind.isNominal]
    | enum => simp [hnominal, hkind, Kind.isNominal]
    | function | method =>
      rw [hsimilar (by rw [hkind]; rfl)]
      simp [hk, hkind, Kind.isCounted, ← all_zip_iff, and_assoc]
    | _ =>
      rw [hsimilar (by rw [hkind]; rfl)]
      simp [hk, hkind, Kind.isCounted]
  · have hne : ¬ t.Similar u v := fun h => hk h.kind
    simp only [huv, if_false, hk, ne_eq, not_false_eq_true, if_true, hne, false_and, or_false,
      Bool.false_eq_true]

end TypeTable

end WatchExpr
