import WatchExpr.Proofs.Types.Growth

namespace WatchExpr

/-- What can be asked of a table of types. -/
inductive TypeRequest where
  | record (kind : Kind) (name : Text) (size : UInt64) (members : List Member)
  | enum (name : Text) (underlying : TypeKey)
  | typedef (name : Text) (target : TypeKey)
  | modifier (qualifier : Text) (target : TypeKey)
  | forward (kind : Kind) (name : Text) (definition : TypeKey)
  | complete (forward definition : TypeKey)
  | function (result : TypeKey) (params : List TypeKey)
  | method (owner result : TypeKey) (params : List TypeKey)
  | memberPointer (owner target : TypeKey)
  | reference (kind : Kind) (target : TypeKey)
  | pointer (target : TypeKey)
  | array (element : TypeKey) (count : UInt64)
  deriving DecidableEq

/-- What a table answers. -/
inductive TypeReply where
  | key (k : TypeKey)
  /-- A forward declaration was completed. -/
  | done
  | refused (cause : TypeError)
  deriving DecidableEq

namespace TypeTable

/-- A table hands out the key of an entry. -/
def give (added : TypeKey × TypeTable) : TypeReply × TypeTable := (.key added.1, added.2)

/-- A definition that may be refused; then the table stays as it is. -/
def settle (t : TypeTable) : Except TypeError (TypeKey × TypeTable) → TypeReply × TypeTable
  | .ok added => give added
  | .error cause => (.refused cause, t)

/-- The answer to a request, and the table after it. -/
def perform (t : TypeTable) : TypeRequest → TypeReply × TypeTable
  | .record kind name size members => t.settle (t.defineRecord kind name size members)
  | .enum name underlying => t.settle (t.defineEnum name underlying)
  | .typedef name target => give (t.defineAlias name target)
  | .modifier qualifier target => give (t.defineModifier qualifier target)
  | .forward kind name definition => t.settle (t.defineIncomplete kind name definition)
  | .complete forward definition =>
    match t.complete forward definition with
    | .ok t' => (.done, t')
    | .error cause => (.refused cause, t)
  | .function result params => give (t.defineFunction result params)
  | .method owner result params => give (t.defineMethod owner result params)
  | .memberPointer owner target => give (t.defineMemberPointer owner target)
  | .reference kind target => give (t.reference kind target)
  | .pointer target => give (t.pointer target)
  | .array element count => give (t.array element count)

end TypeTable

/-- A table with the requests it has answered, the latest first. -/
structure TypeHistory where
  table : TypeTable
  log : List (TypeRequest × TypeReply) := []

namespace TypeHistory

def start (pointerSize : Int) : TypeHistory := { table := .empty pointerSize }

def ask (s : TypeHistory) (r : TypeRequest) : TypeHistory :=
  ⟨(s.table.perform r).2, (r, (s.table.perform r).1) :: s.log⟩

def run (s : TypeHistory) : List TypeRequest → TypeHistory
  | [] => s
  | r :: rs => (s.ask r).run rs

/-- What is answered to some requests, the latest first. -/
def answers (s : TypeHistory) : List TypeRequest → List (TypeRequest × TypeReply)
  | [] => []
  | r :: rs => (s.ask r).answers rs ++ [(r, (s.table.perform r).1)]

/-- A builtin key, or one that the table has handed out. -/
def Knows (s : TypeHistory) (k : TypeKey) : Prop := k.id = 0 ∨ .key k ∈ s.log.map Prod.snd

instance (s : TypeHistory) (k : TypeKey) : Decidable (s.Knows k) :=
  inferInstanceAs (Decidable (_ ∨ _))

/-- Only a known key may be completed. What a request refers to otherwise does not matter. -/
def Accepts (s : TypeHistory) : TypeRequest → Prop
  | .complete forward _ => s.Knows forward
  | _ => True

instance (s : TypeHistory) (r : TypeRequest) : Decidable (s.Accepts r) :=
  match r with
  | .complete forward _ => inferInstanceAs (Decidable (s.Knows forward))
  | .record .. | .enum .. | .typedef .. | .modifier .. | .forward .. | .function .. | .method ..
  | .memberPointer .. | .reference .. | .pointer .. | .array .. => inferInstanceAs (Decidable True)

def Admits (s : TypeHistory) : List TypeRequest → Prop
  | [] => True
  | r :: rs => s.Accepts r ∧ (s.ask r).Admits rs

instance decidableAdmits : (rs : List TypeRequest) → (s : TypeHistory) → Decidable (s.Admits rs)
  | [], _ => inferInstanceAs (Decidable True)
  | r :: rs, s =>
    have := decidableAdmits rs (s.ask r)
    inferInstanceAs (Decidable (s.Accepts r ∧ (s.ask r).Admits rs))

end TypeHistory

def TypeRequest.isSilent : TypeRequest → Bool
  | complete .. | pointer .. | array .. => true
  | _ => false

def TypeReply.isRefused : TypeReply → Bool
  | refused _ => true
  | _ => false

/-- The definition that an answered request points a key at. -/
def completion? (k : TypeKey) : TypeRequest × TypeReply → Option TypeKey
  | (.complete forward definition, .done) => if forward = k then some definition else none
  | _ => none

namespace TypeTable

variable {t t' : TypeTable} {k p f d : TypeKey} {e : TypeEntry} {r : TypeRequest} {a : TypeReply}

/-- All that a request can do to a table. -/
inductive Effect (t : TypeTable) : TypeRequest → TypeReply → TypeTable → Prop where
  | refused {r : TypeRequest} {cause : TypeError} : Effect t r (.refused cause) t
  | foundPointer {k p : TypeKey} :
      t.pointers.lookup k = some p → Effect t (.pointer k) (.key p) t
  | foundArray {k p : TypeKey} {n : UInt64} :
      t.arrays.lookup (k, n) = some p → Effect t (.array k n) (.key p) t
  | added {r : TypeRequest} {e : TypeEntry} {t' : TypeTable} :
      r.isSilent = false → t'.entries = t.entries.push e → t'.pointers = t.pointers →
      t'.arrays = t.arrays → Effect t r (.key ⟨e.kind, t.entries.size + 1⟩) t'
  | addedPointer {k : TypeKey} {t' : TypeTable} :
      t.pointers.lookup k = none → t'.entries = t.entries.push { kind := .pointer, direct := k } →
      t'.pointers = (k, ⟨.pointer, t.entries.size + 1⟩) :: t.pointers → t'.arrays = t.arrays →
      t'.names = t.names → Effect t (.pointer k) (.key ⟨.pointer, t.entries.size + 1⟩) t'
  | addedArray {k : TypeKey} {n : UInt64} {t' : TypeTable} :
      t.arrays.lookup (k, n) = none →
      t'.entries = t.entries.push { kind := .array, direct := k, count := n } →
      t'.pointers = t.pointers → t'.arrays = ((k, n), ⟨.array, t.entries.size + 1⟩) :: t.arrays →
      t'.names = t.names → Effect t (.array k n) (.key ⟨.array, t.entries.size + 1⟩) t'
  | completed {f d : TypeKey} : f.kind.isIncomplete → f.id ≠ 0 →
      Effect t (.complete f d) .done { t with
        entries := t.entries.modify (f.id - 1) fun e => { e with direct := d } }

theorem effect_add (t : TypeTable) (e : TypeEntry) (hr : r.isSilent = false) :
    t.Effect r (give (t.add e)).1 (give (t.add e)).2 := by
  have hkey : (t.add e).1 = ⟨e.kind, t.entries.size + 1⟩ := by
    simp only [add]
    split <;> rfl
  have hpointers : (t.add e).2.pointers = t.pointers := by
    simp only [add]
    split <;> rfl
  have harrays : (t.add e).2.arrays = t.arrays := by
    simp only [add]
    split <;> rfl
  simp only [give, hkey]
  exact .added hr (t.entries_add e) hpointers harrays

theorem effect_perform (t : TypeTable) (r : TypeRequest) :
    t.Effect r (t.perform r).1 (t.perform r).2 := by
  cases r with
  | record kind name size members =>
    simp only [perform, defineRecord]
    split
    · exact effect_add t _ rfl
    · exact .refused
  | enum name underlying =>
    simp only [perform, defineEnum]
    split
    · exact effect_add t _ rfl
    · exact .refused
  | typedef name target => exact effect_add t _ rfl
  | modifier qualifier target => exact effect_add t _ rfl
  | forward kind name definition =>
    simp only [perform, defineIncomplete]
    split
    · exact .added rfl rfl rfl rfl
    · exact .refused
  | complete f d =>
    simp only [perform, complete]
    split
    · rename_i t' ht
      split at ht
      · cases ht
      · rename_i hf
        split at ht
        · cases ht
        · cases ht
          simp only [Bool.or_eq_true, Bool.not_eq_true', decide_eq_true_eq, not_or,
            Bool.not_eq_false] at hf
          exact .completed hf.1 hf.2
    · exact .refused
  | function result params => exact effect_add t _ rfl
  | method owner result params => exact effect_add t _ rfl
  | memberPointer owner target => exact effect_add t _ rfl
  | reference kind target => exact effect_add t _ rfl
  | pointer k =>
    simp only [perform, pointer]
    split
    · rename_i p hp
      exact .foundPointer hp
    · rename_i hp
      simp only [t.add_unnamed (e := { kind := .pointer, direct := k }) rfl]
      exact .addedPointer hp rfl rfl rfl rfl
  | array k n =>
    simp only [perform, array]
    split
    · rename_i p hp
      exact .foundArray hp
    · rename_i hp
      simp only [t.add_unnamed (e := { kind := .array, direct := k, count := n }) rfl]
      exact .addedArray hp rfl rfl rfl rfl

theorem entry?_of_id (h : k.id = p.id) : t.entry? k = t.entry? p := by
  unfold entry?
  rw [h]

theorem entry?_push (h : t'.entries = t.entries.push e) (kind : Kind) :
    t'.entry? ⟨kind, t.entries.size + 1⟩ = some e := by
  unfold entry?
  rw [if_neg (Nat.succ_ne_zero _), h, Nat.add_sub_cancel, Array.getElem?_push_size]

theorem entry?_complete (t : TypeTable) (hf : f.id ≠ 0) (d k : TypeKey) :
    entry? { t with entries := t.entries.modify (f.id - 1) fun e => { e with direct := d } } k =
      if k.id = f.id then (t.entry? k).map fun e => { e with direct := d } else t.entry? k := by
  simp only [TypeTable.entry?, Array.getElem?_modify]
  by_cases hk : k.id = 0
  · simp only [hk, if_true, Option.map_none, ite_self]
  · by_cases hid : k.id = f.id
    · simp only [hid, hf, if_true, if_false]
    · rw [if_neg hk, if_neg (by omega), if_neg hid, if_neg hk]

theorem completion?_of_ne_done (h : a ≠ .done) : completion? k (r, a) = none := by
  cases a with
  | done => exact absurd rfl h
  | key => cases r <;> rfl
  | refused => cases r <;> rfl

theorem Effect.entry_cases (h : t.Effect r a t') (he : t.entry? k = some e) :
    t'.entry? k = some e ∧ completion? k (r, a) = none ∨
      ∃ f d, r = .complete f d ∧ a = .done ∧ f.kind.isIncomplete ∧ f.id = k.id ∧
        t'.entry? k = some { e with direct := d } := by
  cases h with
  | refused | foundPointer | foundArray => exact .inl ⟨he, completion?_of_ne_done (by simp)⟩
  | added _ hp => exact .inl ⟨extends_of_push hp he, completion?_of_ne_done (by simp)⟩
  | addedPointer _ hp => exact .inl ⟨extends_of_push hp he, completion?_of_ne_done (by simp)⟩
  | addedArray _ hp => exact .inl ⟨extends_of_push hp he, completion?_of_ne_done (by simp)⟩
  | @completed f d hi hf =>
    rw [entry?_complete t hf]
    split
    · rename_i hid
      rw [he]
      exact .inr ⟨f, d, rfl, rfl, hi, hid.symm, rfl⟩
    · rename_i hid
      refine .inl ⟨he, if_neg ?_⟩
      rintro rfl
      exact hid rfl

theorem Effect.completion?_of_id (h : t.Effect r a t') (hk : k.id = 0) :
    completion? k (r, a) = none := by
  cases h with
  | @completed f d _ hf =>
    refine if_neg ?_
    rintro rfl
    exact hf hk
  | _ => exact completion?_of_ne_done (by simp)

/-- Interned keys are keys of the pointers and arrays that were asked for. -/
structure Interned (t : TypeTable) : Prop where
  pointer : ∀ ⦃k p : TypeKey⦄, t.pointers.lookup k = some p →
    ∃ e, t.entry? p = some e ∧ e.kind = .pointer ∧ e.direct = k
  array : ∀ ⦃k p : TypeKey⦄ ⦃n : UInt64⦄, t.arrays.lookup (k, n) = some p →
    ∃ e, t.entry? p = some e ∧ e.kind = .array ∧ e.direct = k ∧ e.count = n

theorem interned_empty (pointerSize : Int) : (empty pointerSize).Interned where
  pointer _ _ h := by cases h
  array _ _ _ h := by cases h

/-- A lookup in an extended list finds the new pair or what was there. -/
theorem lookup_cons_cases {α β : Type} [BEq α] [LawfulBEq α] {x y : α} {b c : β} {l : List (α × β)}
    (h : ((x, b) :: l).lookup y = some c) : y = x ∧ c = b ∨ l.lookup y = some c := by
  rw [List.lookup_cons] at h
  split at h
  · rename_i hxy
    cases h
    exact .inl ⟨eq_of_beq hxy, rfl⟩
  · exact .inr h

/-- Interning is sound after a request under which pointers and arrays keep their entries. -/
theorem Interned.effect (hi : t.Interned) (h : t.Effect r a t')
    (hkeep : ∀ ⦃k e⦄, t.entry? k = some e → e.kind.isIncomplete = false → t'.entry? k = some e) :
    t'.Interned := by
  have hpointer {k p : TypeKey} (hp : t.pointers.lookup k = some p) :
      ∃ e, t'.entry? p = some e ∧ e.kind = .pointer ∧ e.direct = k := by
    obtain ⟨e, he, hk, hd⟩ := hi.pointer hp
    exact ⟨e, hkeep he (by rw [hk]; rfl), hk, hd⟩
  have harray {k p : TypeKey} {n : UInt64} (hp : t.arrays.lookup (k, n) = some p) :
      ∃ e, t'.entry? p = some e ∧ e.kind = .array ∧ e.direct = k ∧ e.count = n := by
    obtain ⟨e, he, hk, hd⟩ := hi.array hp
    exact ⟨e, hkeep he (by rw [hk]; rfl), hk, hd⟩
  cases h with
  | refused | foundPointer | foundArray => exact hi
  | added _ _ hps has =>
    exact ⟨fun k p hp => hpointer (hps ▸ hp), fun k p n hp => harray (has ▸ hp)⟩
  | @addedPointer k _ _ hpush hps has =>
    refine ⟨fun k' p hp => ?_, fun k p n hp => harray (has ▸ hp)⟩
    rw [hps] at hp
    obtain ⟨rfl, rfl⟩ | hp := lookup_cons_cases hp
    · exact ⟨_, entry?_push hpush _, rfl, rfl⟩
    · exact hpointer hp
  | @addedArray k n _ _ hpush hps has =>
    refine ⟨fun k p hp => hpointer (hps ▸ hp), fun k' p n' hp => ?_⟩
    rw [has] at hp
    obtain ⟨hkn, rfl⟩ | hp := lookup_cons_cases hp
    · cases hkn
      exact ⟨_, entry?_push hpush _, rfl, rfl, rfl⟩
    · exact harray hp
  | completed => exact ⟨fun k p hp => hpointer hp, fun k p n hp => harray hp⟩

theorem Effect.kind_entry (h : t.Effect r (.key k) t') (hi : t.Interned) :
    ∃ e, t'.entry? k = some e ∧ e.kind = k.kind := by
  cases h with
  | foundPointer hp =>
    obtain ⟨e, he, hk, -⟩ := hi.pointer hp
    exact ⟨e, he, hk.trans (t.pointers_kind _ (mem_of_lookup hp)).symm⟩
  | foundArray hp =>
    obtain ⟨e, he, hk, -⟩ := hi.array hp
    exact ⟨e, he, hk.trans (t.arrays_kind _ (mem_of_lookup hp)).symm⟩
  | added _ hpush => exact ⟨_, entry?_push hpush _, rfl⟩
  | addedPointer _ hpush => exact ⟨_, entry?_push hpush _, rfl⟩
  | addedArray _ hpush => exact ⟨_, entry?_push hpush _, rfl⟩

theorem Effect.grows_pointers (h : t.Effect r a t') (hp : t.pointers.lookup k = some p) :
    t'.pointers.lookup k = some p := by
  cases h with
  | refused | foundPointer | foundArray | completed => exact hp
  | added _ _ hps => rw [hps]; exact hp
  | addedPointer hn _ hps => rw [hps]; exact lookup_cons_of_lookup hn hp
  | addedArray _ _ hps => rw [hps]; exact hp

theorem Effect.grows_arrays {n : UInt64} (h : t.Effect r a t')
    (hp : t.arrays.lookup (k, n) = some p) : t'.arrays.lookup (k, n) = some p := by
  cases h with
  | refused | foundPointer | foundArray | completed => exact hp
  | added _ _ _ has => rw [has]; exact hp
  | addedPointer _ _ _ has => rw [has]; exact hp
  | addedArray hn _ _ has => rw [has]; exact lookup_cons_of_lookup hn hp

theorem Effect.lookup? (h : t.Effect r a t') (hr : r.isSilent ∨ a.isRefused)
    (name : Text) : t'.lookup? name = t.lookup? name := by
  cases h with
  | refused | foundPointer | foundArray | completed => rfl
  | added hs =>
    obtain hr | hr := hr
    · rw [hs] at hr
      cases hr
    · cases hr
  | addedPointer _ _ _ _ hn => rw [TypeTable.lookup?, TypeTable.lookup?, hn]
  | addedArray _ _ _ _ hn => rw [TypeTable.lookup?, TypeTable.lookup?, hn]

end TypeTable

namespace TypeHistory

variable {s : TypeHistory} {r : TypeRequest} {rs : List TypeRequest} {k p : TypeKey} {e : TypeEntry}

/-- What a table has handed out is what it holds. -/
structure Sound (s : TypeHistory) : Prop where
  interned : s.table.Interned
  keys : ∀ ⦃k⦄, .key k ∈ s.log.map Prod.snd → ∃ e, s.table.entry? k = some e ∧ e.kind = k.kind
  pointers : ∀ ⦃k a⦄, (.pointer k, a) ∈ s.log →
    ∃ p, a = .key p ∧ s.table.pointers.lookup k = some p
  arrays : ∀ ⦃k n a⦄, (.array k n, a) ∈ s.log →
    ∃ p, a = .key p ∧ s.table.arrays.lookup (k, n) = some p

theorem sound_start (pointerSize : Int) : (start pointerSize).Sound where
  interned := TypeTable.interned_empty pointerSize
  keys := by simp [start]
  pointers := by simp [start]
  arrays := by simp [start]

namespace Sound

variable (hs : s.Sound)
include hs

theorem kind_of_accepts {f d : TypeKey} (ha : s.Accepts (.complete f d)) (hf : f.id = k.id)
    (he : s.table.entry? k = some e) : e.kind = f.kind := by
  obtain h0 | hmem := ha
  · rw [TypeTable.entry?, if_pos (by rw [← hf, h0])] at he
    cases he
  · obtain ⟨e', he', hk⟩ := hs.keys hmem
    rw [TypeTable.entry?_of_id hf, he] at he'
    cases he'
    exact hk

theorem entry?_of_complete (ha : s.Accepts r) (he : s.table.entry? k = some e)
    (hi : e.kind.isIncomplete = false) : (s.ask r).table.entry? k = some e := by
  obtain ⟨he', -⟩ | ⟨f, d, rfl, -, hf, hid, -⟩ := (s.table.effect_perform r).entry_cases he
  · exact he'
  · rw [hs.kind_of_accepts ha hid he, hf] at hi
    cases hi

/-- The entry of a key that was handed out changes only when the key itself is completed. -/
theorem entry?_ask (ha : s.Accepts r) (hk : e.kind = k.kind) (he : s.table.entry? k = some e) :
    (s.ask r).table.entry? k =
      some { e with direct := (completion? k (r, (s.table.perform r).1)).getD e.direct } := by
  obtain ⟨he', hc⟩ | ⟨f, d, rfl, hdone, -, hid, he'⟩ := (s.table.effect_perform r).entry_cases he
  · rw [hc]
    exact he'
  · have hfk : f = k := by
      have hkind := hs.kind_of_accepts ha hid he
      cases f
      cases k
      simp_all
    rw [hdone, completion?, if_pos hfk]
    exact he'

theorem ask (ha : s.Accepts r) : (s.ask r).Sound := by
  have heffect := s.table.effect_perform r
  refine ⟨hs.interned.effect heffect fun k e he hi => hs.entry?_of_complete ha he hi, ?_, ?_, ?_⟩
  · intro k hk
    obtain hk | hk := List.mem_cons.1 hk
    · have hk : (s.table.perform r).1 = .key k := hk.symm
      rw [hk] at heffect
      exact heffect.kind_entry hs.interned
    · obtain ⟨e, he, hkind⟩ := hs.keys hk
      exact ⟨_, hs.entry?_ask ha hkind he, hkind⟩
  · intro k a hk
    obtain hk | hk := List.mem_cons.1 hk
    · cases hk
      exact ⟨_, rfl, s.table.lookup_pointer k⟩
    · obtain ⟨p, hp, hl⟩ := hs.pointers hk
      exact ⟨p, hp, heffect.grows_pointers hl⟩
  · intro k n a hk
    obtain hk | hk := List.mem_cons.1 hk
    · cases hk
      exact ⟨_, rfl, s.table.lookup_array k n⟩
    · obtain ⟨p, hp, hl⟩ := hs.arrays hk
      exact ⟨p, hp, heffect.grows_arrays hl⟩

end Sound

theorem admits_append (s : TypeHistory) (rs rs' : List TypeRequest) :
    s.Admits (rs ++ rs') ↔ s.Admits rs ∧ (s.run rs).Admits rs' := by
  induction rs generalizing s with
  | nil => exact (true_and _).symm.to_iff
  | cons r rs ih => rw [List.cons_append, Admits, Admits, ih, and_assoc, run]

theorem Sound.run (hs : s.Sound) (ha : s.Admits rs) : (s.run rs).Sound := by
  induction rs generalizing s with
  | nil => exact hs
  | cons r rs ih => exact ih (hs.ask ha.1) ha.2

/-- The entry of a key that was handed out, after some requests. -/
theorem Sound.entry?_run (hs : s.Sound) (ha : s.Admits rs) (hk : e.kind = k.kind)
    (he : s.table.entry? k = some e) :
    (s.run rs).table.entry? k =
      some { e with direct := ((s.answers rs).findSome? (completion? k)).getD e.direct } := by
  induction rs generalizing s e with
  | nil => exact he
  | cons r rs ih =>
    rw [TypeHistory.run, ih (hs.ask ha.1) ha.2 (by exact hk) (hs.entry?_ask ha.1 hk he), answers,
      List.findSome?_append, List.findSome?_singleton]
    cases (answers (s.ask r) rs).findSome? (completion? k) with
    | some d => rfl
    | none => rfl

theorem findSome?_completion_of_id (hk : k.id = 0) (s : TypeHistory) (rs : List TypeRequest) :
    (s.answers rs).findSome? (completion? k) = none := by
  induction rs generalizing s with
  | nil => rfl
  | cons r rs ih =>
    rw [answers, List.findSome?_append, ih, List.findSome?_singleton, Option.none_or]
    exact (s.table.effect_perform r).completion?_of_id hk

theorem lookup?_run (s : TypeHistory) (rs : List TypeRequest)
    (h : ∀ x ∈ s.answers rs, x.1.isSilent ∨ x.2.isRefused) (name : Text) :
    (s.run rs).table.lookup? name = s.table.lookup? name := by
  induction rs generalizing s with
  | nil => rfl
  | cons r rs ih =>
    obtain ⟨hrs, hr⟩ := List.forall_mem_append.1 h
    rw [run, ih (s.ask r) hrs]
    exact (s.table.effect_perform r).lookup? (hr _ (List.mem_singleton_self _)) name

theorem Sound.run_keeps (hs : s.Sound) (ha : s.Admits rs) (hk : s.Knows k) :
    (s.run rs).table.owner k = s.table.owner k ∧ (s.run rs).table.count k = s.table.count k ∧
      (s.run rs).table.members k = s.table.members k ∧
      (s.run rs).table.params k = s.table.params k ∧ (s.run rs).table.name k = s.table.name k ∧
      (s.run rs).table.direct k =
        ((s.answers rs).findSome? (completion? k)).getD (s.table.direct k) := by
  obtain h0 | hmem := hk
  · have hnone (t : TypeTable) : t.entry? k = none := by rw [TypeTable.entry?, if_pos h0]
    simp [TypeTable.owner, TypeTable.count, TypeTable.members, TypeTable.params, TypeTable.name,
      TypeTable.direct, hnone, findSome?_completion_of_id h0]
  · obtain ⟨e, he, hkind⟩ := hs.keys hmem
    simp only [TypeTable.owner, TypeTable.count, TypeTable.members, TypeTable.params,
      TypeTable.name, TypeTable.direct, he, hs.entry?_run ha hkind he]
    exact ⟨rfl, rfl, rfl, rfl, rfl, rfl⟩

theorem Sound.pointer_iff (hs : s.Sound) {k k' : TypeKey} {a a' : TypeReply}
    (h : (.pointer k, a) ∈ s.log) (h' : (.pointer k', a') ∈ s.log) :
    ∃ p p', a = .key p ∧ a' = .key p' ∧ s.table.direct p = k ∧ (p = p' ↔ k = k') := by
  obtain ⟨p, rfl, hp⟩ := hs.pointers h
  obtain ⟨p', rfl, hp'⟩ := hs.pointers h'
  obtain ⟨e, he, -, hd⟩ := hs.interned.pointer hp
  obtain ⟨e', he', -, hd'⟩ := hs.interned.pointer hp'
  have hdirect := (TypeTable.direct_of_entry he).trans hd
  refine ⟨p, p', rfl, rfl, hdirect, ?_, ?_⟩
  · rintro rfl
    exact hdirect.symm.trans ((TypeTable.direct_of_entry he').trans hd')
  · rintro rfl
    exact Option.some.inj (hp.symm.trans hp')

theorem Sound.array_iff (hs : s.Sound) {k k' : TypeKey} {n n' : UInt64} {a a' : TypeReply}
    (h : (.array k n, a) ∈ s.log) (h' : (.array k' n', a') ∈ s.log) :
    ∃ p p', a = .key p ∧ a' = .key p' ∧ s.table.direct p = k ∧ s.table.count p = n ∧
      (p = p' ↔ k = k' ∧ n = n') := by
  obtain ⟨p, rfl, hp⟩ := hs.arrays h
  obtain ⟨p', rfl, hp'⟩ := hs.arrays h'
  obtain ⟨e, he, -, hd, hn⟩ := hs.interned.array hp
  obtain ⟨e', he', -, hd', hn'⟩ := hs.interned.array hp'
  have hdirect := (TypeTable.direct_of_entry he).trans hd
  have hcount : s.table.count p = n := by
    rw [TypeTable.count, he]
    exact hn
  refine ⟨p, p', rfl, rfl, hdirect, hcount, ?_, ?_⟩
  · rintro rfl
    rw [he] at he'
    cases he'
    exact ⟨hd.symm.trans hd', hn.symm.trans hn'⟩
  · rintro ⟨rfl, rfl⟩
    exact Option.some.inj (hp.symm.trans hp')

/-- A key that is known at some moment keeps its meaning at every later one; a forward declaration
is, from each completion on, the type it was completed with. A pointer that is asked for at two
moments is the same key, pointers to different types are different keys, and likewise for arrays.
Interning, completing and refused definitions leave the named types alone. -/
theorem run_keeps_keys (pointerSize : Int) (before after : List TypeRequest)
    (h : (start pointerSize).Admits (before ++ after)) :
    let s := (start pointerSize).run before
    let s' := s.run after
    (∀ k, s.Knows k →
      s'.table.owner k = s.table.owner k ∧ s'.table.count k = s.table.count k ∧
      s'.table.members k = s.table.members k ∧ s'.table.params k = s.table.params k ∧
      s'.table.name k = s.table.name k ∧
      s'.table.direct k = ((s.answers after).findSome? (completion? k)).getD (s.table.direct k)) ∧
    (∀ k k' a a', (.pointer k, a) ∈ s'.log → (.pointer k', a') ∈ s'.log →
      ∃ p p', a = .key p ∧ a' = .key p' ∧ s'.table.direct p = k ∧ (p = p' ↔ k = k')) ∧
    (∀ k k' n n' a a', (.array k n, a) ∈ s'.log → (.array k' n', a') ∈ s'.log →
      ∃ p p', a = .key p ∧ a' = .key p' ∧ s'.table.direct p = k ∧ s'.table.count p = n ∧
        (p = p' ↔ k = k' ∧ n = n')) ∧
    ((∀ x ∈ s.answers after, x.1.isSilent ∨ x.2.isRefused) →
      ∀ name, s'.table.lookup? name = s.table.lookup? name) := by
  intro s s'
  obtain ⟨hbefore, hafter⟩ := (admits_append _ _ _).1 h
  have hs : s.Sound := (sound_start pointerSize).run hbefore
  have hs' : s'.Sound := hs.run hafter
  exact ⟨fun k hk => hs.run_keeps hafter hk, fun k k' a a' => hs'.pointer_iff,
    fun k k' n n' a a' => hs'.array_iff, fun hsilent name => lookup?_run s after hsilent name⟩

/-- A record announced, pointed to and then defined with a member that points to it. -/
def linkRequests : List TypeRequest :=
  [.forward (.incomplete .struct) "Link" .zero, .pointer ⟨.incomplete .struct, 1⟩,
    .record (.record .struct) "Link" 8 [⟨"next", ⟨.pointer, 2⟩, 0⟩]]

/-- The announcement is completed, the pointer asked for again, and an enumeration refused. -/
def linkCompletion : List TypeRequest :=
  [.complete ⟨.incomplete .struct, 1⟩ ⟨.record .struct, 3⟩, .pointer ⟨.incomplete .struct, 1⟩,
    .enum "Link" ⟨.pointer, 2⟩]

theorem link_keeps_keys :
    (start 8).Admits (linkRequests ++ linkCompletion) ∧
    let s := (start 8).run linkRequests
    let s' := s.run linkCompletion
    s'.table.direct ⟨.incomplete .struct, 1⟩ = ⟨.record .struct, 3⟩ ∧
      s'.table.members ⟨.record .struct, 3⟩ = [⟨"next", ⟨.pointer, 2⟩, 0⟩] ∧
      s'.table.direct ⟨.pointer, 2⟩ = ⟨.incomplete .struct, 1⟩ ∧
      s'.table.lookup? "Link" = s.table.lookup? "Link" := by
  have h : (start 8).Admits (linkRequests ++ linkCompletion) := by decide +kernel
  obtain ⟨hkeys, -, -, hlookup⟩ := run_keeps_keys 8 linkRequests linkCompletion h
  obtain ⟨-, -, -, -, -, hforward⟩ := hkeys ⟨.incomplete .struct, 1⟩ (by decide +kernel)
  obtain ⟨-, -, hmembers, -⟩ := hkeys ⟨.record .struct, 3⟩ (by decide +kernel)
  obtain ⟨-, -, -, -, -, hpointer⟩ := hkeys ⟨.pointer, 2⟩ (by decide +kernel)
  refine ⟨h, hforward.trans ?_, hmembers.trans ?_, hpointer.trans ?_, hlookup ?_ "Link"⟩
  · decide +kernel
  · decide +kernel
  · decide +kernel
  · decide +kernel

end TypeHistory

end WatchExpr
