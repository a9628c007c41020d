import WatchExpr.Debug.Tables
import WatchExpr.Proofs.Debug.Engines

namespace WatchExpr

theorem Text.le_iff {a b : Text} : Text.le a b ↔ a ≤ b := by
  induction a generalizing b with
  | nil => exact iff_of_true rfl (List.nil_le b)
  | cons x a ih =>
    cases b with
    | nil => simp [Text.le]
    | cons y b => simp [Text.le, List.cons_le_cons_iff, ih]

def Tables.numbered {α : Type} (rows : List α) : List (Nat × α) := rows.zipIdx.map Prod.swap

def Tables.contents (t : Tables) : Contents where
  setting name := t.settings.lookup name
  types := numbered t.types
  members := t.members
  symbols := numbered t.symbols

def Connection.contents (s : Connection) : Option Contents := s.database.map Tables.contents

namespace Tables

theorem map_snd_numbered {α : Type} (rows : List α) : (numbered rows).map Prod.snd = rows := by
  rw [numbered, List.map_map]
  exact List.zipIdx_map_fst 0 rows

theorem pairwise_numbered {α : Type} (rows : List α) :
    (numbered rows).Pairwise (·.1 < ·.1) := by
  rw [List.pairwise_iff_getElem]
  intro i j hi hj hij
  simpa [numbered] using hij

theorem numbered_append {α : Type} (rows : List α) (x : α) :
    numbered (rows ++ [x]) = numbered rows ++ [(rows.length, x)] := by
  simp [numbered, List.zipIdx_append]

theorem coe_numbered_append {α : Type} (rows : List α) (x : α) :
    (numbered (rows ++ [x]) : Multiset (Nat × α)) = (rows.length, x) ::ₘ numbered rows := by
  rw [numbered_append, Multiset.cons_coe, Multiset.coe_eq_coe]
  exact List.perm_append_singleton _ _

theorem lt_of_mem_numbered {α : Type} {rows : List α} {r : Nat × α} (h : r ∈ numbered rows) :
    r.1 < rows.length := by
  obtain ⟨p, hp, rfl⟩ := List.mem_map.1 h
  exact List.snd_lt_of_mem_zipIdx hp

end Tables

namespace Connection

variable {s : Connection} {t : Tables} {c : Contents}

theorem memberLe_iff {a b : MemberRow} : memberLe a b ↔
    a.typeName ≤ b.typeName ∧ (a.typeName = b.typeName → a.ordinal ≤ b.ordinal) := by
  rw [memberLe]
  split
  · rename_i h
    simp [h]
  · rename_i h
    simp [h, Text.le_iff]

theorem memberLe_total (a b : MemberRow) : memberLe a b || memberLe b a := by
  rw [Bool.or_eq_true, memberLe_iff, memberLe_iff]
  by_cases h : a.typeName = b.typeName
  · obtain hle | hle := Nat.le_total a.ordinal b.ordinal
    · exact .inl ⟨h ▸ List.le_refl _, fun _ => hle⟩
    · exact .inr ⟨h ▸ List.le_refl _, fun _ => hle⟩
  · obtain hle | hle := List.le_total a.typeName b.typeName
    · exact .inl ⟨hle, fun he => absurd he h⟩
    · exact .inr ⟨hle, fun he => absurd he.symm h⟩

theorem memberLe_trans (a b c : MemberRow) (hab : memberLe a b) (hbc : memberLe b c) :
    memberLe a c := by
  rw [memberLe_iff] at hab hbc ⊢
  refine ⟨List.le_trans hab.1 hbc.1, ?_⟩
  intro hac
  have hb : a.typeName = b.typeName := by
    apply List.le_antisymm hab.1
    rw [hac]
    exact hbc.1
  exact Nat.le_trans (hab.2 hb) (hbc.2 (hb.symm.trans hac))

theorem le_of_memberLe {a b : MemberRow} (h : memberLe a b) : a.Le b := by
  obtain ⟨hname, hordinal⟩ := memberLe_iff.1 h
  by_cases he : a.typeName = b.typeName
  · exact .inr ⟨he, hordinal he⟩
  · exact .inl (Std.lt_of_le_of_ne hname he)

theorem succeeds_onTables {α : Type} {table : Text} {f : Tables → Except Text (α × Tables)}
    {P : α → Contents → Prop} (hc : contents s = some c)
    (hf : ∀ t, t.contents = c → ∃ a t', f t = .ok (a, t') ∧ P a t'.contents) :
    Succeeds contents (onTables table f) s P := by
  obtain ⟨t, ht, hct⟩ := Option.map_eq_some_iff.1 hc
  obtain ⟨a, t', hft, hP⟩ := hf t hct
  refine ⟨a, { s with database := some t' }, t'.contents, ?_, rfl, hP⟩
  rw [onTables, ht]
  simp only [hft]

theorem faithful : engine.Faithful contents where
  createTables s := by
    refine ⟨(), { s with database := some (s.database.getD {}) }, _, rfl, rfl, ?_⟩
    cases h : s.database with
    | none => simp [contents, h, Tables.contents, Tables.numbered]
    | some t => simp [contents, h]
  begin s c hc := ⟨(), { s with saved := s.database }, c, rfl, hc, rfl⟩
  commit s c hc := ⟨(), s, c, rfl, hc, rfl⟩
  replaceSetting s c name value hc := by
    simp only [engine, replaceSetting]
    apply succeeds_onTables hc
    rintro t rfl
    refine ⟨_, _, rfl, ?_⟩
    have hset : (fun key => List.lookup key ((name, value) :: t.settings)) =
        Function.update (fun key => List.lookup key t.settings) name (some value) := by
      funext key
      by_cases h : key = name
      · simp [h]
      · simp [h, List.lookup_cons, beq_false_of_ne h]
    simp [Tables.contents, hset]
  insertType s c row hc hnew := by
    simp only [engine, insertType]
    apply succeeds_onTables hc
    rintro t rfl
    have hfree : t.types.any (·.name = row.name) = false := by
      rw [List.any_eq_false]
      intro r hr he
      obtain ⟨p, hp, rfl⟩ := List.mem_map.1 (Tables.map_snd_numbered t.types ▸ hr)
      exact hnew p hp (of_decide_eq_true he)
    refine ⟨_, _, if_neg (by simp [hfree]), t.types.length, ?_, ?_⟩
    · intro r hr
      exact Tables.lt_of_mem_numbered hr
    · simp [Tables.contents, Tables.coe_numbered_append]
  insertMember s c row hc hnew := by
    simp only [engine, insertMember]
    apply succeeds_onTables hc
    rintro t rfl
    have hfree : (t.members.any fun m => m.typeName = row.typeName ∧ m.ordinal = row.ordinal) =
        false := by
      rw [List.any_eq_false]
      intro r hr he
      obtain ⟨hname, hordinal⟩ := of_decide_eq_true he
      exact hnew r hr (Prod.ext hname hordinal)
    have hperm : (t.members ++ [row] : Multiset MemberRow) = row ::ₘ t.members :=
      Multiset.coe_eq_coe.2 (List.perm_append_singleton _ _)
    refine ⟨_, _, if_neg (by rw [hfree]; simp), ?_⟩
    simp [Tables.contents, hperm]
  insertSymbol s c row hc := by
    simp only [engine, insertSymbol]
    apply succeeds_onTables hc
    rintro t rfl
    refine ⟨_, _, rfl, t.symbols.length, ?_, ?_⟩
    · intro r hr
      exact Tables.lt_of_mem_numbered hr
    · simp [Tables.contents, Tables.coe_numbered_append]
  selectSetting s c name hc := by
    simp only [engine, selectSetting]
    apply succeeds_onTables hc
    rintro t rfl
    exact ⟨_, _, rfl, rfl, rfl⟩
  selectTypes s c hc := by
    simp only [engine, selectTypes]
    apply succeeds_onTables hc
    rintro t rfl
    exact ⟨_, _, rfl, rfl, _, Tables.map_snd_numbered _, rfl,
      (Tables.pairwise_numbered _).imp Nat.le_of_lt⟩
  selectMembers s c hc := by
    simp only [engine, selectMembers]
    apply succeeds_onTables hc
    rintro t rfl
    refine ⟨_, _, rfl, rfl, Multiset.coe_eq_coe.2 (List.mergeSort_perm _ _), ?_⟩
    exact (List.pairwise_mergeSort memberLe_trans memberLe_total _).imp le_of_memberLe
  selectSymbols s c hc := by
    simp only [engine, selectSymbols]
    apply succeeds_onTables hc
    rintro t rfl
    exact ⟨_, _, rfl, rfl, _, Tables.map_snd_numbered _, rfl,
      (Tables.pairwise_numbered _).imp Nat.le_of_lt⟩

end Connection

end WatchExpr
