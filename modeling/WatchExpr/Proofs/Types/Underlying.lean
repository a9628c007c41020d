import WatchExpr.Proofs.Types.Matching

namespace WatchExpr

namespace TypeTable

variable {t : TypeTable} {k : TypeKey}

/-- Every enumeration is made over a builtin integer. -/
def IntegerEnums (t : TypeTable) : Prop :=
  ∀ ⦃k e⦄, t.entry? k = some e → e.kind = .enum → e.direct.kind.isInteger

def Sized (t : TypeTable) : Prop := ∀ k, t.Owns k → ∃ v, t.size? k = some v

theorem size?_unwrapEnum (t : TypeTable) (k : TypeKey) : t.size? (t.unwrapEnum k) = t.size? k := by
  rw [← size?_unwrapped t k]
  obtain hu | ⟨hk, e, he, hu⟩ := t.unwrap_cases k
  · rw [hu]
  · have hlink : t.sizeLink? (t.unwrap k) = some (1, e.direct) := by
      rw [sizeLink?, hk, he]
      rfl
    have hone : (fun v : UInt64 => 1 * v) = id := funext UInt64.one_mul
    rw [hu, size?_unwrapped, size?_of_link hlink, hone, Option.map_id_fun, id]

theorem sized_of_entries (h : ∀ i, (t.size? (t.keyAt i)).isSome) : t.Sized := by
  intro k hk
  obtain hnone | ⟨i, rfl⟩ := hk.entry?_eq_none_or
  · have hlink : t.sizeLink? k = none := by
      rw [sizeLink?, hnone]
      split <;> rfl
    obtain ⟨v, hv⟩ := sizeWithin_succ_of_no_link hlink
    exact ⟨v, hv (t.entries.size + 1)⟩
  · exact Option.isSome_iff_exists.1 (h i)

theorem isIncomplete_of_complete {t' : TypeTable} {f d : TypeKey} (h : t.complete f d = .ok t') :
    f.kind.isIncomplete := by
  rw [complete] at h
  split at h
  · cases h
  · rename_i hforward
    rw [Bool.or_eq_true, not_or, Bool.not_eq_true', Bool.not_eq_false] at hforward
    exact hforward.1

section Chains
variable (hs : t.ShortChains)
include hs

theorem standsFor?_unwrap (hk : t.Owns k) : t.standsFor? (t.unwrap k) = none := by
  obtain ⟨n, hc⟩ := hs.chain hk
  exact hc.standsFor?

theorem unwrap_unwrap (hk : t.Owns k) : t.unwrap (t.unwrap k) = t.unwrap k :=
  unwrapWithin_of_standsFor (standsFor?_unwrap hs hk) maxChain

theorem unwrap_unwrapEnum (hk : t.Defines k) : t.unwrap (t.unwrapEnum k) = t.unwrapEnum k := by
  obtain hu | ⟨-, e, he, hu⟩ := t.unwrap_cases k
  · rw [hu, unwrap_unwrap hs hk.owns]
  · have hdirect : t.Owns e.direct := by
      rw [← direct_of_entry he]
      exact hk.unwrap hs _ (.direct .self)
    rw [hu, unwrap_unwrap hs hdirect]

/-- What lies behind an enumeration stays, unless it is an enumeration over something itself. -/
theorem unwrapEnum_unwrapEnum (hk : t.Defines k)
    (h : (t.unwrapEnum k).kind = .enum → (t.direct (t.unwrapEnum k)).isZero) :
    t.unwrapEnum (t.unwrapEnum k) = t.unwrapEnum k := by
  have hu := unwrap_unwrapEnum hs hk
  generalize t.unwrapEnum k = u at h hu
  simp only [unwrapEnum, hu, beq_iff_eq]
  split
  · rename_i henum
    rw [if_pos (h henum)]
  · rfl

theorem isInteger_unwrapEnum (hi : t.IntegerEnums) (hk : t.Defines k)
    (hkind : (t.unwrap k).kind = .enum) {e : TypeEntry} (he : t.entry? (t.unwrap k) = some e) :
    (t.unwrapEnum k).kind.isInteger := by
  have hentry : e.kind = .enum := by
    obtain hid | ⟨e', he', hkind'⟩ := (hk.unwrap hs).owns
    · exact absurd hid (entry?_eq_some.1 he).1
    · cases he.symm.trans he'
      exact hkind'.trans hkind
  have hinteger := hi he hentry
  obtain ⟨b, hb⟩ : ∃ b, e.direct.kind = .basic b := by
    cases hkind : e.direct.kind with
    | basic b => exact ⟨b, rfl⟩
    | _ =>
      rw [hkind] at hinteger
      cases hinteger
  have hz : e.direct.isZero = false := by
    rw [TypeKey.isZero, hb]
    rfl
  have hu : t.unwrap e.direct = e.direct :=
    unwrapWithin_of_not_transparent (by rw [hb]; rfl) maxChain
  simp only [unwrapEnum, hkind, beq_self_eq_true, if_true, direct_of_entry he, hz,
    Bool.false_eq_true, if_false, hu]
  exact hinteger

/-- Behind a name there is an enumeration only if it is made over nothing. -/
theorem isZero_direct_unwrapEnum (hi : t.IntegerEnums) (hk : t.Defines k)
    (henum : (t.unwrapEnum k).kind = .enum) : (t.direct (t.unwrapEnum k)).isZero := by
  have habsurd {e : TypeEntry} (hkind : (t.unwrap k).kind = .enum)
      (he : t.entry? (t.unwrap k) = some e) : False := by
    have hinteger := isInteger_unwrapEnum hs hi hk hkind he
    rw [henum] at hinteger
    cases hinteger
  obtain hu | ⟨hkind, e, he, -⟩ := t.unwrap_cases k
  · rw [hu] at henum ⊢
    cases he : t.entry? (t.unwrap k) with
    | none =>
      rw [direct, he]
      rfl
    | some e => exact (habsurd henum he).elim
  · exact (habsurd hkind he).elim

end Chains

end TypeTable

namespace TypeHistory

variable {s : TypeHistory} {r : TypeRequest} {rs : List TypeRequest}

/-- What one request keeps: completing a key that was handed out changes no enumeration. -/
theorem Sound.integerEnums_ask (hs : s.Sound) (ha : s.Accepts r) (h : s.table.IntegerEnums) :
    (s.ask r).table.IntegerEnums := by
  intro k e he henum
  obtain hsame | ⟨e', -, hinteger, hpush⟩ | ⟨f, d, rfl, hcomplete⟩ := s.table.entries_perform r
  · refine h (k := k) ?_ henum
    rwa [TypeTable.entry?, ← hsame]
  · obtain he | ⟨-, rfl⟩ := TypeTable.entry?_push_cases hpush he
    · exact h he henum
    · exact hinteger henum
  · rw [TypeHistory.ask, TypeTable.entry?_completed hcomplete] at he
    split at he
    · rename_i hid
      obtain ⟨e', he', rfl⟩ := Option.map_eq_some_iff.1 he
      have hforward := TypeTable.isIncomplete_of_complete hcomplete
      rw [← hs.kind_of_accepts ha hid.symm he'] at hforward
      rw [henum] at hforward
      cases hforward
    · exact h he henum

theorem Sound.integerEnums_run (hs : s.Sound) (ha : s.Admits rs) (h : s.table.IntegerEnums) :
    (s.run rs).table.IntegerEnums := by
  induction rs generalizing s with
  | nil => exact h
  | cons r rs ih => exact ih (hs.ask ha.1) ha.2 (hs.integerEnums_ask ha.1 h)

theorem integerEnums_start (pointerSize : Int) : (start pointerSize).table.IntegerEnums := by
  intro k e he
  rw [TypeTable.entry?] at he
  split at he <;> cases he

end TypeHistory

namespace TypeTable

/-- Taking the names off a type is done once. What is left is a name only if it refers to nothing,
and has the size of the type, and so has what it is made over if it is an enumeration. Nothing but
an enumeration over an enumeration changes when this is repeated, and there is none in a table in
which only keys that it handed out are completed. -/
theorem unwrap_settles :
    (∀ t : TypeTable, t.ShortChains → ∀ k, t.Defines k →
      ((t.unwrap k).kind.isTransparent → (t.direct (t.unwrap k)).isZero) ∧
      t.unwrap (t.unwrap k) = t.unwrap k ∧
      (((t.unwrapEnum k).kind = .enum → (t.direct (t.unwrapEnum k)).isZero) →
        t.unwrapEnum (t.unwrapEnum k) = t.unwrapEnum k) ∧
      t.size? k = t.size? (t.unwrap k) ∧ t.size? (t.unwrap k) = t.size? (t.unwrapEnum k) ∧
      t.byteSize k = t.byteSize (t.unwrap k) ∧
      t.byteSize (t.unwrap k) = t.byteSize (t.unwrapEnum k)) ∧
    ∀ (pointerSize : Int) (requests : List TypeRequest),
      (TypeHistory.start pointerSize).Admits requests →
      let t := ((TypeHistory.start pointerSize).run requests).table
      t.ShortChains → ∀ k, t.Defines k → t.unwrapEnum (t.unwrapEnum k) = t.unwrapEnum k := by
  constructor
  · intro t hs k hk
    have hu : t.size? k = t.size? (t.unwrap k) := (t.size?_unwrapped k).symm
    have he : t.size? (t.unwrap k) = t.size? (t.unwrapEnum k) :=
      (t.size?_unwrapped k).trans (t.size?_unwrapEnum k).symm
    refine ⟨standsFor?_eq_none.1 (standsFor?_unwrap hs hk.owns), unwrap_unwrap hs hk.owns,
      unwrapEnum_unwrapEnum hs hk, hu, he, ?_, ?_⟩
    · rw [byteSize, byteSize, hu]
    · rw [byteSize, byteSize, he]
  · intro pointerSize requests ha t hs k hk
    have hi : t.IntegerEnums :=
      (TypeHistory.sound_start pointerSize).integerEnums_run ha
        (TypeHistory.integerEnums_start pointerSize)
    exact unwrapEnum_unwrapEnum hs hk (isZero_direct_unwrapEnum hs hi hk)

/-- An enumeration that is announced first, under a qualifier and a name. -/
def paintRequests : List TypeRequest :=
  [.forward (.incomplete .enum) "Color" .zero, .enum "Color" (.basic .u8),
    .complete ⟨.incomplete .enum, 1⟩ ⟨.enum, 2⟩, .modifier "const" ⟨.incomplete .enum, 1⟩,
    .typedef (Text.ofString "Paint") ⟨.modifier, 3⟩]

def paintTable : TypeTable := ((TypeHistory.start 8).run paintRequests).table

theorem unwrap_paint :
    (TypeHistory.start 8).Admits paintRequests ∧ paintTable.ShortChains ∧
      paintTable.Defines ⟨.typedef, 4⟩ ∧ paintTable.unwrap ⟨.typedef, 4⟩ = ⟨.enum, 2⟩ ∧
      paintTable.unwrap ⟨.enum, 2⟩ = ⟨.enum, 2⟩ ∧
      paintTable.unwrapEnum ⟨.typedef, 4⟩ = .basic .u8 ∧
      paintTable.unwrapEnum (.basic .u8) = .basic .u8 ∧
      paintTable.byteSize ⟨.typedef, 4⟩ = 1 ∧ paintTable.byteSize ⟨.enum, 2⟩ = 1 := by
  have ha : (TypeHistory.start 8).Admits paintRequests := by decide +kernel
  have hs : paintTable.ShortChains := shortChains_of_entries (by decide +kernel)
  have hk : paintTable.Defines ⟨.typedef, 4⟩ :=
    defines_of_closed [.zero, .basic .u8, ⟨.incomplete .enum, 1⟩, ⟨.enum, 2⟩, ⟨.modifier, 3⟩,
      ⟨.typedef, 4⟩] (by decide) (by decide +kernel)
  have hu : paintTable.unwrap ⟨.typedef, 4⟩ = ⟨.enum, 2⟩ := by decide +kernel
  have he : paintTable.unwrapEnum ⟨.typedef, 4⟩ = .basic .u8 := by decide +kernel
  obtain ⟨-, hunwrap, -, -, -, hsize, hsize'⟩ := unwrap_settles.1 paintTable hs _ hk
  have hunwrapEnum : paintTable.unwrapEnum (paintTable.unwrapEnum ⟨.typedef, 4⟩) =
      paintTable.unwrapEnum ⟨.typedef, 4⟩ := unwrap_settles.2 8 paintRequests ha hs _ hk
  have hbasic : paintTable.byteSize (.basic .u8) = 1 :=
    byteSize_basic (b := .u8) rfl
  rw [hu] at hunwrap hsize hsize'
  rw [he] at hunwrapEnum hsize'
  have henum : paintTable.byteSize ⟨.enum, 2⟩ = 1 := hsize'.trans hbasic
  exact ⟨ha, hs, hk, hu, hunwrap, he, hunwrapEnum, hsize.trans henum, henum⟩

/-- Two enumerations, of which the first was completed with the second like a forward
declaration. -/
def nestedTable : TypeTable :=
  ((TypeHistory.start 8).run
    [.enum "A" (.basic .u8), .enum "B" (.basic .u8),
      .complete ⟨.incomplete .struct, 1⟩ ⟨.enum, 2⟩]).table

/-- Behind an enumeration over an enumeration one more type is found each time. -/
theorem unwrapEnum_nested :
    nestedTable.ShortChains ∧ nestedTable.Sized ∧ nestedTable.Defines ⟨.enum, 1⟩ ∧
      nestedTable.unwrapEnum (nestedTable.unwrapEnum ⟨.enum, 1⟩) ≠
        nestedTable.unwrapEnum ⟨.enum, 1⟩ := by
  refine ⟨shortChains_of_entries (by decide +kernel), sized_of_entries (by decide +kernel), ?_,
    by decide +kernel⟩
  exact defines_of_closed [.zero, .basic .u8, ⟨.enum, 1⟩, ⟨.enum, 2⟩] (by decide)
    (by decide +kernel)

end TypeTable

end WatchExpr
