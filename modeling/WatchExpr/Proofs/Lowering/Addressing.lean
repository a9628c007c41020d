import WatchExpr.Proofs.Lowering.Renumbering
import WatchExpr.Proofs.Lowering.Selection
import WatchExpr.Proofs.Tree.Isolation

namespace WatchExpr

namespace TypeTable

variable {t t' u u' : TypeTable} {r v : Lowered} {k k' : TypeKey}

theorem not_isArithmetic_of_isPointer (h : t.isPointer k) : t.isArithmetic k = false := by
  rw [Bool.eq_false_iff]
  intro ha
  obtain ⟨b, hb, -⟩ := basic_of_isArithmetic ha
  rw [isPointer] at h
  obtain hu | hu := unwrap_of_basic hb
  · rw [hu] at h
    cases h
  · rw [hu] at h
    cases h

theorem pointee_of_isPointer (h : t.isPointer k) :
    t.pointee k = t.unwrap (t.direct (t.unwrap k)) := by
  rw [isPointer] at h
  simp only [pointee]
  split
  · rfl
  · rfl
  · rfl
  · rfl
  · rename_i hp hl hr _
    cases hk : (t.unwrap k).kind <;> simp_all [Kind.isPointerLike]

theorem unwrap_pointer (t t' : TypeTable) (k : TypeKey) :
    t'.unwrap (t.pointer k).1 = (t.pointer k).1 := by
  apply unwrapWithin_of_not_transparent
  rw [t.kind_pointer k]
  rfl

/-- An operand that points after it was loaded was a pointer before or an array at an address, and
its elements are the same. -/
theorem element_of_load (hi : t.Interned) (hv : t.load r = (some v, t'))
    (hp : t'.isPointer v.type) :
    t'.direct (t'.unwrap v.type) = t.direct (t.unwrap r.type) ∧
      (r.mode = .address ∧ (t.unwrap r.type).kind = .array ∧ v.node = r.node ∨
        (t.unwrap r.type).kind.isPointerLike ∧ t' = t) := by
  simp only [load] at hv
  split at hv
  · cases hv
    exact ⟨rfl, .inr ⟨hp, rfl⟩⟩
  · rename_i hm
    split at hv
    · rename_i ha
      cases hv
      refine ⟨?_, .inl ⟨hm, ha, rfl⟩⟩
      rw [unwrap_pointer]
      exact ((t.interning_pointer _).interned hi).direct_pointer (t.lookup_pointer _)
    · split at hv
      · cases hv
      · cases hv
        exact ⟨rfl, .inr ⟨hp, rfl⟩⟩
  · split at hv
    · cases hv
    · cases hv
      exact ⟨rfl, .inr ⟨hp, rfl⟩⟩

theorem table_of_load_pointer (hp : t.isPointer r.type) (hv : t.load r = (some v, t')) :
    t' = t := by
  simp only [load] at hv
  split at hv
  · cases hv
    rfl
  · split at hv
    · rename_i ha
      rw [isPointer, ha] at hp
      cases hp
    · split at hv <;> cases hv
      rfl
  · split at hv <;> cases hv
    rfl

/-- In a table that has grown into the other, keys are the same. -/
theorem Alike.eq_of_grows (h : Alike t u u' k k') (hg : u.Grows u') : k' = k := by
  induction h with
  | same => rfl
  | pointer _ hp hp' ih =>
    rw [ih, hg.pointers _ _ hp] at hp'
    exact (Option.some.inj hp').symm
  | array _ hp hp' ih =>
    rw [ih, hg.arrays _ _ hp] at hp'
    exact (Option.some.inj hp').symm

end TypeTable

namespace Lowering

variable {s s' s₁ : State} {x i e p sum : Expr} {span span' : Span} {r v : Lowered}

theorem run_bind {α β : Type} {y : M α} {f : α → M β} {a : α} (h : y.run s = (a, s₁)) :
    (y >>= f).run s = (f a).run s₁ := by
  change (f (y.run s).1).run (y.run s).2 = _
  rw [h]

theorem operand_inv (h : (operand x).run s = (some v, s')) :
    ∃ rx s₁, (lower x).run s = (some rx, s₁) ∧
      (asValue x.start (some rx)).run s₁ = (some v, s') ∧
      s₁.types.load rx = (some v, s'.types) := by
  obtain ⟨o, s₁, hx, hv⟩ := bind_run h
  obtain ⟨rx, rfl, hl⟩ := asValue_run hv
  exact ⟨rx, s₁, hx, hv, hl⟩

theorem follows_operand {t : TypeTable} (he : e.Within t) (w : t.Siblings s.types s'.types) :
    Follows t (operand e) (operand e) s s' := by
  refine (follows_lower he w).bind w fails_none ?_
  intro r r' s₁ s₁' _ _ _ _ w₁ hr
  exact follows_asValue w₁ hr _

inductive PointerSum (s : State) (x i : Expr) : Expr → Prop
  | left {span : Span} {v : Lowered} {s' : State} (hx : (operand x).run s = (some v, s'))
      (hp : s'.types.isPointer v.type) : PointerSum s x i (.binary span .add x i)
  | right {span : Span} {v w : Lowered} {s₁ s₂ : State} (hi : (operand i).run s = (some w, s₁))
      (hx : (operand x).run s₁ = (some v, s₂)) (hp : s₂.types.isPointer v.type) :
      PointerSum s x i (.binary span .add i x)

theorem run_element {start : Nat} {address index : Node} {k : TypeKey}
    (hs : s.types.byteSize k ≠ 0) :
    (element start address index k).run s =
      (some ⟨.sum (scaled index (s.types.byteSize k)) address, k, .address⟩, s) := by
  rw [element, run_get]
  dsimp only
  rw [if_neg hs]
  rfl

theorem run_lowerIndex {start baseStart indexStart : Nat} {rx vx vi : Lowered} {t : TypeTable}
    (ht : s.types.Interned) (hl : s.types.load rx = (some vx, t)) (hp : t.isPointer vx.type)
    (hi : (s.types.scalarGroup vi.type).isInteger)
    (hs : s.types.byteSize (s.types.direct (s.types.unwrap rx.type)) ≠ 0) :
    (lowerIndex start baseStart indexStart rx vi).run s =
      (some ⟨.sum (scaled vi.node (s.types.byteSize (s.types.direct (s.types.unwrap rx.type))))
        vx.node, s.types.direct (s.types.unwrap rx.type), .address⟩, s) := by
  rw [lowerIndex, run_get]
  dsimp only
  rw [if_neg (by rw [hi]; decide)]
  obtain ⟨hm, ha, hn⟩ | ⟨hk, rfl⟩ := (TypeTable.element_of_load ht hl hp).2
  · rw [if_pos ha, if_neg (by rw [hm]; decide), run_element hs, hn]
  · rw [if_neg (by intro ha; rw [ha] at hk; cases hk), if_pos hk]
    have hload : (asValue baseStart (some rx)).run s = (some vx, s) := by rw [run_asValue, hl]
    exact (run_bind hload).trans (run_element hs)

theorem run_index {rx vi : Lowered} {sx si : State} (hx : (lower x).run s = (some rx, sx))
    (hi : (operand i).run sx = (some vi, si)) :
    (lower (.index span x i)).run s =
      (lowerIndex span.start x.start i.start rx vi).run si := by
  obtain ⟨ri, s₁, hri, hvi, -⟩ := operand_inv hi
  exact (run_bind hx).trans ((run_bind hri).trans (run_bind hvi))

/-- The operands of a sum of a pointer and an index, each checked on the way from one table to
another. -/
structure Summands (t u : TypeTable) (x i : Expr) (vx vi : Lowered) : Prop where
  pointer : ∃ a b, t.Interning a.types ∧ (operand x).run a = (some vx, b) ∧ b.types.Interning u
  index : ∃ a b, t.Interning a.types ∧ (operand i).run a = (some vi, b) ∧ b.types.Interning u
  isPointer : u.isPointer vx.type
  isInteger : (u.scalarGroup vi.type).isInteger
  size : u.byteSize (u.pointee vx.type) ≠ 0

/-- Where a sum is accepted, an index is accepted in every table that has grown from the same. -/
theorem Summands.index_run {t u : TypeTable} {vx vi : Lowered} (h : Summands t u x i vx vi)
    (hc : t.Closed) (ht : t.Interned) (hx : x.Within t) (hi : i.Within t)
    (hs : t.Interning s.types) :
    ∃ k s₂, (lower (.index span x i)).run s =
        (some ⟨.sum (scaled vi.node (u.byteSize (u.pointee vx.type))) vx.node, k, .address⟩, s₂) ∧
      s₂.diagnostics = s.diagnostics ∧ s.types.Interning s₂.types ∧
      TypeTable.Alike t u s₂.types (u.direct (u.unwrap vx.type)) k := by
  obtain ⟨⟨a, v, hta, hvx, hv⟩, ⟨a', b', hta', hvi, hb'⟩, hpu, hiu, hsu⟩ := h
  obtain ⟨rx, b, hrx, -, hl⟩ := operand_inv hvx
  obtain ⟨rx', s₁, hrx', hd₁, hab, hss₁, hax⟩ := follows_lower hx ⟨hc, ht, hta, hs⟩ rx b hrx
  have hs₁ := hs.trans hss₁
  obtain ⟨vi', s₂, hvi', hd₂, hab', hs₁₂, hai⟩ := follows_operand hi ⟨hc, ht, hta', hs₁⟩ vi b' hvi
  have hs₂ := hs₁.trans hs₁₂
  have htb := hta.trans hab
  have hbv : b.types.Interning v.types := by
    have hi := b.types.interning_load rx
    rwa [hl] at hi
  obtain ⟨vx', v', hl', hav⟩ :=
    TypeTable.load_alike ⟨hc, ht, htb, hs₂⟩ (hax.mono (.refl _) hs₁₂.grows) hl
  have hs₂v : s₂.types.Interning v' := by
    have hi := s₂.types.interning_load rx'
    rwa [hl'] at hi
  have hu := htb.trans (hbv.trans hv)
  have w : t.Siblings u s₂.types := ⟨hc, ht, hu, hs₂⟩
  have w' : t.Siblings u v' := ⟨hc, ht, hu, hs₂.trans hs₂v⟩
  have hvx := hav.type.mono hv.grows (.refl v')
  have hvi := hai.type.mono hb'.grows (.refl s₂.types)
  have hrx := (hax.mono (hbv.trans hv).grows hs₁₂.grows).type
  have hp' : v'.isPointer vx'.type := by rw [hvx.isPointer w', hpu]
  have hi' : (s₂.types.scalarGroup vi'.type).isInteger := by rw [hvi.scalarGroup w, hiu]
  have helem := (TypeTable.element_of_load w.interned_right hl' hp').1
  have hkey : TypeTable.Alike t u s₂.types (u.direct (u.unwrap vx.type))
      (s₂.types.direct (s₂.types.unwrap rx'.type)) := by
    have hr := (hrx.unwrap w).direct w
    have hd := (hvx.unwrap w').direct w'
    rw [helem] at hd
    rwa [((hr.mono (.refl u) hs₂v.grows).eq_iff w' hd).1 rfl] at hr
  have hsize : s₂.types.byteSize (s₂.types.direct (s₂.types.unwrap rx'.type)) =
      u.byteSize (u.pointee vx.type) := by
    rw [hkey.byteSize w, TypeTable.pointee_of_isPointer hpu, TypeTable.byteSize_unwrapped]
  refine ⟨_, s₂, ?_, hd₂.trans hd₁, hss₁.trans hs₁₂, hkey⟩
  rw [run_index hrx' hvi', run_lowerIndex w.interned_right hl' hp' hi' (by rw [hsize]; exact hsu),
    hsize, hai.node, hav.node]

section
variable {start : Nat} {x y : Lowered}

theorem lowerArithmetic_pointer {op : InfixOp}
    (hp : s.types.isPointer x.type ∨ s.types.isPointer y.type) :
    (lowerArithmetic start op x y).run s ≠ (some r, s') := by
  intro h
  obtain ⟨_, _, hg, hr⟩ := bind_run h
  cases hg
  simp only at hr
  rw [if_pos] at hr
  · exact refuse_run hr
  · obtain hp | hp := hp
    · rw [TypeTable.not_isArithmetic_of_isPointer hp]
      rfl
    · rw [TypeTable.not_isArithmetic_of_isPointer hp, Bool.not_false, Bool.or_true]

theorem lowerBinary_add_run (hp : s.types.isPointer x.type ∨ s.types.isPointer y.type)
    (h : (lowerBinary start .add x y).run s = (some r, s')) :
    s' = s ∧ ∃ p i, (p = x ∧ i = y ∨ p = y ∧ i = x) ∧ s.types.isPointer p.type ∧
      s.types.isPointer i.type = false ∧ (s.types.scalarGroup i.type).isInteger ∧
      s.types.byteSize (s.types.pointee p.type) ≠ 0 ∧
      r = ⟨.sum p.node (scaled i.node (s.types.byteSize (s.types.pointee p.type))), p.type,
        .value⟩ := by
  obtain ⟨_, _, hg, hr⟩ := bind_run h
  cases hg
  cases hx : s.types.isPointer x.type with
  | false =>
    have hy : s.types.isPointer y.type := by
      obtain hp | hp := hp
      · rw [hx] at hp
        cases hp
      · exact hp
    simp only [hx, hy, reduceCtorEq, or_self, InfixOp.isComparison, Bool.false_eq_true, false_and,
      if_false, Bool.not_true, Bool.not_false, and_false, and_self, if_true] at hr
    exact ⟨(lowerPointerOffset_run hr).1, y, x, .inr ⟨rfl, rfl⟩, hy, hx,
      (lowerPointerOffset_run hr).2⟩
  | true =>
    cases hy : s.types.isPointer y.type with
    | false =>
      simp only [hx, hy, reduceCtorEq, or_self, InfixOp.isComparison, Bool.false_eq_true, false_and,
        if_false, Bool.not_false, and_self, if_true] at hr
      exact ⟨(lowerPointerOffset_run hr).1, x, y, .inl ⟨rfl, rfl⟩, hx, hy,
        (lowerPointerOffset_run hr).2⟩
    | true =>
      simp only [hx, hy, reduceCtorEq, or_self, InfixOp.isComparison, Bool.false_eq_true, false_and,
        if_false, Bool.not_true, and_false] at hr
      exact absurd hr (lowerArithmetic_pointer (.inl hx))

end

theorem deref_run (h : (lower (.deref span e)).run s = (some r, s')) :
    ∃ v, (operand e).run s = (some v, s') ∧ s'.types.isPointer v.type ∧
      r = ⟨v.node, s'.types.direct (s'.types.unwrap v.type), .address⟩ := by
  obtain ⟨o, s₁, hx, h₁⟩ := bind_run h
  obtain ⟨v, s₂, hv, h₂⟩ := some_run h₁
  obtain ⟨rfl, hp, rfl⟩ := lowerDeref_run h₂
  exact ⟨v, operand_run hx hv, hp, rfl⟩

theorem operand_of_value {rx : Lowered} (h : (operand e).run s = (some v, s'))
    (hx : (lower e).run s = (some rx, s₁)) (hm : rx.mode = .value) : v = rx ∧ s' = s₁ := by
  rw [operand_run hx (by rw [run_asValue, TypeTable.load, hm])] at h
  cases h
  exact ⟨rfl, rfl⟩

theorem isPointer_operand (hc : s.types.Closed) (ht : s.types.Interned) (hx : x.Within s.types)
    (h : (operand x).run s = (some v, s')) {u : TypeTable} (hu : s'.types.Interning u) :
    u.isPointer v.type = s'.types.isPointer v.type := by
  obtain ⟨v', s'', hv, -, hi, -, ha⟩ := follows_operand hx ⟨hc, ht, .refl, .refl⟩ v s' h
  cases h.symm.trans hv
  exact (ha.type.mono (.refl _) hu.grows).isPointer ⟨hc, ht, hi, hi.trans hu⟩

theorem interning_operand (h : (operand x).run s = (some v, s')) :
    s.types.Interning s'.types := by
  have hi := (interning_lower x s).trans (interning_asValue x.start ((lower x).run s).1 _)
  change s.types.Interning ((operand x).run s).2.types at hi
  rwa [h] at hi

theorem summands_of_deref (hc : s.types.Closed) (ht : s.types.Interned) (hx : x.Within s.types)
    (hsum : PointerSum s x i sum) (h : (lower (.deref span sum)).run s = (some r, s')) :
    ∃ vx vi, Summands s.types s'.types x i vx vi ∧
      r = ⟨.sum vx.node (scaled vi.node (s'.types.byteSize (s'.types.pointee vx.type))),
        s'.types.direct (s'.types.unwrap vx.type), .address⟩ := by
  obtain ⟨v, hv, -, rfl⟩ := deref_run h
  obtain ⟨ro, so, hlower, -, -⟩ := operand_inv hv
  cases hsum with
  | @left _ vx sx hvx hpx =>
    obtain ⟨_, _, vi, si, hvx', hvi, hb⟩ := operands_run hlower
    cases hvx.symm.trans hvx'
    have hi := interning_operand hvi
    rw [← isPointer_operand hc ht hx hvx hi] at hpx
    obtain ⟨rfl, p, j, hpj, hp, hn, hj, hs, rfl⟩ := lowerBinary_add_run (.inl hpx) hb
    obtain ⟨rfl, rfl⟩ := operand_of_value hv hlower rfl
    obtain ⟨rfl, rfl⟩ | ⟨rfl, rfl⟩ := hpj
    · have hi' := interning_operand hvx
      exact ⟨p, j, ⟨⟨s, sx, .refl, hvx, hi⟩, ⟨sx, s', hi', hvi, .refl⟩, hp, hj, hs⟩, rfl⟩
    · rw [hpx] at hn
      cases hn
  | @right _ vx vi si sx hvi hvx hpx =>
    obtain ⟨_, _, _, _, hvi', hvx', hb⟩ := operands_run hlower
    cases hvi.symm.trans hvi'
    cases hvx.symm.trans hvx'
    obtain ⟨rfl, p, j, hpj, hp, hn, hj, hs, rfl⟩ := lowerBinary_add_run (.inr hpx) hb
    obtain ⟨rfl, rfl⟩ := operand_of_value hv hlower rfl
    obtain ⟨rfl, rfl⟩ | ⟨rfl, rfl⟩ := hpj
    · rw [hpx] at hn
      cases hn
    · have hi := interning_operand hvi
      have hi' := interning_operand hvx
      exact ⟨p, j, ⟨⟨si, s', hi, hvx, .refl⟩, ⟨s, si, .refl, hvi, hi'⟩, hp, hj, hs⟩, rfl⟩

theorem index_of_deref (hc : s.types.Closed) (ht : s.types.Interned) (hx : x.Within s.types)
    (hi : i.Within s.types) (hax : x.Atoms (FragmentHas Fragment.Isolated))
    (hai : i.Atoms (FragmentHas Fragment.Isolated)) (hsum : PointerSum s x i sum)
    (h : (lower (.deref span sum)).run s = (some r, s')) (hs₁ : s.types.Interning s₁.types) :
    ∃ r' s₂, (lower (.index span' x i)).run s₁ = (some r', s₂) ∧
      s₂.diagnostics = s₁.diagnostics ∧ r'.mode = .address ∧
      TypeTable.Alike s.types s'.types s₂.types r.type r'.type ∧
      (s'.types.Interning s₁.types → r'.type = r.type) ∧ r.node.SameAddress r'.node := by
  obtain ⟨vx, vi, hparts, rfl⟩ := summands_of_deref hc ht hx hsum h
  obtain ⟨k, s₂, hrun, hd, hs₂, hk⟩ := hparts.index_run hc ht hx hi hs₁
  obtain ⟨_, _, -, hvx, -⟩ := hparts.pointer
  obtain ⟨_, _, -, hvi, -⟩ := hparts.index
  refine ⟨_, s₂, hrun, hd, rfl, hk, fun hs => ?_, ?_⟩
  · exact hk.eq_of_grows (hs.trans hs₂).grows
  · exact Node.sameAddress_sum_comm (built_operand hvx hax) (built_scaled (built_operand hvi hai) _)

section Members
variable {field field' : Field} {start start' baseStart : Nat} {base v : Lowered}

theorem member_of_name {n : Node} {mode : Mode} {record : TypeKey}
    (hf : field'.name = field.name)
    (h : (member start n mode record field).run s = (some r, s')) :
    (member start' n mode record field').run s = (some r, s') := by
  rw [member, run_get] at h ⊢
  simp only [hf] at h ⊢
  split at h
  · exact absurd h refuse_run
  · rename_i hk
    rw [if_neg hk]
    cases hm : (s.types.members record).find? (·.name == field.name) with
    | some m =>
      simp only [hm] at h ⊢
      exact h
    | none =>
      simp only [hm] at h
      exact absurd h refuse_run

theorem run_lowerMember_pointer (hp : s.types.isPointer base.type)
    (hv : (asValue baseStart (some base)).run s = (some v, s')) :
    (lowerMember start baseStart base field).run s =
      (member start v.node .address (s.types.pointee v.type) field).run s' := by
  rw [lowerMember, run_get]
  dsimp only
  rw [if_pos hp]
  exact run_bind hv

theorem run_lowerMember_record (hp : (s.types.unwrap base.type).kind.isRecord)
    (hm : base.mode = .address) :
    (lowerMember start baseStart base field).run s =
      (member start base.node .address (s.types.unwrap base.type) field).run s := by
  have hn : s.types.isPointer base.type = false := by
    rw [TypeTable.isPointer]
    cases hk : (s.types.unwrap base.type).kind with
    | record => rfl
    | _ =>
      rw [hk] at hp
      cases hp
  rw [lowerMember, run_get]
  dsimp only
  rw [if_neg (by rw [hn]; decide), if_neg (by rw [hm]; decide), hm]

end Members

theorem arrow_of_deref {field field' : Field} {dot arrow : Bool} {span'' : Span}
    (hf : field'.name = field.name)
    (h : (lower (.member span (.deref span' p) field dot)).run s = (some r, s'))
    (hp : ∀ rp s₁, (lower p).run s = (some rp, s₁) →
      s₁.types.isPointer rp.type ∧ (s₁.types.pointee rp.type).kind.isRecord) :
    (lower (.member span'' p field' arrow)).run s = (some r, s') := by
  obtain ⟨rd, s₂, hd, hm⟩ := some_run h
  obtain ⟨v, hv, -, rfl⟩ := deref_run hd
  obtain ⟨rp, s₁, hrp, hload, hl⟩ := operand_inv hv
  obtain ⟨hptr, hrec⟩ := hp rp s₁ hrp
  have htype := TypeTable.type_of_load_pointer hptr hl
  have htable := TypeTable.table_of_load_pointer hptr hl
  have hpointee : s₁.types.pointee v.type =
      s₂.types.unwrap (s₂.types.direct (s₂.types.unwrap v.type)) := by
    rw [htype, htable, TypeTable.pointee_of_isPointer hptr]
  rw [← htype, hpointee] at hrec
  rw [run_lowerMember_record hrec rfl, ← hpointee] at hm
  exact (run_bind hrp).trans ((run_lowerMember_pointer hptr hload).trans (member_of_name hf hm))

theorem deref_addressOf (ht : s.types.Interned)
    (h : (lower (.deref span (.addressOf span' e))).run s = (some r, s')) :
    ∃ re s₁, (lower e).run s = (some re, s₁) ∧ re.mode = .address ∧
      r = ⟨re.node, s₁.types.unwrap re.type, .address⟩ := by
  obtain ⟨v, hv, -, rfl⟩ := deref_run h
  obtain ⟨ra, s₂, ha, -, -⟩ := operand_inv hv
  obtain ⟨re, s₁, he, hra⟩ := some_run ha
  obtain ⟨hm, k, hk, rfl⟩ := lowerAddressOf_run hra
  obtain ⟨rfl, rfl⟩ := operand_of_value hv ha rfl
  refine ⟨re, s₁, he, hm, ?_⟩
  have hi₁ : s₁.types.Interned := by
    have hi := interning_lower e s
    rw [he] at hi
    exact hi.interned ht
  have hu := TypeTable.unwrap_pointer s₁.types s'.types (s₁.types.unwrap re.type)
  have hd := ((s₁.types.interning_pointer (s₁.types.unwrap re.type)).interned hi₁).direct_pointer
    (s₁.types.lookup_pointer (s₁.types.unwrap re.type))
  rw [hk] at hu hd
  rw [hu, hd]

/-- Three pairs of forms for one address. An index is accepted in every table that has grown from
the one in which the sum was accepted, with the same type; in a table that has seen the sum also
with the same key. The operands of a sum and of an index run in different orders, so their fragments
must not look at the slots below. -/
theorem addressing_forms_agree (s : State) :
    (∀ (x i sum : Expr) (span span' : Span) (r : Lowered) (s' s₁ : State),
      s.types.Closed → s.types.Interned → x.Within s.types → i.Within s.types →
      x.Atoms (FragmentHas Fragment.Isolated) → i.Atoms (FragmentHas Fragment.Isolated) →
      PointerSum s x i sum → (lower (.deref span sum)).run s = (some r, s') →
      s.types.Interning s₁.types →
      ∃ r' s₂, (lower (.index span' x i)).run s₁ = (some r', s₂) ∧
        s₂.diagnostics = s₁.diagnostics ∧ r'.mode = .address ∧
        TypeTable.Alike s.types s'.types s₂.types r.type r'.type ∧
        (s'.types.Interning s₁.types → r'.type = r.type) ∧ r.node.SameAddress r'.node) ∧
    (∀ (p : Expr) (field field' : Field) (dot arrow : Bool) (span span' span'' : Span) (r : Lowered)
      (s' : State), field'.name = field.name →
      (lower (.member span (.deref span' p) field dot)).run s = (some r, s') →
      (∀ rp s₁, (lower p).run s = (some rp, s₁) →
        s₁.types.isPointer rp.type ∧ (s₁.types.pointee rp.type).kind.isRecord) →
      (lower (.member span'' p field' arrow)).run s = (some r, s')) ∧
    ∀ (e : Expr) (span span' : Span) (r : Lowered) (s' : State), s.types.Interned →
      (lower (.deref span (.addressOf span' e))).run s = (some r, s') →
      ∃ re s₁, (lower e).run s = (some re, s₁) ∧ re.mode = .address ∧
        r = ⟨re.node, s₁.types.unwrap re.type, .address⟩ :=
  ⟨fun _ _ _ _ _ _ _ _ hc ht hx hi hax hai hsum h hs₁ =>
      index_of_deref hc ht hx hi hax hai hsum h hs₁,
    fun _ _ _ _ _ _ _ _ _ _ hf h hp => arrow_of_deref hf h hp,
    fun _ _ _ _ _ ht h => deref_addressOf ht h⟩

def recordTable : TypeTable :=
  let (record, t) := (TypeTable.empty 8).add
    { kind := .record .struct, name := "S", size := 8, members := [⟨"m", .basic .s32, 4⟩] }
  (t.array record 4).2

theorem closed_recordTable : recordTable.Closed where
  entries := by decide
  names := by decide
  pointers := by decide
  arrays := by decide

theorem interned_recordTable : recordTable.Interned where
  pointer := by rintro _ _ ⟨⟩
  array := by
    intro k p n h
    obtain ⟨hkn, rfl⟩ | h := TypeTable.lookup_cons_cases h
    · cases hkn
      exact ⟨_, rfl, rfl, rfl, rfl⟩
    · cases h

def recordsLeaf : Expr :=
  .leaf ⟨2, 3⟩ "a" (Instruction.encode ⟨.base .image, 16⟩) ⟨.array, 2⟩ .address

def oneLeaf : Expr := .int ⟨6, 7⟩ 1 false

def recordsSum : Expr := .binary ⟨2, 7⟩ .add recordsLeaf oneLeaf

def recordsSumNode : Node :=
  .sum (.splice (Instruction.encode ⟨.base .image, 16⟩)) (scaled (.const 1 true) 8)

/-- The table once the array was read as a pointer. -/
def recordTable' : TypeTable := (recordTable.pointer ⟨.record .struct, 1⟩).2

/-- The second record of the array, its member, and the array itself. -/
theorem records_forms_agree :
    recordTable.Closed ∧ recordTable.Interned ∧
      (∃ r s, (lower (.index ⟨0, 4⟩ recordsLeaf oneLeaf)).run { types := recordTable } =
          (some r, s) ∧ r.type = ⟨.record .struct, 1⟩ ∧ recordsSumNode.SameAddress r.node) ∧
      (lower (.member ⟨0, 8⟩ recordsSum ⟨⟨7, 8⟩, "m"⟩ true)).run { types := recordTable } =
        (some ⟨.sum recordsSumNode (.unsigned 4), .basic .s32, .address⟩,
          { types := recordTable' }) ∧
      ∃ r s, (lower recordsLeaf).run { types := recordTable } = (some r, s) ∧
        s.types.unwrap r.type = ⟨.array, 2⟩ := by
  have hbase := (Fragment.harmless_base .image 16).isolated
  have hsum : (lower recordsSum).run { types := recordTable } =
      (some ⟨recordsSumNode, ⟨.pointer, 3⟩, .value⟩, { types := recordTable' }) := by
    with_unfolding_all rfl
  have hoperand : (operand recordsLeaf).run { types := recordTable } =
      (some ⟨.splice (Instruction.encode ⟨.base .image, 16⟩), ⟨.pointer, 3⟩, .value⟩,
        { types := recordTable' }) := by
    with_unfolding_all rfl
  have hderef : (lower (.deref ⟨0, 8⟩ recordsSum)).run { types := recordTable } =
      (some ⟨recordsSumNode, ⟨.record .struct, 1⟩, .address⟩, { types := recordTable' }) := by
    with_unfolding_all rfl
  have hmember : (lower (.member ⟨0, 12⟩ (.deref ⟨1, 9⟩ recordsSum) ⟨⟨11, 12⟩, "m"⟩ false)).run
      { types := recordTable } =
        (some ⟨.sum recordsSumNode (.unsigned 4), .basic .s32, .address⟩,
          { types := recordTable' }) := by
    with_unfolding_all rfl
  have haddress : (lower (.deref ⟨0, 3⟩ (.addressOf ⟨1, 3⟩ recordsLeaf))).run
      { types := recordTable } =
        (some ⟨.splice (Instruction.encode ⟨.base .image, 16⟩), ⟨.array, 2⟩, .address⟩,
          { types := (recordTable.pointer ⟨.array, 2⟩).2 }) := by
    with_unfolding_all rfl
  obtain ⟨hindex, harrow, hback⟩ := addressing_forms_agree { types := recordTable }
  refine ⟨closed_recordTable, interned_recordTable, ?_, ?_, ?_⟩
  · have hx : recordTable.Has ⟨.array, 2⟩ := by decide
    obtain ⟨r, s, hr, -, -, hk, -, hsame⟩ := hindex recordsLeaf oneLeaf recordsSum _ _ _ _ _
      closed_recordTable interned_recordTable hx trivial hbase trivial
      (.left hoperand (by decide)) hderef .refl
    exact ⟨r, s, hr, (hk.eq_of_kind nofun nofun).1, hsame⟩
  · refine harrow recordsSum ⟨⟨11, 12⟩, "m"⟩ ⟨⟨7, 8⟩, "m"⟩ false true ⟨0, 12⟩ ⟨1, 9⟩ ⟨0, 8⟩ _ _ rfl
      hmember ?_
    intro rp s₁ hp
    cases hsum.symm.trans hp
    exact ⟨by decide, by decide⟩
  · obtain ⟨r, s, hr, -, hback⟩ := hback recordsLeaf _ _ _ _ interned_recordTable haddress
    exact ⟨r, s, hr, congrArg Lowered.type hback.symm⟩

end Lowering

/-- A local pointer to bytes whose value is computed by some code. -/
def pointerContext (code : List UInt8) : Context where
  types := ((TypeTable.empty 8).pointer (.basic .s8)).2
  resolver := some
    { localSymbol? name :=
        if name = ("p" : Text) then
          some { name, type := ⟨.pointer, 1⟩, location := .valueCode, code }
        else none
      globalSymbol? _ := none
      threadLocal? _ := none
      procedure? _ := none
      procedureName := [] }
  arch := .x64

/-- A global array of bytes, next to a register whose type is an alias that is not there. -/
def aliasContext : Context where
  types := ((TypeTable.empty 8).array (.basic .s8) 4).2
  resolver := some
    { localSymbol? name :=
        if name = ("d" : Text) then
          some { name, type := ⟨.typedef, 2⟩, location := .register, register := 1 }
        else none
      globalSymbol? name :=
        if name = ("a" : Text) then some { name, type := ⟨.array, 1⟩, offset := 16 } else none
      threadLocal? _ := none
      procedure? _ := none
      procedureName := [] }
  arch := .x64

/-- The pointer to bytes was completed as if it were a forward declaration. -/
def redirectedTable : TypeTable :=
  { ((TypeTable.empty 8).pointer (.basic .s8)).2 with
    entries := #[{ kind := .pointer, direct := .basic .s32 }] }

def redirectedContext : Context where
  types := redirectedTable
  resolver := some
    { localSymbol? _ := none
      globalSymbol? name :=
        if name = ("z" : Text) then some { name, type := .basic .s8, offset := 16 } else none
      threadLocal? _ := none
      procedure? _ := none
      procedureName := [] }
  arch := .x64

/-- A fragment that repeats the slot below it, and fails where there is none. -/
theorem Fragment.selfContained_pick : SelfContained (Instruction.encode ⟨.pick, 0⟩) := by
  intro m stack reads _
  obtain hd | hd := drive_instruction m (i := ⟨.pick, 0⟩) rfl stack (Nat.zero_le _) nofun reads
  · exact .inl ⟨_, _, trivial, hd⟩
  · cases stack with
    | nil =>
      refine .inl ⟨.badOp, reads, trivial, fun rest => ?_⟩
      rw [hd]
      rfl
    | cons v stack =>
      refine .inr ⟨v, reads, fun rest => ?_⟩
      rw [hd]
      rfl

/-- None of the conditions can be done without. A fragment that stops the machine, and one that
looks at the slots below, give one form an address and let the other fail; an alias that is not
there becomes one where an array is read as a pointer; and a pointer that was completed leads
elsewhere. -/
theorem addressing_forms_differ :
    ((compile (pointerContext [11, 0, 16, 0]) "*(p + 1)").1.code =
        some [11, 0, 16, 0, 10, 1, 37, 8, 18, 1] ∧
      (compile (pointerContext [11, 0, 16, 0]) "p[1]").1.code =
        some [10, 1, 37, 8, 11, 0, 16, 0, 18, 1] ∧
      (Machine.execute ⟨none, .x64, 8⟩ [11, 0, 16, 0, 10, 1, 37, 8, 18, 1]).result = .ok 0x1000 ∧
      (Machine.execute ⟨none, .x64, 8⟩ [10, 1, 37, 8, 11, 0, 16, 0, 18, 1]).result =
        .error .malformedBytecode) ∧
    (Fragment.SelfContained [39, 0] ∧
      (compile (pointerContext [39, 0]) "*(p + 1)").1.code = some [39, 0, 10, 1, 37, 8, 18, 1] ∧
      (compile (pointerContext [39, 0]) "p[1]").1.code = some [10, 1, 37, 8, 39, 0, 18, 1] ∧
      (Machine.execute ⟨none, .x64, 8⟩ [39, 0, 10, 1, 37, 8, 18, 1]).result = .error .badOp ∧
      (Machine.execute ⟨none, .x64, 8⟩ [10, 1, 37, 8, 39, 0, 18, 1]).result = .ok 2) ∧
    ((compile aliasContext "*(a + d)").1.code =
        some [8, 16, 0, 0, 0, 5, 1, 8, 0, 0, 18, 1] ∧
      (compile aliasContext "a[d]").1.code = none) ∧
    ((TypeTable.empty 8).pointer (.basic .s8)).2.complete ⟨.incomplete .struct, 1⟩ (.basic .s32) =
        .ok redirectedTable ∧
      (compile redirectedContext "z").1.type = .basic .s8 ∧
      (compile redirectedContext "*&z").1.type = .basic .s32 := by
  refine ⟨⟨?_, ?_, ?_, ?_⟩, ⟨Fragment.selfContained_pick, ?_, ?_, ?_, ?_⟩, ⟨?_, ?_⟩, ?_, ?_, ?_⟩
  · decide +kernel
  · decide +kernel
  · decide +kernel
  · decide +kernel
  · decide +kernel
  · decide +kernel
  · decide +kernel
  · decide +kernel
  · decide +kernel
  · decide +kernel
  · rfl
  · decide +kernel
  · decide +kernel

end WatchExpr
