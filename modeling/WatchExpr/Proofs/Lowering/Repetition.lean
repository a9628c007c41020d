import WatchExpr.Lowering.Compile
import WatchExpr.Proofs.Expression.Erasure
import WatchExpr.Proofs.Lowering.Rules
import WatchExpr.Proofs.Types.Growth

namespace WatchExpr

/-- The types that a written type names are in the table. -/
def TypeExpr.Within (t : TypeTable) : TypeExpr → Prop
  | named _ _ k => t.Has k
  | pointer _ elem => elem.Within t
  | array _ elem _ => elem.Within t

def Expr.Within (t : TypeTable) : Expr → Prop
  | missing => True
  | int .. => True
  | float .. => True
  | leaf _ _ _ k _ => t.Has k
  | .type k => k.Within t
  | unary _ _ x => x.Within t
  | binary _ _ x y => x.Within t ∧ y.Within t
  | ternary _ c yes no => c.Within t ∧ yes.Within t ∧ no.Within t
  | cast _ k x => k.Within t ∧ x.Within t
  | sizeof _ x => x.Within t
  | member _ x _ _ => x.Within t
  | index _ x i => x.Within t ∧ i.Within t
  | addressOf _ x => x.Within t
  | deref _ x => x.Within t

theorem TypeExpr.Within.grows {t t' : TypeTable} {e : TypeExpr} (h : e.Within t) (hg : t.Grows t') :
    e.Within t' := by
  induction e with
  | named span name k => exact TypeTable.Has.grows h hg
  | pointer span elem ih => exact ih h
  | array span elem count ih => exact ih h

theorem Expr.Within.grows {t t' : TypeTable} {e : Expr} (h : e.Within t) (hg : t.Grows t') :
    e.Within t' := by
  induction e with
  | missing => trivial
  | int => trivial
  | float => trivial
  | leaf => exact TypeTable.Has.grows h hg
  | type k => exact TypeExpr.Within.grows h hg
  | unary _ _ x ih => exact ih h
  | binary _ _ x y ihx ihy => exact ⟨ihx h.1, ihy h.2⟩
  | ternary _ c yes no ihc ihyes ihno => exact ⟨ihc h.1, ihyes h.2.1, ihno h.2.2⟩
  | cast _ k x ih => exact ⟨h.1.grows hg, ih h.2⟩
  | sizeof _ x ih => exact ih h
  | member _ x _ _ ih => exact ih h
  | index _ x i ihx ihi => exact ⟨ihx h.1, ihi h.2⟩
  | addressOf _ x ih => exact ih h
  | deref _ x ih => exact ih h

theorem Expr.type_or_not (x : Expr) : (∃ t, x = .type t) ∨ ∀ t, x ≠ .type t := by
  cases x with
  | type t => exact .inl ⟨t, rfl⟩
  | _ => exact .inr nofun

namespace TypeTable

variable {t t' : TypeTable}

theorem grows_key (t : TypeTable) (e : TypeExpr) : t.Grows (e.key t).2 := by
  induction e with
  | named span name k => exact Grows.refl t
  | pointer span elem ih =>
    simp only [TypeExpr.key]
    split
    · exact ih
    · exact ih.trans (grows_pointer _ _)
  | array span elem count ih =>
    simp only [TypeExpr.key]
    split
    · exact ih
    · exact ih.trans (grows_array _ _ _)

theorem Closed.key (h : t.Closed) {e : TypeExpr} (he : e.Within t) :
    (e.key t).2.Closed ∧ (e.key t).2.Has (e.key t).1 := by
  induction e with
  | named span name k => exact ⟨h, he⟩
  | pointer span elem ih =>
    simp only [TypeExpr.key]
    split
    · exact ⟨(ih he).1, Nat.zero_le _⟩
    · exact (ih he).1.pointer (ih he).2
  | array span elem count ih =>
    simp only [TypeExpr.key]
    split
    · exact ⟨(ih he).1, Nat.zero_le _⟩
    · exact (ih he).1.array (ih he).2 count

theorem key_erase (t : TypeTable) (e : TypeExpr) : e.erase.key t = e.key t := by
  induction e with
  | named span name k => rfl
  | pointer span elem ih => simp only [TypeExpr.erase, TypeExpr.key, ih]
  | array span elem count ih => simp only [TypeExpr.erase, TypeExpr.key, ih]

/-- A written type has the same key later, and nothing is added then. -/
theorem key_again {e : TypeExpr} (h : (e.key t).2.Recalls t') : e.key t' = ((e.key t).1, t') := by
  induction e with
  | named span name k => rfl
  | pointer span elem ih =>
    simp only [TypeExpr.key] at h ⊢
    split at h
    · rename_i hz
      simp only [ih h, hz, if_true]
    · rename_i hz
      simp only [ih ((grows_pointer _ _).recalls.trans h), hz, pointer_again h]
      rfl
  | array span elem count ih =>
    simp only [TypeExpr.key] at h ⊢
    split at h
    · rename_i hz
      simp only [ih h, hz, if_true]
    · rename_i hz
      simp only [ih ((grows_array _ _ _).recalls.trans h), hz, array_again h]
      rfl

theorem grows_load (t : TypeTable) (r : Lowered) : t.Grows (t.load r).2 := by
  simp only [load]
  split
  · exact Grows.refl t
  · split
    · exact grows_pointer t _
    · split <;> exact Grows.refl t
  · split <;> exact Grows.refl t

theorem grows_of_load {r v : Lowered} (h : t.load r = (some v, t')) : t.Grows t' := by
  have hg := t.grows_load r
  rw [h] at hg
  exact hg

theorem grows_of_key {e : TypeExpr} {k : TypeKey} (h : e.key t = (k, t')) : t.Grows t' := by
  have hg := t.grows_key e
  rw [h] at hg
  exact hg

variable {r v : Lowered}

theorem Closed.load (h : t.Closed) (hr : t.Has r.type) (hv : t.load r = (some v, t')) :
    t'.Closed ∧ t'.Has v.type := by
  simp only [TypeTable.load] at hv
  split at hv
  · cases hv
    exact ⟨h, hr⟩
  · split at hv
    · cases hv
      exact h.pointer (h.has_direct _)
    · split at hv
      · cases hv
      · cases hv
        exact ⟨h, hr⟩
  · split at hv
    · cases hv
    · cases hv
      exact ⟨h, hr⟩

theorem Closed.load_closed (h : t.Closed) (r : Lowered) : (t.load r).2.Closed := by
  simp only [TypeTable.load]
  split
  · exact h
  · split
    · exact (h.pointer (h.has_direct _)).1
    · split <;> exact h
  · split <;> exact h

/-- A value is loaded in the same way later, and nothing is added then. -/
theorem load_again {t₂ : TypeTable} {o : Option Lowered} (h : t.Closed) (hr : t.Has r.type)
    (hv : t.load r = (o, t')) (hg : t'.Grows t₂) : t₂.load r = (o, t₂) := by
  have hg' : t.Grows t₂ := by
    have := grows_load t r
    rw [hv] at this
    exact this.trans hg
  have hu := h.has_unwrap hr
  simp only [TypeTable.load, hg'.unwrap h hr, hg'.byteSize h hu, hg'.unwrapEnum h hu,
    hg'.direct hu, hg'.truncateTo h _ hu] at hv ⊢
  split at hv
  · cases hv
    rfl
  · split at hv
    · rename_i ha
      cases hv
      simp only [ha, if_true, pointer_again hg.recalls]
    · rename_i ha
      split at hv
      · rename_i hs
        cases hv
        simp only [ha, hs, if_true, if_false]
      · rename_i hs
        cases hv
        simp only [ha, hs, if_false]
  · split at hv
    · rename_i hs
      cases hv
      simp only [hs, if_true]
    · rename_i hs
      cases hv
      simp only [hs, if_false]

theorem type_of_load_pointer (hp : t.isPointer r.type) (hv : t.load r = (some v, t')) :
    v.type = r.type := by
  simp only [TypeTable.load] at hv
  split at hv
  · cases hv
    rfl
  · split at hv
    · rename_i ha
      rw [isPointer, ha] at hp
      cases hp
    · split at hv
      · cases hv
      · cases hv
        rfl
  · split at hv
    · cases hv
    · cases hv
      rfl

end TypeTable

namespace Lowering

theorem Lowers.grows {t t' : TypeTable} {e : Expr} {r : Lowered} (h : Lowers t e r t') :
    t.Grows t' := by
  induction h with
  | int => exact .refl _
  | float => exact .refl _
  | leaf => exact .refl _
  | unary _ hvx _ ih => exact ih.trans (TypeTable.grows_of_load hvx)
  | binary _ hvx _ hvy _ ihx ihy =>
    have hx := ihx.trans (TypeTable.grows_of_load hvx)
    exact (hx.trans ihy).trans (TypeTable.grows_of_load hvy)
  | ternary _ hvc _ hvy _ hvn _ ihc ihyes ihno =>
    have hc := ihc.trans (TypeTable.grows_of_load hvc)
    have hyes := (hc.trans ihyes).trans (TypeTable.grows_of_load hvy)
    exact (hyes.trans ihno).trans (TypeTable.grows_of_load hvn)
  | cast hk _ _ hvx _ _ ih =>
    exact ((TypeTable.grows_of_key hk).trans ih).trans (TypeTable.grows_of_load hvx)
  | sizeofType hk => exact TypeTable.grows_of_key hk
  | sizeof _ _ ih => exact ih
  | deref _ hvx _ ih => exact ih.trans (TypeTable.grows_of_load hvx)
  | @addressOf t t₁ t₂ _ _ rx _ _ _ hp ih =>
    have hg := t₁.grows_pointer (t₁.unwrap rx.type)
    rw [hp] at hg
    exact ih.trans hg
  | indexArray _ _ hvi _ _ _ ihx ihi =>
    exact (ihx.trans ihi).trans (TypeTable.grows_of_load hvi)
  | indexPointer _ _ hvi _ _ hvx ihx ihi =>
    have hi := (ihx.trans ihi).trans (TypeTable.grows_of_load hvi)
    exact hi.trans (TypeTable.grows_of_load hvx)
  | arrow _ _ hvx _ ih => exact ih.trans (TypeTable.grows_of_load hvx)
  | member _ _ _ ih => exact ih

/-- A run keeps the table closed. Where it gives a tree, the type of the tree is in the table, and
later the other computation gives the same tree and changes nothing. -/
structure Again (x y : M (Option Lowered)) (s : State) : Prop where
  grows : s.types.Grows (x.run s).2.types
  closed : (x.run s).2.types.Closed
  has : ∀ r, (x.run s).1 = some r → (x.run s).2.types.Has r.type
  again : ∀ r, (x.run s).1 = some r → ∀ s₂ : State, (x.run s).2.types.Grows s₂.types →
    y.run s₂ = (some r, s₂)

/-- A run keeps the table closed and gives no tree. -/
structure Stops (x : M (Option Lowered)) (s : State) : Prop where
  none : (x.run s).1 = none
  grows : s.types.Grows (x.run s).2.types
  closed : (x.run s).2.types.Closed

variable {s : State}

theorem stops_none (hc : s.types.Closed) : Stops (pure none) s := ⟨rfl, .refl _, hc⟩

theorem Stops.again {x y : M (Option Lowered)} (h : Stops x s) : Again x y s where
  grows := h.grows
  closed := h.closed
  has r hr := by
    rw [h.none] at hr
    cases hr
  again r hr := by
    rw [h.none] at hr
    cases hr

theorem again_refuse {offset : Nat} {c : Complaint} {y : M (Option Lowered)}
    (hc : s.types.Closed) : Again (refuse offset c) y s :=
  Stops.again ⟨rfl, .refl _, hc⟩

theorem again_some {r : Lowered} (hc : s.types.Closed) (hr : s.types.Has r.type) :
    Again (pure (some r)) (pure (some r)) s where
  grows := .refl _
  closed := hc
  has r' h := by
    cases h
    exact hr
  again r' h s₂ _ := by
    cases h
    rfl

/-- What depends on the table is compared on the table of the first run and a later one. -/
theorem again_get {f g : State → M (Option Lowered)}
    (h : ∀ s₂ : State, s.types.Grows s₂.types → Again (f s) (g s₂) s) :
    Again (get >>= f) (get >>= g) s where
  grows := (h s (.refl _)).grows
  closed := (h s (.refl _)).closed
  has := (h s (.refl _)).has
  again r hr s₂ h₂ := (h s₂ ((h s (.refl _)).grows.trans h₂)).again r hr s₂ h₂

section Bind
variable {x y : M (Option Lowered)} {f g : Option Lowered → M (Option Lowered)}

theorem Again.bind (hx : Again x y s)
    (hnone : ∀ s', s.types.Grows s'.types → s'.types.Closed → Stops (f none) s')
    (hsome : ∀ r s', x.run s = (some r, s') → s.types.Grows s'.types → s'.types.Closed →
      s'.types.Has r.type → Again (f (some r)) (g (some r)) s') :
    Again (x >>= f) (y >>= g) s := by
  obtain ⟨hg, hc, hh, ha⟩ := hx
  obtain ⟨⟨o, s₁⟩, hr⟩ : ∃ out, x.run s = out := ⟨_, rfl⟩
  have hrun : (x >>= f).run s = (f o).run s₁ := by
    change (f (x.run s).1).run (x.run s).2 = _
    rw [hr]
  rw [hr] at hg hc hh ha
  cases o with
  | none =>
    have hs := hnone s₁ hg hc
    exact Stops.again ⟨by rw [hrun, hs.none], by rw [hrun]; exact hg.trans hs.grows,
      by rw [hrun]; exact hs.closed⟩
  | some a =>
    have hf := hsome a s₁ hr hg hc (hh a rfl)
    refine ⟨?_, ?_, ?_, ?_⟩
    all_goals rw [hrun]
    · exact hg.trans hf.grows
    · exact hf.closed
    · exact hf.has
    · intro r hr s₂ h₂
      change (g (y.run s₂).1).run (y.run s₂).2 = _
      rw [ha a rfl s₂ (hf.grows.trans h₂)]
      exact hf.again r hr s₂ h₂

theorem Stops.bind (hx : Again x y s)
    (hf : ∀ o s', s.types.Grows s'.types → s'.types.Closed → Stops (f o) s') :
    Stops (x >>= f) s := by
  have hs := hf (x.run s).1 (x.run s).2 hx.grows hx.closed
  exact ⟨hs.none, hx.grows.trans hs.grows, hs.closed⟩

theorem run_get {β : Type} (f : State → M β) : (get >>= f).run s = (f s).run s := rfl

theorem run_asValue (r : Lowered) (s : State) (offset : Nat) :
    (asValue offset (some r)).run s =
      match s.types.load r with
      | (some v, types) => (some v, { s with types })
      | (none, _) => (none, { s with
          diagnostics := s.diagnostics ++ [⟨offset, .cannotRead (s.types.describe r.type)⟩] }) := by
  rw [asValue, run_get]
  obtain ⟨_ | v, types⟩ := s.types.load r
  · rfl
  · rfl

theorem again_asValue {r : Lowered} (hc : s.types.Closed) (hr : s.types.Has r.type)
    (offset offset' : Nat) :
    Again (asValue offset (some r)) (asValue offset' (some r)) s := by
  have hg := TypeTable.grows_load s.types r
  obtain ⟨⟨o, t⟩, hl⟩ : ∃ out, s.types.load r = out := ⟨_, rfl⟩
  cases o with
  | none =>
    refine Stops.again ?_
    constructor <;> rw [run_asValue, hl]
    · exact .refl _
    · exact hc
  | some v =>
    rw [hl] at hg
    obtain ⟨hc', hv⟩ := hc.load hr hl
    constructor <;> rw [run_asValue, hl]
    · exact hg
    · exact hc'
    · intro v' h
      cases h
      exact hv
    · intro v' h s₂ h₂
      cases h
      rw [run_asValue, TypeTable.load_again hc hr hl h₂]

theorem Again.asValue (hx : Again x y s) (offset offset' : Nat) :
    Again (x >>= Lowering.asValue offset) (y >>= Lowering.asValue offset') s :=
  hx.bind (fun _ _ hc => stops_none hc) fun _ _ _ _ hc hr => again_asValue hc hr _ _

theorem Again.value {offset offset' : Nat} (hx : Again x y s)
    (hnone : ∀ s', s.types.Grows s'.types → s'.types.Closed → Stops (f none) s')
    (hsome : ∀ r s', s.types.Grows s'.types → s'.types.Closed → s'.types.Has r.type →
      Again (f (some r)) (g (some r)) s') :
    Again (x >>= fun r => Lowering.asValue offset r >>= f)
      (y >>= fun r => Lowering.asValue offset' r >>= g) s := by
  rw [← bind_assoc, ← bind_assoc]
  exact (hx.asValue offset offset').bind hnone fun r s' _ => hsome r s'

theorem Stops.value {offset : Nat} (hx : Again x y s)
    (hf : ∀ o s', s.types.Grows s'.types → s'.types.Closed → Stops (f o) s') :
    Stops (x >>= fun r => Lowering.asValue offset r >>= f) s := by
  rw [← bind_assoc]
  exact .bind (hx.asValue offset offset) hf

end Bind

section
variable {x y : Lowered} (hc : s.types.Closed) (hx : s.types.Has x.type) (start start' : Nat)
include hc hx

theorem again_lowerUnary (op : PrefixOp) :
    Again (lowerUnary start op x) (lowerUnary start' op x) s := by
  apply again_get
  intro s₂ hg
  have hp := (hc.has_unwrapEnum hx).promote
  simp only [hg.isPointer hc hx, hg.isArithmetic hc hx, hg.unwrapEnum hc hx,
    hg.converted hc hx hp, hg.truncateTo hc _ hp]
  split
  · exact again_some hc TypeTable.has_basic
  · split
    · exact again_refuse hc
    · split
      · exact again_refuse hc
      · split
        · exact again_some hc TypeTable.has_basic
        · exact again_some hc hp

theorem again_lowerCast {k : TypeKey} (hk : s.types.Has k) :
    Again (lowerCast start k x) (lowerCast start' k x) s := by
  apply again_get
  intro s₂ hg
  simp only [hg.isPointerFloatCast hc hx hk, hg.convert hc hx hk]
  split
  · exact again_refuse hc
  · split
    · exact again_some hc hk
    · exact again_refuse hc

theorem again_lowerDeref : Again (lowerDeref start x) (lowerDeref start' x) s := by
  apply again_get
  intro s₂ hg
  have hd := hc.has_direct (s.types.unwrap x.type)
  simp only [hg.isPointer hc hx, hg.unwrap hc hx, hg.direct (hc.has_unwrap hx), hg.unwrap hc hd,
    hg.byteSize hc hd]
  split
  · exact again_refuse hc
  · split
    · exact again_refuse hc
    · split
      · exact again_refuse hc
      · exact again_some hc hd

theorem again_lowerAddressOf : Again (lowerAddressOf start x) (lowerAddressOf start' x) s := by
  have hrun (s : State) (start : Nat) : (lowerAddressOf start x).run s =
      if x.mode ≠ .address then (refuse start .noAddress).run s
      else (some ⟨x.node, (s.types.pointer (s.types.unwrap x.type)).1, .value⟩,
        { s with types := (s.types.pointer (s.types.unwrap x.type)).2 }) := by
    change StateT.run (if x.mode ≠ .address then refuse start .noAddress else do
      set { s with types := (s.types.pointer (s.types.unwrap x.type)).2 }
      return value x.node (s.types.pointer (s.types.unwrap x.type)).1) s = _
    split <;> rfl
  by_cases hm : x.mode ≠ .address
  · refine Stops.again ?_
    constructor <;> rw [hrun, if_pos hm]
    · rfl
    · exact .refl _
    · exact hc
  · have hu := hc.has_unwrap hx
    have hg := TypeTable.grows_pointer s.types (s.types.unwrap x.type)
    constructor <;> rw [hrun, if_neg hm]
    · exact hg
    · exact (hc.pointer hu).1
    · intro r h
      cases h
      exact (hc.pointer hu).2
    · intro r h s₂ h₂
      cases h
      rw [hrun, if_neg hm, (hg.trans h₂).unwrap hc hx, TypeTable.pointer_again h₂.recalls]

theorem again_lowerPointerOffset (op : BinaryOp) (hy : s.types.Has y.type) :
    Again (lowerPointerOffset start op x y) (lowerPointerOffset start' op x y) s := by
  apply again_get
  intro s₂ hg
  simp only [hg.pointee hc hx, hg.byteSize hc (hc.has_pointee _), hg.scalarGroup hc hy]
  split
  · exact again_refuse hc
  · split
    · exact again_refuse hc
    · exact again_some hc hx

theorem again_lowerPointerDifference (hy : s.types.Has y.type) :
    Again (lowerPointerDifference start x y) (lowerPointerDifference start' x y) s := by
  apply again_get
  intro s₂ hg
  simp only [hg.pointee hc hx, hg.pointee hc hy, hg.byteSize hc (hc.has_pointee _)]
  split
  · exact again_refuse hc
  · split
    · exact again_refuse hc
    · exact again_some hc TypeTable.has_basic

theorem again_lowerPointerCompare (op : InfixOp) (hy : s.types.Has y.type) :
    Again (lowerPointerCompare start op x y) (lowerPointerCompare start' op x y) s := by
  apply again_get
  intro s₂ hg
  simp only [hg.isPointer hc hx, hg.isPointer hc hy, hg.scalarGroup hc hx, hg.scalarGroup hc hy,
    hg.pointee hc hx, hg.pointee hc hy, hg.sameType hc (hc.has_pointee _) (hc.has_pointee _)]
  split
  · exact again_refuse hc
  · split
    · exact again_refuse hc
    · exact again_some hc TypeTable.has_basic

theorem again_lowerLogical (op : InfixOp) (hy : s.types.Has y.type) :
    Again (lowerLogical start op x y) (lowerLogical start' op x y) s := by
  apply again_get
  intro s₂ hg
  simp only [hg.scalarGroup hc hx, hg.scalarGroup hc hy]
  split
  · exact again_refuse hc
  · split <;> exact again_some hc TypeTable.has_basic

theorem again_lowerArithmetic (op : InfixOp) (hy : s.types.Has y.type) :
    Again (lowerArithmetic start op x y) (lowerArithmetic start' op x y) s := by
  apply again_get
  intro s₂ hg
  have hcommon : s.types.Has (operandType s.types op x y) := by
    rw [operandType]
    split
    · exact (hc.has_unwrapEnum hx).promote
    · exact hc.has_coerce hx hy
  rw [operandType] at hcommon
  simp only [hg.isArithmetic hc hx, hg.isArithmetic hc hy, hg.unwrapEnum hc hx,
    hg.coerce hc hx hy, hg.scalarGroup hc hy, hg.converted hc hx hcommon,
    hg.converted hc hy hcommon, hg.truncateTo hc _ hcommon]
  generalize (if op.isShift then (s.types.unwrapEnum x.type).promote
    else s.types.coerce x.type y.type) = common at hcommon
  split
  · exact again_refuse hc
  · split
    · exact again_refuse hc
    · split
      · exact again_refuse hc
      · split
        · exact again_some hc TypeTable.has_basic
        · split <;> exact again_some hc hcommon

theorem again_lowerBinary (op : InfixOp) (hy : s.types.Has y.type) :
    Again (lowerBinary start op x y) (lowerBinary start' op x y) s := by
  apply again_get
  intro s₂ hg
  simp only [hg.isPointer hc hx, hg.isPointer hc hy]
  split
  · exact again_lowerLogical hc hx _ _ op hy
  split
  · exact again_lowerPointerCompare hc hx _ _ op hy
  split
  · exact again_lowerPointerOffset hc hx _ _ _ hy
  split
  · exact again_lowerPointerOffset hc hy _ _ _ hx
  split
  · exact again_lowerPointerOffset hc hx _ _ _ hy
  split
  · exact again_lowerPointerDifference hc hx _ _ hy
  · exact again_lowerArithmetic hc hx _ _ op hy

theorem again_lowerTernary {z : Lowered} (conditionStart conditionStart' : Nat)
    (hy : s.types.Has y.type) (hz : s.types.Has z.type) :
    Again (lowerTernary start conditionStart x y z) (lowerTernary start' conditionStart' x y z)
      s := by
  apply again_get
  intro s₂ hg
  have hcommon := hc.has_coerce hy hz
  simp only [hg.scalarGroup hc hx, hg.isArithmetic hc hy, hg.isArithmetic hc hz, hg.isPointer hc hy,
    hg.sameType hc hy hz, hg.coerce hc hy hz, hg.converted hc hy hcommon,
    hg.converted hc hz hcommon]
  split
  · exact again_refuse hc
  · split
    · exact again_some hc hcommon
    · split
      · exact again_some hc hy
      · exact again_refuse hc

end

section
variable (hc : s.types.Closed) (start start' : Nat)
include hc

theorem again_lowerLeaf (name : Text) (code : List UInt8) {type : TypeKey} (mode : Mode)
    (hk : s.types.Has type) :
    Again (lowerLeaf start name code type mode) (lowerLeaf start' name code type mode) s := by
  rw [lowerLeaf, lowerLeaf]
  split
  · exact again_refuse hc
  · split
    · exact again_some hc hk
    · exact again_refuse hc

theorem again_lowerSize {k : TypeKey} (hk : s.types.Has k) :
    Again (lowerSize start k) (lowerSize start' k) s := by
  rw [lowerSize, lowerSize]
  split
  · exact again_refuse hc
  · apply again_get
    intro s₂ hg
    simp only [hg.byteSize hc hk]
    exact again_some hc TypeTable.has_basic

theorem again_element (address index : Node) {elem : TypeKey} (he : s.types.Has elem) :
    Again (element start address index elem) (element start' address index elem) s := by
  apply again_get
  intro s₂ hg
  simp only [hg.byteSize hc he]
  split
  · exact again_refuse hc
  · exact again_some hc he

theorem again_member (base : Node) (mode : Mode) {record : TypeKey} {field field' : Field}
    (hr : s.types.Has record) (hf : field'.name = field.name) :
    Again (member start base mode record field) (member start' base mode record field') s := by
  apply again_get
  intro s₂ hg
  simp only [hg.members hr, hf]
  split
  · exact again_refuse hc
  · split
    · rename_i m hm
      exact again_some hc (hc.has_member (List.mem_of_find?_eq_some hm))
    · exact again_refuse hc

theorem again_lowerIndex {base index : Lowered} (hb : s.types.Has base.type)
    (hi : s.types.Has index.type) (baseStart baseStart' indexStart indexStart' : Nat) :
    Again (lowerIndex start baseStart indexStart base index)
      (lowerIndex start' baseStart' indexStart' base index) s := by
  apply again_get
  intro s₂ hg
  have hd := hc.has_direct (s.types.unwrap base.type)
  simp only [hg.scalarGroup hc hi, hg.unwrap hc hb, hg.direct (hc.has_unwrap hb)]
  split
  · exact again_refuse hc
  split
  · split
    · exact again_refuse hc
    · exact again_element hc _ _ _ _ hd
  split
  · exact (again_asValue hc hb _ _).bind (fun _ _ hc => stops_none hc) fun p s' _ hg' hc' _ =>
      again_element hc' _ _ _ _ (hd.grows hg')
  · exact again_refuse hc

theorem again_lowerMember {base : Lowered} {field field' : Field} (hb : s.types.Has base.type)
    (hf : field'.name = field.name) (baseStart baseStart' : Nat) :
    Again (lowerMember start baseStart base field) (lowerMember start' baseStart' base field')
      s := by
  apply again_get
  intro s₂ hg
  simp only [hg.isPointer hc hb, hg.unwrap hc hb]
  split
  · rename_i hp
    refine (again_asValue hc hb _ _).bind (fun _ _ hc => stops_none hc) fun p s' hrun hg' hc' _ => ?_
    obtain ⟨rx, hrx, hl⟩ := asValue_run hrun
    cases hrx
    simp only [TypeTable.type_of_load_pointer hp hl, hg.pointee hc hb]
    exact again_member hc' _ _ _ _ ((hc.has_pointee _).grows hg') hf
  · split
    · exact again_refuse hc
    · exact again_member hc _ _ _ _ (hc.has_unwrap hb) hf

theorem again_typeKey {e e' : TypeExpr} (he : e'.erase = e.erase) (hw : e.Within s.types)
    {f g : TypeKey → M (Option Lowered)}
    (hf : ∀ k s', s.types.Grows s'.types → s'.types.Closed → s'.types.Has k → Again (f k) (g k) s') :
    Again (typeKey e >>= f) (typeKey e' >>= g) s := by
  obtain ⟨hc', hk⟩ := hc.key hw
  have hg := TypeTable.grows_key s.types e
  obtain ⟨hg', hc', hh, ha⟩ := hf (e.key s.types).1 { s with types := (e.key s.types).2 } hg hc' hk
  refine ⟨hg.trans hg', hc', hh, fun r hr s₂ h₂ => ?_⟩
  change (g (e'.key s₂.types).1).run { s₂ with types := (e'.key s₂.types).2 } = _
  rw [← TypeTable.key_erase, he, TypeTable.key_erase, TypeTable.key_again (hg'.trans h₂).recalls]
  exact ha r hr s₂ h₂

end

theorem lower_sizeof {span : Span} {x : Expr} (hx : ∀ t, x ≠ .type t) :
    lower (.sizeof span x) = (do
      match ← lower x with
      | none => return none
      | some r => lowerSize span.start r.type) := by
  cases x with
  | type t => exact absurd rfl (hx t)
  | _ => rfl

/-- A tree that was accepted is accepted again later, wherever it stands in a text. -/
theorem again_lower {e e' : Expr} (he : e'.erase = e.erase) (hc : s.types.Closed)
    (hw : e.Within s.types) : Again (lower e) (lower e') s := by
  induction e generalizing e' s with
  | missing => exact (stops_none hc).again
  | int span v isChar =>
    cases e' <;> simp only [Expr.erase, reduceCtorEq, Expr.int.injEq] at he
    obtain ⟨-, rfl, rfl⟩ := he
    refine again_some hc ?_
    rw [lowerInt]
    split
    · exact TypeTable.has_basic
    · split
      · exact TypeTable.has_basic
      · split <;> exact TypeTable.has_basic
  | float span bits isSingle =>
    cases e' <;> simp only [Expr.erase, reduceCtorEq, Expr.float.injEq] at he
    obtain ⟨-, rfl, rfl⟩ := he
    refine again_some hc ?_
    rw [lowerFloat]
    split <;> exact TypeTable.has_basic
  | leaf span name code type mode =>
    cases e' <;> simp only [Expr.erase, reduceCtorEq, Expr.leaf.injEq] at he
    obtain ⟨-, rfl, rfl, rfl, rfl⟩ := he
    exact again_lowerLeaf hc _ _ _ _ _ hw
  | type t => exact again_refuse hc
  | unary span op x ih =>
    cases e' <;> simp only [Expr.erase, reduceCtorEq, Expr.unary.injEq] at he
    obtain ⟨-, rfl, hx⟩ := he
    exact (ih hx hc hw).value (fun _ _ hc => stops_none hc) fun v s' _ hc hv =>
      again_lowerUnary hc hv _ _ _
  | binary span op x y ihx ihy =>
    cases e' <;> simp only [Expr.erase, reduceCtorEq, Expr.binary.injEq] at he
    obtain ⟨-, rfl, hx, hy⟩ := he
    have hright (s₁ : State) (hg₁ : s.types.Grows s₁.types) (hc₁ : s₁.types.Closed) :=
      ihy hy hc₁ (hw.2.grows hg₁)
    refine (ihx hx hc hw.1).value (fun s₁ hg₁ hc₁ => ?_) fun a s₁ hg₁ hc₁ ha => ?_
    · exact .value (hright s₁ hg₁ hc₁) fun _ _ _ hc => stops_none hc
    refine (hright s₁ hg₁ hc₁).value (fun _ _ hc => stops_none hc) fun b s₂ hg₂ hc₂ hb => ?_
    exact again_lowerBinary hc₂ (ha.grows hg₂) _ _ _ hb
  | ternary span c yes no ihc ihyes ihno =>
    cases e' <;> simp only [Expr.erase, reduceCtorEq, Expr.ternary.injEq] at he
    obtain ⟨-, hcond, hyes, hno⟩ := he
    have hfirst (s₁ : State) (hg₁ : s.types.Grows s₁.types) (hc₁ : s₁.types.Closed) :=
      ihyes hyes hc₁ (hw.2.1.grows hg₁)
    have hsecond (s₁ : State) (hg₁ : s.types.Grows s₁.types) (hc₁ : s₁.types.Closed) :=
      ihno hno hc₁ (hw.2.2.grows hg₁)
    refine (ihc hcond hc hw.1).value (fun s₁ hg₁ hc₁ => ?_) fun a s₁ hg₁ hc₁ ha => ?_
    · refine .value (hfirst s₁ hg₁ hc₁) fun _ s₂ hg₂ hc₂ => ?_
      exact .value (hsecond s₂ (hg₁.trans hg₂) hc₂) fun _ _ _ hc => stops_none hc
    refine (hfirst s₁ hg₁ hc₁).value (fun s₂ hg₂ hc₂ => ?_) fun b s₂ hg₂ hc₂ hb => ?_
    · exact .value (hsecond s₂ (hg₁.trans hg₂) hc₂) fun _ _ _ hc => stops_none hc
    refine (hsecond s₂ (hg₁.trans hg₂) hc₂).value (fun _ _ hc => stops_none hc)
      fun d s₃ hg₃ hc₃ hd => ?_
    exact again_lowerTernary hc₃ ((ha.grows hg₂).grows hg₃) _ _ _ _ (hb.grows hg₃) hd
  | cast span type x ih =>
    cases e' <;> simp only [Expr.erase, reduceCtorEq, Expr.cast.injEq] at he
    obtain ⟨-, ht, hx⟩ := he
    refine again_typeKey hc ht hw.1 fun k s₁ hg₁ hc₁ hk => ?_
    split
    · exact again_refuse hc₁
    · exact (ih hx hc₁ (hw.2.grows hg₁)).value (fun _ _ hc => stops_none hc) fun v s₂ hg₂ hc₂ hv =>
        again_lowerCast hc₂ hv _ _ (hk.grows hg₂)
  | sizeof span x ih =>
    cases e' <;> simp only [Expr.erase, reduceCtorEq, Expr.sizeof.injEq] at he
    rename_i span' x'
    obtain ⟨t, rfl⟩ | hx := Expr.type_or_not x
    · obtain ⟨t', rfl, ht⟩ : ∃ t', x' = .type t' ∧ t'.erase = t.erase := by
        cases x' <;> simp only [Expr.erase, reduceCtorEq, and_false, Expr.type.injEq] at he
        exact ⟨_, rfl, he.2⟩
      exact again_typeKey hc ht hw fun k s₁ _ hc₁ hk => again_lowerSize hc₁ _ _ hk
    · have hx' (t : TypeExpr) : x' ≠ .type t := by
        rintro rfl
        cases x <;> simp_all [Expr.erase]
      rw [lower_sizeof hx, lower_sizeof hx']
      exact (ih he.2 hc hw).bind (fun _ _ hc => stops_none hc) fun r s' _ _ hc hr =>
        again_lowerSize hc _ _ hr
  | deref span x ih =>
    cases e' <;> simp only [Expr.erase, reduceCtorEq, Expr.deref.injEq] at he
    exact (ih he.2 hc hw).value (fun _ _ hc => stops_none hc) fun v s' _ hc hv =>
      again_lowerDeref hc hv _ _
  | addressOf span x ih =>
    cases e' <;> simp only [Expr.erase, reduceCtorEq, Expr.addressOf.injEq] at he
    exact (ih he.2 hc hw).bind (fun _ _ hc => stops_none hc) fun v s' _ _ hc hv =>
      again_lowerAddressOf hc hv _ _
  | index span x i ihx ihi =>
    cases e' <;> simp only [Expr.erase, reduceCtorEq, Expr.index.injEq] at he
    obtain ⟨-, hx, hi⟩ := he
    have hindex (s₁ : State) (hg₁ : s.types.Grows s₁.types) (hc₁ : s₁.types.Closed) :=
      ihi hi hc₁ (hw.2.grows hg₁)
    refine (ihx hx hc hw.1).bind (fun s₁ hg₁ hc₁ => ?_) fun b s₁ _ hg₁ hc₁ hb => ?_
    · exact .value (hindex s₁ hg₁ hc₁) fun _ _ _ hc => stops_none hc
    refine (hindex s₁ hg₁ hc₁).value (fun _ _ hc => stops_none hc) fun v s₂ hg₂ hc₂ hv => ?_
    exact again_lowerIndex hc₂ _ _ (hb.grows hg₂) hv _ _ _ _
  | member span x field arrow ih =>
    cases e' <;> simp only [Expr.erase, reduceCtorEq, Expr.member.injEq, Field.mk.injEq] at he
    obtain ⟨-, hx, ⟨-, hf⟩, rfl⟩ := he
    exact (ih hx hc hw).bind (fun _ _ hc => stops_none hc) fun b s' _ _ hc hb =>
      again_lowerMember hc _ _ hb hf _ _

end Lowering

end WatchExpr
