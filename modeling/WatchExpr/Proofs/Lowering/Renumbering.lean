import WatchExpr.Proofs.Lowering.Interning

namespace WatchExpr

variable {t u u' v v' : TypeTable} {r r' a : Lowered}

/-- The same tree in two tables that have grown from one. -/
structure Lowered.Alike (t u u' : TypeTable) (r r' : Lowered) : Prop where
  node : r'.node = r.node
  mode : r'.mode = r.mode
  type : TypeTable.Alike t u u' r.type r'.type

theorem Lowered.Alike.mono (h : r.Alike t u u' r') (hv : u.Grows v) (hv' : u'.Grows v') :
    r.Alike t v v' r' :=
  ⟨h.node, h.mode, h.type.mono hv hv'⟩

theorem TypeTable.key_alike {e : TypeExpr} (h : e.Within t) :
    Alike t (e.key u).2 (e.key u').2 (e.key u).1 (e.key u').1 := by
  induction e with
  | named span name k => exact .same h
  | pointer span elem ih =>
    have hk := ih h
    simp only [TypeExpr.key, hk.isZero_eq]
    split
    · exact .zero
    · exact hk.pointer_asked
  | array span elem count ih =>
    have hk := ih h
    simp only [TypeExpr.key, hk.isZero_eq]
    split
    · exact .zero
    · exact hk.array_asked count

theorem TypeTable.load_alike (w : t.Siblings u u') (h : r.Alike t u u' r')
    (ha : u.load r = (some a, v)) :
    ∃ a' v', u'.load r' = (some a', v') ∧ a.Alike t v v' a' := by
  have hk := h.type.unwrap w
  simp only [load, h.mode, h.node, hk.kind_eq, hk.byteSize w, (hk.unwrapEnum w).kind_eq,
    hk.truncateTo w] at ha ⊢
  split at ha
  · cases ha
    exact ⟨_, _, rfl, h⟩
  · split at ha
    · rename_i harray
      cases ha
      simp only [harray, if_true]
      exact ⟨_, _, rfl, rfl, rfl, (hk.direct w).pointer_asked⟩
    · rename_i harray
      split at ha
      · cases ha
      · rename_i hsize
        cases ha
        simp only [harray, hsize, if_false]
        exact ⟨_, _, rfl, rfl, rfl, h.type⟩
  · split at ha
    · cases ha
    · rename_i hsize
      cases ha
      simp only [hsize, if_false]
      exact ⟨_, _, rfl, rfl, rfl, h.type⟩

namespace Lowering

variable {s s' : State}

/-- What one computation gives in one table, another gives in the other table. -/
def Follows (t : TypeTable) (x y : M (Option Lowered)) (s s' : State) : Prop :=
  ∀ r s₁, x.run s = (some r, s₁) → ∃ r' s₁', y.run s' = (some r', s₁') ∧
    s₁'.diagnostics = s'.diagnostics ∧ s.types.Interning s₁.types ∧
    s'.types.Interning s₁'.types ∧ r.Alike t s₁.types s₁'.types r'

def Fails (x : M (Option Lowered)) : Prop := ∀ s, (x.run s).1 = none

theorem fails_none : Fails (pure none) := fun _ => rfl

theorem fails_refuse (offset : Nat) (c : Complaint) : Fails (refuse offset c) := fun _ => rfl

theorem Fails.bind {α : Type} {x : M α} {f : α → M (Option Lowered)} (h : ∀ a, Fails (f a)) :
    Fails (x >>= f) :=
  fun s => h (x.run s).1 (x.run s).2

theorem Fails.follows {x y : M (Option Lowered)} (h : Fails x) : Follows t x y s s' := by
  intro r s₁ hr
  have hn := h s
  rw [hr] at hn
  cases hn

theorem follows_some (h : r.Alike t s.types s'.types r') :
    Follows t (pure (some r)) (pure (some r')) s s' := by
  intro a s₁ ha
  cases ha
  exact ⟨r', s', rfl, rfl, .refl, .refl, h⟩

theorem follows_value {n : Node} {k k' : TypeKey} (h : TypeTable.Alike t s.types s'.types k k') :
    Follows t (pure (value n k)) (pure (value n k')) s s' :=
  follows_some ⟨rfl, rfl, h⟩

theorem follows_truth (n : Node) : Follows t (pure (truth n)) (pure (truth n)) s s' :=
  follows_value .basic

theorem follows_get {f g : State → M (Option Lowered)} (h : Follows t (f s) (g s') s s') :
    Follows t (get >>= f) (get >>= g) s s' :=
  h

section Bind
variable {x y : M (Option Lowered)} {f g : Option Lowered → M (Option Lowered)}

theorem Follows.bind (hx : Follows t x y s s') (w : t.Siblings s.types s'.types)
    (hnone : Fails (f none))
    (hsome : ∀ r r' s₁ s₁', x.run s = (some r, s₁) → y.run s' = (some r', s₁') →
      s.types.Interning s₁.types → s'.types.Interning s₁'.types →
      t.Siblings s₁.types s₁'.types → r.Alike t s₁.types s₁'.types r' →
      Follows t (f (some r)) (g (some r')) s₁ s₁') :
    Follows t (x >>= f) (y >>= g) s s' := by
  intro r s₂ hr
  obtain ⟨o, s₁, h₁, h₂⟩ := bind_run hr
  cases o with
  | none =>
    have hn := hnone s₁
    rw [h₂] at hn
    cases hn
  | some a =>
    obtain ⟨a', s₁', ha', hd', hi, hi', ha⟩ := hx a s₁ h₁
    obtain ⟨r', s₂', hr', hd₂, hi₂, hi₂', hr⟩ :=
      hsome a a' s₁ s₁' h₁ ha' hi hi' (w.interning hi hi') ha r s₂ h₂
    refine ⟨r', s₂', ?_, hd₂.trans hd', hi.trans hi₂, hi'.trans hi₂', hr⟩
    change (g (y.run s').1).run (y.run s').2 = _
    rw [ha']
    exact hr'

theorem follows_asValue (w : t.Siblings s.types s'.types) (h : r.Alike t s.types s'.types r')
    (offset : Nat) : Follows t (asValue offset (some r)) (asValue offset (some r')) s s' := by
  intro a s₁ ha
  have hi := interning_asValue offset (some r) s
  have hi' := interning_asValue offset (some r') s'
  obtain ⟨rx, hrx, hl⟩ := asValue_run ha
  cases hrx
  obtain ⟨a', v', hl', ha'⟩ := TypeTable.load_alike w h hl
  rw [run_asValue, hl'] at hi'
  rw [ha] at hi
  refine ⟨a', { s' with types := v' }, ?_, rfl, hi, hi', ha'⟩
  rw [run_asValue, hl']

theorem Follows.value (hx : Follows t x y s s') (w : t.Siblings s.types s'.types) {offset : Nat}
    (hnone : Fails (f none))
    (hsome : ∀ r r' s₁ s₁', s.types.Interning s₁.types → s'.types.Interning s₁'.types →
      t.Siblings s₁.types s₁'.types → r.Alike t s₁.types s₁'.types r' →
      Follows t (f (some r)) (g (some r')) s₁ s₁') :
    Follows t (x >>= fun r => asValue offset r >>= f) (y >>= fun r => asValue offset r >>= g)
      s s' := by
  rw [← bind_assoc, ← bind_assoc]
  refine Follows.bind (hx.bind w fails_none ?_) w hnone ?_
  · intro r r' s₁ s₁' _ _ _ _ w₁ hr
    exact follows_asValue w₁ hr offset
  · intro r r' s₁ s₁' _ _
    exact hsome r r' s₁ s₁'

end Bind

theorem follows_lowerLeaf (start : Nat) (name : Text) (code : List UInt8) (mode : Mode)
    {k : TypeKey} (hk : t.Has k) :
    Follows t (lowerLeaf start name code k mode) (lowerLeaf start name code k mode) s s' := by
  rw [lowerLeaf]
  split
  · exact (fails_refuse _ _).follows
  split
  · exact follows_some ⟨rfl, rfl, .same hk⟩
  · exact (fails_refuse _ _).follows

section Parts
variable (w : t.Siblings s.types s'.types) (start : Nat) {address address' index index' : Node}
  {k k' : TypeKey}
include w

theorem follows_lowerSize (h : TypeTable.Alike t s.types s'.types k k') :
    Follows t (lowerSize start k) (lowerSize start k') s s' := by
  rw [lowerSize, lowerSize, h.isZero_eq]
  split
  · exact (fails_refuse _ _).follows
  · apply follows_get
    rw [h.byteSize w]
    exact follows_value .basic

theorem follows_element (ha : address' = address) (hi : index' = index)
    (h : TypeTable.Alike t s.types s'.types k k') :
    Follows t (element start address index k) (element start address' index' k') s s' := by
  apply follows_get
  simp only [h.byteSize w, ha, hi]
  split
  · exact (fails_refuse _ _).follows
  · exact follows_some ⟨rfl, rfl, h⟩

theorem follows_member (ha : address' = address) {mode : Mode} {field : Field}
    (h : TypeTable.Alike t s.types s'.types k k') :
    Follows t (member start address mode k field) (member start address' mode k' field) s s' := by
  apply follows_get
  simp only [h.kind_eq, ha]
  split
  · exact (fails_refuse _ _).follows
  rename_i hk
  rw [Bool.not_eq_true, Bool.not_eq_false'] at hk
  obtain ⟨hm, hhas⟩ := h.members w hk
  rw [hm]
  split
  · rename_i m hfound
    exact follows_some ⟨rfl, rfl, .same (hhas m (List.mem_of_find?_eq_some hfound))⟩
  · exact (fails_refuse _ _).follows

theorem follows_typeKey {e : TypeExpr} (he : e.Within t) {f g : TypeKey → M (Option Lowered)}
    (hf : ∀ k k' s₁ s₁', t.Siblings s₁.types s₁'.types →
      TypeTable.Alike t s₁.types s₁'.types k k' → Follows t (f k) (g k') s₁ s₁') :
    Follows t (typeKey e >>= f) (typeKey e >>= g) s s' := by
  intro r s₂ hr
  obtain ⟨k, s₁, hk, h₁⟩ := bind_run hr
  cases hk
  have hi := s.types.interning_key e
  have hi' := s'.types.interning_key e
  obtain ⟨r', s₂', hr', hd, hi₂, hi₂', ha⟩ :=
    hf _ _ { s with types := (e.key s.types).2 } { s' with types := (e.key s'.types).2 }
      (w.interning hi hi') (TypeTable.key_alike he) r s₂ h₁
  exact ⟨r', s₂', hr', hd, hi.trans hi₂, hi'.trans hi₂', ha⟩

end Parts

section Rules
variable {x x' y y' : Lowered} (w : t.Siblings s.types s'.types)
  (hx : x.Alike t s.types s'.types x') (start : Nat)
include w hx

theorem follows_lowerUnary (op : PrefixOp) :
    Follows t (lowerUnary start op x) (lowerUnary start op x') s s' := by
  apply follows_get
  have hp := (hx.type.unwrapEnum w).promote
  simp only [hx.type.isPointer w, hx.type.isArithmetic w, hx.node, hp.group_eq,
    hx.type.converted w hx.node hp, hp.truncateTo w]
  split
  · exact follows_truth _
  split
  · exact (fails_refuse _ _).follows
  split
  · exact (fails_refuse _ _).follows
  split
  · exact follows_truth _
  · exact follows_value hp

theorem follows_lowerCast {k k' : TypeKey} (hk : TypeTable.Alike t s.types s'.types k k') :
    Follows t (lowerCast start k x) (lowerCast start k' x') s s' := by
  apply follows_get
  simp only [hx.type.isPointerFloatCast w hk, hx.type.convert w hx.node hk]
  split
  · exact (fails_refuse _ _).follows
  split
  · exact follows_value hk
  · exact (fails_refuse _ _).follows

theorem follows_lowerDeref : Follows t (lowerDeref start x) (lowerDeref start x') s s' := by
  apply follows_get
  have hd := (hx.type.unwrap w).direct w
  simp only [hx.type.isPointer w, (hd.unwrap w).kind_eq, hd.byteSize w]
  split
  · exact (fails_refuse _ _).follows
  split
  · exact (fails_refuse _ _).follows
  split
  · exact (fails_refuse _ _).follows
  · exact follows_some ⟨hx.node, rfl, hd⟩

theorem follows_lowerAddressOf :
    Follows t (lowerAddressOf start x) (lowerAddressOf start x') s s' := by
  intro r s₁ hr
  obtain ⟨hm, p, hp, rfl⟩ := lowerAddressOf_run hr
  have hk := (hx.type.unwrap w).pointer_asked
  have hi := s.types.interning_pointer (s.types.unwrap x.type)
  have hi' := s'.types.interning_pointer (s'.types.unwrap x'.type)
  rw [hp] at hk hi
  refine ⟨⟨x'.node, (s'.types.pointer (s'.types.unwrap x'.type)).1, .value⟩,
    { s' with types := (s'.types.pointer (s'.types.unwrap x'.type)).2 }, ?_, rfl, hi, hi',
    hx.node, rfl, hk⟩
  change StateT.run (if x'.mode ≠ .address then refuse start .noAddress else do
      set { s' with types := (s'.types.pointer (s'.types.unwrap x'.type)).2 }
      return Lowering.value x'.node (s'.types.pointer (s'.types.unwrap x'.type)).1) s' = _
  rw [if_neg (by rw [hx.mode, hm]; decide)]
  rfl

theorem follows_lowerPointerOffset (op : BinaryOp) (hy : y.Alike t s.types s'.types y') :
    Follows t (lowerPointerOffset start op x y) (lowerPointerOffset start op x' y') s s' := by
  apply follows_get
  simp only [(hx.type.pointee w).byteSize w, hy.type.scalarGroup w, hx.node, hy.node]
  split
  · exact (fails_refuse _ _).follows
  split
  · exact (fails_refuse _ _).follows
  · exact follows_value hx.type

theorem follows_lowerPointerDifference (hy : y.Alike t s.types s'.types y') :
    Follows t (lowerPointerDifference start x y) (lowerPointerDifference start x' y') s s' := by
  apply follows_get
  simp only [(hx.type.pointee w).byteSize w, (hy.type.pointee w).byteSize w, hx.node, hy.node]
  split
  · exact (fails_refuse _ _).follows
  split
  · exact (fails_refuse _ _).follows
  · exact follows_value .basic

theorem follows_lowerPointerCompare (op : InfixOp) (hy : y.Alike t s.types s'.types y') :
    Follows t (lowerPointerCompare start op x y) (lowerPointerCompare start op x' y') s s' := by
  apply follows_get
  have hpx := hx.type.pointee w
  have hpy := hy.type.pointee w
  simp only [hx.type.isPointer w, hy.type.isPointer w, hx.type.scalarGroup w,
    hy.type.scalarGroup w, hpx.sameType w hpy, hpx.kind_eq, hpy.kind_eq, hx.node, hy.node]
  split
  · exact (fails_refuse _ _).follows
  split
  · exact (fails_refuse _ _).follows
  · exact follows_truth _

theorem follows_lowerLogical (op : InfixOp) (hy : y.Alike t s.types s'.types y') :
    Follows t (lowerLogical start op x y) (lowerLogical start op x' y') s s' := by
  apply follows_get
  simp only [hx.type.scalarGroup w, hy.type.scalarGroup w, hx.node, hy.node]
  split
  · exact (fails_refuse _ _).follows
  split
  · exact follows_truth _
  · exact follows_truth _

theorem follows_lowerArithmetic (op : InfixOp) (hy : y.Alike t s.types s'.types y') :
    Follows t (lowerArithmetic start op x y) (lowerArithmetic start op x' y') s s' := by
  apply follows_get
  have hcommon : TypeTable.Alike t s.types s'.types
      (if op.isShift then (s.types.unwrapEnum x.type).promote
        else s.types.coerce x.type y.type)
      (if op.isShift then (s'.types.unwrapEnum x'.type).promote
        else s'.types.coerce x'.type y'.type) := by
    split
    · exact (hx.type.unwrapEnum w).promote
    · exact hx.type.coerce w hy.type
  simp only [hx.type.isArithmetic w, hy.type.isArithmetic w, hy.type.scalarGroup w,
    hcommon.group_eq, hx.type.converted w hx.node hcommon, hy.type.converted w hy.node hcommon,
    hcommon.truncateTo w, hy.node]
  generalize (if op.isShift then (s.types.unwrapEnum x.type).promote
    else s.types.coerce x.type y.type) = common at hcommon
  generalize (if op.isShift then (s'.types.unwrapEnum x'.type).promote
    else s'.types.coerce x'.type y'.type) = common' at hcommon
  split
  · exact (fails_refuse _ _).follows
  split
  · exact (fails_refuse _ _).follows
  split
  · exact (fails_refuse _ _).follows
  split
  · exact follows_truth _
  split
  · exact follows_value hcommon
  · exact follows_value hcommon

theorem follows_lowerBinary (op : InfixOp) (hy : y.Alike t s.types s'.types y') :
    Follows t (lowerBinary start op x y) (lowerBinary start op x' y') s s' := by
  apply follows_get
  simp only [hx.type.isPointer w, hy.type.isPointer w]
  split
  · exact follows_lowerLogical w hx _ op hy
  split
  · exact follows_lowerPointerCompare w hx _ op hy
  split
  · exact follows_lowerPointerOffset w hx _ _ hy
  split
  · exact follows_lowerPointerOffset w hy _ _ hx
  split
  · exact follows_lowerPointerOffset w hx _ _ hy
  split
  · exact follows_lowerPointerDifference w hx _ hy
  · exact follows_lowerArithmetic w hx _ op hy

theorem follows_lowerTernary {z z' : Lowered} (conditionStart : Nat)
    (hy : y.Alike t s.types s'.types y') (hz : z.Alike t s.types s'.types z') :
    Follows t (lowerTernary start conditionStart x y z) (lowerTernary start conditionStart x' y' z')
      s s' := by
  apply follows_get
  have hcommon := hy.type.coerce w hz.type
  simp only [hx.type.scalarGroup w, hy.type.isArithmetic w, hz.type.isArithmetic w,
    hy.type.isPointer w, hy.type.sameType w hz.type, hy.type.converted w hy.node hcommon,
    hz.type.converted w hz.node hcommon, hx.node, hy.node, hz.node]
  split
  · exact (fails_refuse _ _).follows
  split
  · exact follows_value hcommon
  split
  · exact follows_value hy.type
  · exact (fails_refuse _ _).follows

theorem follows_lowerIndex (baseStart indexStart : Nat) (hy : y.Alike t s.types s'.types y') :
    Follows t (lowerIndex start baseStart indexStart x y)
      (lowerIndex start baseStart indexStart x' y') s s' := by
  apply follows_get
  have hk := hx.type.unwrap w
  simp only [hy.type.scalarGroup w, hk.kind_eq, hx.mode]
  split
  · exact (fails_refuse _ _).follows
  split
  · split
    · exact (fails_refuse _ _).follows
    · exact follows_element w _ hx.node hy.node (hk.direct w)
  split
  · refine (follows_asValue w hx baseStart).bind w fails_none ?_
    intro p p' s₁ s₁' _ _ hi hi' w₁ hp
    exact follows_element w₁ _ hp.node hy.node ((hk.direct w).mono hi.grows hi'.grows)
  · exact (fails_refuse _ _).follows

theorem follows_lowerMember (baseStart : Nat) (field : Field) :
    Follows t (lowerMember start baseStart x field) (lowerMember start baseStart x' field)
      s s' := by
  apply follows_get
  simp only [hx.type.isPointer w, hx.mode]
  split
  · rename_i hp
    have hp' : s'.types.isPointer x'.type := by rw [hx.type.isPointer w, hp]
    refine (follows_asValue w hx baseStart).bind w fails_none ?_
    intro v v' s₁ s₁' hv hv' hi hi' w₁ ha
    obtain ⟨_, hrx, hl⟩ := asValue_run hv
    cases hrx
    obtain ⟨_, hrx, hl'⟩ := asValue_run hv'
    cases hrx
    simp only [TypeTable.type_of_load_pointer hp hl, TypeTable.type_of_load_pointer hp' hl']
    exact follows_member w₁ _ ha.node ((hx.type.pointee w).mono hi.grows hi'.grows)
  split
  · exact (fails_refuse _ _).follows
  · exact follows_member w _ hx.node (hx.type.unwrap w)

end Rules

/-- Main statement: what an expression becomes in one table it becomes in the other. -/
theorem follows_lower {e : Expr} (he : e.Within t) (w : t.Siblings s.types s'.types) :
    Follows t (lower e) (lower e) s s' := by
  induction e generalizing s s' with
  | missing => exact fails_none.follows
  | int span v isChar =>
    refine follows_some ⟨rfl, rfl, .same ?_⟩
    rw [lowerInt]
    split
    · exact TypeTable.has_basic
    split
    · exact TypeTable.has_basic
    split
    · exact TypeTable.has_basic
    · exact TypeTable.has_basic
  | float span bits isSingle =>
    refine follows_some ⟨rfl, rfl, .same ?_⟩
    rw [lowerFloat]
    split
    · exact TypeTable.has_basic
    · exact TypeTable.has_basic
  | leaf span name code type mode => exact follows_lowerLeaf _ _ _ _ he
  | type t => exact (fails_refuse _ _).follows
  | unary span op x ih =>
    refine (ih he w).value w fails_none ?_
    intro v v' s₁ s₁' _ _ w₁ hv
    exact follows_lowerUnary w₁ hv _ op
  | binary span op x y ihx ihy =>
    refine (ihx he.1 w).value w (.bind fun _ => .bind fun _ => fails_none) ?_
    intro a a' s₁ s₁' _ _ w₁ ha
    refine (ihy he.2 w₁).value w₁ fails_none ?_
    intro b b' s₂ s₂' hi hi' w₂ hb
    exact follows_lowerBinary w₂ (ha.mono hi.grows hi'.grows) _ op hb
  | ternary span c yes no ihc ihyes ihno =>
    refine (ihc he.1 w).value w
      (.bind fun _ => .bind fun _ => .bind fun _ => .bind fun _ => fails_none) ?_
    intro a a' s₁ s₁' _ _ w₁ ha
    refine (ihyes he.2.1 w₁).value w₁ (.bind fun _ => .bind fun _ => fails_none) ?_
    intro b b' s₂ s₂' hi hi' w₂ hb
    refine (ihno he.2.2 w₂).value w₂ fails_none ?_
    intro d d' s₃ s₃' hi₃ hi₃' w₃ hd
    exact follows_lowerTernary w₃ (ha.mono (hi.trans hi₃).grows (hi'.trans hi₃').grows) _ _
      (hb.mono hi₃.grows hi₃'.grows) hd
  | cast span type x ih =>
    refine follows_typeKey w he.1 ?_
    intro k k' s₁ s₁' w₁ hk
    simp only [hk.isZero_eq]
    split
    · exact (fails_refuse _ _).follows
    · refine (ih he.2 w₁).value w₁ fails_none ?_
      intro v v' s₂ s₂' hi hi' w₂ hv
      exact follows_lowerCast w₂ hv _ (hk.mono hi.grows hi'.grows)
  | sizeof span x ih =>
    obtain ⟨type, rfl⟩ | hx := Expr.type_or_not x
    · refine follows_typeKey w he ?_
      intro k k' s₁ s₁' w₁ hk
      exact follows_lowerSize w₁ _ hk
    · rw [lower_sizeof hx]
      refine (ih he w).bind w fails_none ?_
      intro r r' s₁ s₁' _ _ _ _ w₁ hr
      exact follows_lowerSize w₁ _ hr.type
  | deref span x ih =>
    refine (ih he w).value w fails_none ?_
    intro v v' s₁ s₁' _ _ w₁ hv
    exact follows_lowerDeref w₁ hv _
  | addressOf span x ih =>
    refine (ih he w).bind w fails_none ?_
    intro r r' s₁ s₁' _ _ _ _ w₁ hr
    exact follows_lowerAddressOf w₁ hr _
  | index span x i ihx ihi =>
    refine (ihx he.1 w).bind w (.bind fun _ => .bind fun _ => fails_none) ?_
    intro b b' s₁ s₁' _ _ _ _ w₁ hb
    refine (ihi he.2 w₁).value w₁ fails_none ?_
    intro v v' s₂ s₂' hi hi' w₂ hv
    exact follows_lowerIndex w₂ (hb.mono hi.grows hi'.grows) _ _ _ hv
  | member span x field arrow ih =>
    refine (ih he w).bind w fails_none ?_
    intro r r' s₁ s₁' _ _ _ _ w₁ hr
    exact follows_lowerMember w₁ hr _ _ field

end Lowering

end WatchExpr
