import WatchExpr.Proofs.Expression.Places
import WatchExpr.Proofs.Lowering.Repetition
import WatchExpr.Proofs.Types.Renumbering

namespace WatchExpr

namespace TypeTable

theorem interning_key (t : TypeTable) (e : TypeExpr) : t.Interning (e.key t).2 := by
  induction e with
  | named span name k => exact .refl
  | pointer span elem ih =>
    simp only [TypeExpr.key]
    split
    · exact ih
    · exact ih.pointer _
  | array span elem count ih =>
    simp only [TypeExpr.key]
    split
    · exact ih
    · exact ih.array _ _

theorem interning_load (t : TypeTable) (r : Lowered) : t.Interning (t.load r).2 := by
  simp only [load]
  split
  · exact .refl
  · split
    · exact interning_pointer t _
    · split <;> exact .refl
  · split <;> exact .refl

end TypeTable

namespace Lowering

/-- From one state to the other types are interned, and positions with a property complained
about. -/
structure Records (P : Nat → Prop) (s s' : State) : Prop where
  types : s.types.Interning s'.types
  complaints : ∃ ds, s'.diagnostics = s.diagnostics ++ ds ∧ ∀ d ∈ ds, P d.offset

section
variable {P : Nat → Prop} {s s' s'' : State}

theorem Records.refl : Records P s s :=
  ⟨.refl, [], (List.append_nil _).symm, List.forall_mem_nil _⟩

theorem Records.intern {types : TypeTable} (h : s.types.Interning types) :
    Records P s { s with types } :=
  ⟨h, [], (List.append_nil _).symm, List.forall_mem_nil _⟩

theorem Records.trans (h : Records P s s') (h' : Records P s' s'') : Records P s s'' := by
  obtain ⟨ds, hds, hp⟩ := h.complaints
  obtain ⟨ds', hds', hp'⟩ := h'.complaints
  refine ⟨h.types.trans h'.types, ds ++ ds', ?_, List.forall_mem_append.2 ⟨hp, hp'⟩⟩
  rw [hds', hds, List.append_assoc]

end

variable {α β : Type} {P : Nat → Prop}

/-- From every state a run records nothing else. -/
def Checks (P : Nat → Prop) (x : M α) : Prop := ∀ s : State, Records P s (x.run s).2

theorem checks_pure (a : α) : Checks P (pure a) := fun _ => .refl

theorem Checks.bind {x : M α} {f : α → M β} (hx : Checks P x) (hf : ∀ a, Checks P (f a)) :
    Checks P (x >>= f) := fun s => (hx s).trans (hf _ _)

theorem checks_refuse {offset : Nat} (h : P offset) (c : Complaint) :
    Checks P (refuse offset c) :=
  fun _ => ⟨.refl, [⟨offset, c⟩], rfl, List.forall_mem_singleton.2 h⟩

theorem checks_get : Checks P get := fun _ => .refl

theorem checks_typeKey (t : TypeExpr) : Checks P (typeKey t) :=
  fun s => .intern (s.types.interning_key t)

theorem checks_asValue {offset : Nat} (h : P offset) (r : Option Lowered) :
    Checks P (asValue offset r) := by
  cases r with
  | none => exact checks_pure none
  | some r =>
    intro s
    have hg := s.types.interning_load r
    rw [run_asValue]
    split
    · rename_i hl
      rw [hl] at hg
      exact .intern hg
    · exact checks_refuse h _ s

theorem Checks.value {x : M (Option Lowered)} {f : Option Lowered → M α} {offset : Nat}
    (hx : Checks P x) (h : P offset) (hf : ∀ o, Checks P (f o)) :
    Checks P (x >>= fun r => asValue offset r >>= f) :=
  hx.bind fun r => (checks_asValue h r).bind hf

section
variable {start : Nat} (hstart : P start)
include hstart

theorem checks_lowerLeaf (name : Text) (code : List UInt8) (type : TypeKey) (mode : Mode) :
    Checks P (lowerLeaf start name code type mode) := by
  rw [lowerLeaf]
  split
  · exact checks_refuse hstart _
  · split
    · exact checks_pure _
    · exact checks_refuse hstart _

theorem checks_lowerUnary (op : PrefixOp) (x : Lowered) : Checks P (lowerUnary start op x) := by
  refine checks_get.bind fun s => ?_
  simp only
  split
  · exact checks_pure _
  split
  · exact checks_refuse hstart _
  split
  · exact checks_refuse hstart _
  · split <;> exact checks_pure _

theorem checks_lowerLogical (op : InfixOp) (x y : Lowered) :
    Checks P (lowerLogical start op x y) := by
  refine checks_get.bind fun s => ?_
  simp only
  split
  · exact checks_refuse hstart _
  · split <;> exact checks_pure _

theorem checks_lowerPointerCompare (op : InfixOp) (x y : Lowered) :
    Checks P (lowerPointerCompare start op x y) := by
  refine checks_get.bind fun s => ?_
  simp only
  split
  · exact checks_refuse hstart _
  · split
    · exact checks_refuse hstart _
    · exact checks_pure _

theorem checks_lowerPointerOffset (op : BinaryOp) (p i : Lowered) :
    Checks P (lowerPointerOffset start op p i) := by
  refine checks_get.bind fun s => ?_
  simp only
  split
  · exact checks_refuse hstart _
  · split
    · exact checks_refuse hstart _
    · exact checks_pure _

theorem checks_lowerPointerDifference (x y : Lowered) :
    Checks P (lowerPointerDifference start x y) := by
  refine checks_get.bind fun s => ?_
  simp only
  split
  · exact checks_refuse hstart _
  · split
    · exact checks_refuse hstart _
    · exact checks_pure _

theorem checks_lowerArithmetic (op : InfixOp) (x y : Lowered) :
    Checks P (lowerArithmetic start op x y) := by
  refine checks_get.bind fun s => ?_
  simp only
  split
  · exact checks_refuse hstart _
  generalize (if op.isShift then _ else _ : TypeKey) = common
  split
  · exact checks_refuse hstart _
  split
  · exact checks_refuse hstart _
  split
  · exact checks_pure _
  · split <;> exact checks_pure _

theorem checks_lowerBinary (op : InfixOp) (x y : Lowered) :
    Checks P (lowerBinary start op x y) := by
  refine checks_get.bind fun s => ?_
  simp only
  split
  · exact checks_lowerLogical hstart op x y
  split
  · exact checks_lowerPointerCompare hstart op x y
  split
  · exact checks_lowerPointerOffset hstart _ x y
  split
  · exact checks_lowerPointerOffset hstart _ y x
  split
  · exact checks_lowerPointerOffset hstart _ x y
  split
  · exact checks_lowerPointerDifference hstart x y
  · exact checks_lowerArithmetic hstart op x y

theorem checks_lowerTernary {conditionStart : Nat} (hcondition : P conditionStart)
    (c yes no : Lowered) :
    Checks P (lowerTernary start conditionStart c yes no) := by
  refine checks_get.bind fun s => ?_
  simp only
  split
  · exact checks_refuse hcondition _
  split
  · exact checks_pure _
  · split
    · exact checks_pure _
    · exact checks_refuse hstart _

theorem checks_lowerCast (k : TypeKey) (x : Lowered) : Checks P (lowerCast start k x) := by
  refine checks_get.bind fun s => ?_
  simp only
  split
  · exact checks_refuse hstart _
  · split
    · exact checks_pure _
    · exact checks_refuse hstart _

theorem checks_lowerDeref (x : Lowered) : Checks P (lowerDeref start x) := by
  refine checks_get.bind fun s => ?_
  simp only
  split
  · exact checks_refuse hstart _
  split
  · exact checks_refuse hstart _
  · split
    · exact checks_refuse hstart _
    · exact checks_pure _

theorem checks_lowerAddressOf (x : Lowered) : Checks P (lowerAddressOf start x) := by
  intro s
  change Records P s (StateT.run (if x.mode ≠ .address then refuse start .noAddress else do
    set { s with types := (s.types.pointer (s.types.unwrap x.type)).2 }
    return value x.node (s.types.pointer (s.types.unwrap x.type)).1) s : Id _).2
  split
  · exact checks_refuse hstart _ s
  · exact .intern (s.types.interning_pointer _)

theorem checks_element (address index : Node) (elem : TypeKey) :
    Checks P (element start address index elem) := by
  refine checks_get.bind fun s => ?_
  simp only
  split
  · exact checks_refuse hstart _
  · exact checks_pure _

theorem checks_lowerIndex {baseStart indexStart : Nat} (hbase : P baseStart) (hindex : P indexStart)
    (base index : Lowered) :
    Checks P (lowerIndex start baseStart indexStart base index) := by
  refine checks_get.bind fun s => ?_
  simp only
  split
  · exact checks_refuse hindex _
  split
  · split
    · exact checks_refuse hstart _
    · exact checks_element hstart _ _ _
  split
  · refine (checks_asValue hbase (some base)).bind fun p => ?_
    split
    · exact checks_pure _
    · exact checks_element hstart _ _ _
  · exact checks_refuse hstart _

theorem checks_member (base : Node) (mode : Mode) (record : TypeKey) {field : Field}
    (hfield : P field.span.start) :
    Checks P (member start base mode record field) := by
  refine checks_get.bind fun s => ?_
  simp only
  split
  · exact checks_refuse hstart _
  · split
    · exact checks_pure _
    · exact checks_refuse hfield _

theorem checks_lowerMember {baseStart : Nat} (hbase : P baseStart) (base : Lowered) {field : Field}
    (hfield : P field.span.start) :
    Checks P (lowerMember start baseStart base field) := by
  refine checks_get.bind fun s => ?_
  simp only
  split
  · refine (checks_asValue hbase (some base)).bind fun p => ?_
    split
    · exact checks_pure _
    · exact checks_member hstart _ _ _ hfield
  · split
    · exact checks_refuse hstart _
    · exact checks_member hstart _ _ _ hfield

theorem checks_lowerSize (k : TypeKey) : Checks P (lowerSize start k) := by
  rw [lowerSize]
  split
  · exact checks_refuse hstart _
  · exact checks_get.bind fun s => checks_pure _

end

theorem start_of_places (h0 : P 0) {e : Expr} (h : ∀ p ∈ e.places, P p.span.start) : P e.start := by
  cases e with
  | missing => exact h0
  | type t => cases t <;> exact h _ List.mem_cons_self
  | _ => exact h _ List.mem_cons_self

/-- Checking a tree complains about places where nodes of the tree start. -/
theorem checks_lower (h0 : P 0) {e : Expr} (h : ∀ p ∈ e.places, P p.span.start) :
    Checks P (lower e) := by
  induction e with
  | missing => exact checks_pure _
  | int => exact checks_pure _
  | float => exact checks_pure _
  | leaf span name code type mode => exact checks_lowerLeaf (h _ List.mem_cons_self) _ _ _ _
  | type t => exact checks_refuse (start_of_places h0 h) _
  | unary span op x ih =>
    obtain ⟨hs, hx⟩ := List.forall_mem_cons.1 h
    refine (ih hx).value (start_of_places h0 hx) fun v => ?_
    cases v with
    | none => exact checks_pure _
    | some v => exact checks_lowerUnary hs _ _
  | binary span op x y ihx ihy =>
    obtain ⟨hs, h⟩ := List.forall_mem_cons.1 h
    obtain ⟨hx, hy⟩ := List.forall_mem_append.1 h
    refine (ihx hx).value (start_of_places h0 hx) fun vx =>
      (ihy hy).value (start_of_places h0 hy) fun vy => ?_
    split
    · exact checks_lowerBinary hs _ _ _
    · exact checks_pure _
  | ternary span c yes no ihc ihyes ihno =>
    obtain ⟨hs, h⟩ := List.forall_mem_cons.1 h
    obtain ⟨hc, h⟩ := List.forall_mem_append.1 h
    obtain ⟨hyes, hno⟩ := List.forall_mem_append.1 h
    refine (ihc hc).value (start_of_places h0 hc) fun vc =>
      (ihyes hyes).value (start_of_places h0 hyes) fun vyes =>
        (ihno hno).value (start_of_places h0 hno) fun vno => ?_
    split
    · exact checks_lowerTernary hs (start_of_places h0 hc) _ _ _
    · exact checks_pure _
  | cast span type x ih =>
    obtain ⟨hs, h⟩ := List.forall_mem_cons.1 h
    have hx := (List.forall_mem_append.1 h).2
    refine (checks_typeKey type).bind fun k => ?_
    split
    · exact checks_refuse hs _
    · refine (ih hx).value (start_of_places h0 hx) fun v => ?_
      cases v with
      | none => exact checks_pure _
      | some v => exact checks_lowerCast hs _ _
  | sizeof span x ih =>
    obtain ⟨hs, hx⟩ := List.forall_mem_cons.1 h
    obtain ⟨t, rfl⟩ | ht := Expr.type_or_not x
    · exact (checks_typeKey t).bind fun k => checks_lowerSize hs k
    · rw [lower_sizeof ht]
      refine (ih hx).bind fun r => ?_
      cases r with
      | none => exact checks_pure _
      | some r => exact checks_lowerSize hs _
  | deref span x ih =>
    obtain ⟨hs, hx⟩ := List.forall_mem_cons.1 h
    refine (ih hx).value (start_of_places h0 hx) fun v => ?_
    cases v with
    | none => exact checks_pure _
    | some v => exact checks_lowerDeref hs _
  | addressOf span x ih =>
    obtain ⟨hs, hx⟩ := List.forall_mem_cons.1 h
    refine (ih hx).bind fun r => ?_
    cases r with
    | none => exact checks_pure _
    | some r => exact checks_lowerAddressOf hs _
  | index span x i ihx ihi =>
    obtain ⟨hs, h⟩ := List.forall_mem_cons.1 h
    obtain ⟨hx, hi⟩ := List.forall_mem_append.1 h
    refine (ihx hx).bind fun b => (ihi hi).value (start_of_places h0 hi) fun v => ?_
    split
    · exact checks_lowerIndex hs (start_of_places h0 hx) (start_of_places h0 hi) _ _
    · exact checks_pure _
  | member span x field arrow ih =>
    obtain ⟨hs, h⟩ := List.forall_mem_cons.1 h
    obtain ⟨hx, hf⟩ := List.forall_mem_append.1 h
    refine (ih hx).bind fun b => ?_
    cases b with
    | none => exact checks_pure _
    | some b =>
      exact checks_lowerMember hs (start_of_places h0 hx) b (hf _ List.mem_cons_self)

theorem interning_lower (e : Expr) (s : State) : s.types.Interning ((lower e).run s).2.types :=
  (checks_lower (P := fun _ => True) trivial (fun _ _ => trivial) s).types

theorem interning_asValue (offset : Nat) (r : Option Lowered) (s : State) :
    s.types.Interning ((asValue offset r).run s).2.types :=
  (checks_asValue (P := fun _ => True) trivial r s).types

end Lowering

theorem grows_compile (c : Context) (text : Text) : c.types.Grows (compile c text).2 := by
  have hg :=
    (Lowering.interning_lower (Parser.parse c text (Lexer.scan text)).1 { types := c.types }).grows
  simp only [compile]
  generalize (Lowering.lower (Parser.parse c text (Lexer.scan text)).1).run { types := c.types } =
    out at hg
  obtain ⟨o, s⟩ := out
  cases o with
  | none => exact hg
  | some r =>
    have hload := hg.trans (TypeTable.grows_load s.types r)
    simp only
    split
    · exact hg
    split
    · exact hg
    split
    · rename_i hl
      rw [hl] at hload
      exact hload
    · rename_i hl
      rw [hl] at hload
      split <;> exact hload

end WatchExpr
