import WatchExpr.Proofs.Lowering.Canonical
import WatchExpr.Proofs.Lowering.Explained
import WatchExpr.Proofs.Lowering.Loading
import WatchExpr.Proofs.Lowering.Safety
import WatchExpr.Proofs.Tree.Operands

namespace WatchExpr

/-- What is left to do once the code of a result has run: nothing for a value and for the address of
an array, which stands for its first element; the bytes of the type at an address; the part of a
register that the type is wide. -/
def Lowered.fetch (t : TypeTable) (m : Machine) (r : Lowered) (v : Slot) : Computation Slot :=
  let size := (t.byteSize r.type).toNat
  match r.mode with
  | .value => pure v
  | .address =>
    if (t.unwrap r.type).kind = .array then pure v
    else do
      let w ← Target.loadWord m.target v size
      pure (if (t.unwrapEnum (t.unwrap r.type)).kind.isSigned then Slot.signExtend (8 * size) w
        else w)
  | .register => do
    let w ← Target.loadBlock m.target v m.layout.pointerSize
    pure (Slot.truncate (8 * size) w)

/-- The result stands for a place whose type does not fit a slot. -/
def Lowered.Unloadable (t : TypeTable) (r : Lowered) : Prop :=
  (r.mode = .address ∨ r.mode = .register) ∧
    ¬ (r.mode = .address ∧ (t.unwrap r.type).kind = .array) ∧
    (t.byteSize r.type = 0 ∨ 8 < t.byteSize r.type)

namespace Lowering

/-- A place in the register block holds an unsigned integer. -/
def UnsignedRegister (mode : Mode) (type : TypeKey) : Prop :=
  mode = .register → ∃ b ∈ [BasicKind.u8, .u16, .u32, .u64], type = .basic b

/-- The property of leaves that makes it one of all results. -/
def RegisterLeaf : Expr → Prop
  | .leaf _ _ _ type mode => UnsignedRegister mode type
  | _ => True

theorem UnaryRule.mode_eq {t : TypeTable} {op : PrefixOp} {x r : Lowered} (h : UnaryRule t op x r) :
    r.mode = .value := by
  cases h <;> rfl

theorem BinaryRule.mode_eq {t : TypeTable} {op : InfixOp} {x y r : Lowered}
    (h : BinaryRule t op x y r) : r.mode = .value := by
  cases h <;> rfl

theorem TernaryRule.mode_eq {t : TypeTable} {c yes no r : Lowered} (h : TernaryRule t c yes no r) :
    r.mode = .value := by
  cases h <;> rfl

theorem MemberRule.isRecord {t : TypeTable} {record : TypeKey} {field : Text} {base : Node}
    {mode : Mode} {r : Lowered} (h : MemberRule t record field base mode r) :
    record.kind.isRecord := by
  cases h with
  | first hr => exact hr
  | later hr => exact hr

theorem Lowers.unsignedRegister {t t' : TypeTable} {e : Expr} {r : Lowered} (h : Lowers t e r t')
    (ha : e.Atoms RegisterLeaf) : UnsignedRegister r.mode r.type := by
  have hvalue {r : Lowered} (hm : r.mode = .value) : UnsignedRegister r.mode r.type :=
    fun hr => by rw [hm] at hr; cases hr
  induction h with
  | @int t s v isChar =>
    apply hvalue
    simp only [lowerInt]
    split
    · rfl
    · split
      · rfl
      · split <;> rfl
  | @float t s bits isSingle =>
    apply hvalue
    simp only [lowerFloat]
    split <;> rfl
  | leaf => exact ha
  | unary _ _ h => exact hvalue h.mode_eq
  | binary _ _ _ _ h => exact hvalue h.mode_eq
  | ternary _ _ _ _ _ _ h => exact hvalue h.mode_eq
  | arrow _ _ _ h =>
    rw [h.mode_eq]
    rintro ⟨⟩
  | @member t t₁ s x field dash rx r hx hm h ih =>
    intro hr
    rw [h.mode_eq] at hr
    obtain ⟨b, hb, hk⟩ := ih ha hr
    have hrec := h.isRecord
    rw [hk] at hrec
    cases hrec
  | _ => rintro ⟨⟩

end Lowering

theorem Context.registerLeaves (c : Context) (text : Text) :
    (c.tree text).Atoms Lowering.RegisterLeaf := by
  apply Expr.Atoms.mono _ (Parser.atoms_parse_context c text _)
  intro e he
  cases e with
  | leaf span name code type mode =>
    cases he with
    | registerPart hb => exact fun _ => ⟨_, hb, rfl⟩
    | _ => rintro ⟨⟩
  | _ => trivial

/-- One tree goes on from the slot that another leaves: it reads at it or narrows it. -/
inductive Node.ReadsOff (n : Node) : Node → Prop
  | self : ReadsOff n n
  | read {a : Node} {size : UInt8} (h : ReadsOff n a) : ReadsOff n (.read size a)
  | register {a : Node} (h : ReadsOff n a) : ReadsOff n (.register a)
  | trunc {a : Node} {bits : UInt8} {signed : Bool} (h : ReadsOff n a) :
      ReadsOff n (.trunc bits signed a)

namespace Node.ReadsOff

variable {n n' : Node}

theorem need_eq (h : n.ReadsOff n') : n'.need = n.need := by
  induction h with
  | self => rfl
  | read _ ih => exact ih
  | register _ ih => exact ih
  | trunc _ ih => exact ih

theorem emit_prefix (h : n.ReadsOff n') {code code' : List UInt8} (he : n.emit = .ok code)
    (he' : n'.emit = .ok code') : code <+: code' := by
  induction h generalizing code' with
  | self =>
    cases he.symm.trans he'
    exact List.prefix_rfl
  | read _ ih =>
    simp only [emit] at he'
    split at he'
    · cases he'
    · obtain ⟨ca, hca, he'⟩ := bind_eq_ok he'
      cases he'
      exact (ih hca).trans (List.prefix_append ca _)
  | register _ ih =>
    obtain ⟨ca, hca, he'⟩ := bind_eq_ok he'
    cases he'
    exact (ih hca).trans (List.prefix_append ca _)
  | trunc _ ih =>
    obtain ⟨ca, hca, he'⟩ := bind_eq_ok he'
    cases he'
    exact (ih hca).trans (List.prefix_append ca _)

end Node.ReadsOff

namespace TypeTable

variable {t t' : TypeTable} {r v : Lowered}

theorem readsOff_load (h : t.load r = (some v, t')) : r.node.ReadsOff v.node := by
  simp only [load] at h
  split at h
  · cases h
    exact .self
  · split at h
    · cases h
      exact .self
    · split at h <;> cases h
      split
      · exact .trunc (.read .self)
      · exact .read .self
  · split at h <;> cases h
    simp only [truncateTo]
    split
    · exact .register .self
    · exact .trunc (.register .self)

theorem array_of_load (t : TypeTable) (r : Lowered) :
    (t.load r).2 = t ∨ r.mode = .address ∧ (t.unwrap r.type).kind = .array ∧
      ((t.load r).2.unwrap r.type).kind = .array := by
  have hx := extends_load t r
  by_cases h : r.mode = .address ∧ (t.unwrap r.type).kind = .array
  · obtain ⟨hm, ha⟩ := h
    obtain hu | hu := hx.unwrapWithin maxChain r.type
    · refine .inr ⟨hm, ha, ?_⟩
      rw [unwrap, hu]
      exact ha
    · have ht := hu.1
      rw [← unwrap, ha] at ht
      cases ht
  · refine .inl ?_
    simp only [load]
    split
    · rfl
    · rename_i hm
      rw [if_neg fun ha => h ⟨hm, ha⟩]
      split <;> rfl
    · split <;> rfl

theorem fetch_load (t : TypeTable) (r : Lowered) (m : Machine) (v : Slot) :
    r.fetch (t.load r).2 m v = r.fetch t m v := by
  obtain h | ⟨hm, ha, ha'⟩ := t.array_of_load r
  · rw [h]
  · simp only [Lowered.fetch, hm, if_pos ha, if_pos ha']

theorem unloadable_load (t : TypeTable) (r : Lowered) :
    r.Unloadable (t.load r).2 ↔ r.Unloadable t := by
  obtain h | ⟨hm, ha, ha'⟩ := t.array_of_load r
  · rw [h]
  · simp only [Lowered.Unloadable, hm, ha, ha', and_self, not_true, false_and, and_false]

theorem load_eq_none_iff (t : TypeTable) (r : Lowered) :
    (t.load r).1 = none ↔ r.Unloadable t := by
  simp only [load, Lowered.Unloadable, byteSize_unwrapped]
  cases hm : r.mode with
  | value => simp
  | address =>
    by_cases ha : (t.unwrap r.type).kind = .array
    · simp [ha]
    · by_cases hs : t.byteSize r.type = 0 ∨ 8 < t.byteSize r.type
      · simp [ha, hs]
      · simp [ha, hs]
  | register =>
    by_cases hs : t.byteSize r.type = 0 ∨ 8 < t.byteSize r.type
    · simp [hs]
    · simp [hs]

/-- A read of some bytes extends from their number. A slot of eight bytes needs no extension. -/
theorem eval_read {target : Option Target} {layout : Arch} {pending : List Slot} {size : UInt64}
    (hs : size ≤ 8) (signed : Bool) (n : Node) :
    (if signed ∧ size < 8 then Node.trunc (size * 8).toUInt8 true (.read size.toUInt8 n)
      else .read size.toUInt8 n).eval target layout pending =
    (do
      let address ← n.eval target layout pending
      let w ← Target.loadWord target address size.toNat
      pure (if signed then Slot.signExtend (8 * size.toNat) w else w)) := by
  have hn : size.toNat ≤ 8 := UInt64.le_iff_toNat_le.1 hs
  have hsize : size.toUInt8.toNat = size.toNat := by
    rw [UInt64.toNat_toUInt8]
    omega
  by_cases hw : signed ∧ size < 8
  · have hlt : size.toNat < 8 := UInt64.lt_iff_toNat_lt.1 hw.2
    have hbits : (size * 8).toUInt8.toNat = 8 * size.toNat := by
      have h8 : (8 : UInt64).toNat = 8 := rfl
      rw [UInt64.toNat_toUInt8, UInt64.toNat_mul, h8]
      omega
    simp only [if_pos hw, if_pos hw.1, Node.eval, hsize, hbits, if_true, bind_assoc]
  · have he (w : Slot) : (if signed then Slot.signExtend (8 * size.toNat) w else w) = w := by
      cases signed with
      | false => rfl
      | true =>
        have h8 : size.toNat = 8 := by
          have hge : ¬ size.toNat < 8 := fun h => hw ⟨rfl, UInt64.lt_iff_toNat_lt.2 h⟩
          omega
        rw [h8]
        rfl
    simp only [if_neg hw, Node.eval, hsize, he, bind_pure]

/-- What the value of a result computes: what the result does, and then the rest of the read. -/
theorem eval_load (h : t.load r = (some v, t')) (hr : Lowering.UnsignedRegister r.mode r.type)
    (m : Machine) (pending : List Slot) :
    v.node.eval m.target m.layout pending =
      r.node.eval m.target m.layout pending >>= r.fetch t m := by
  cases hm : r.mode with
  | value =>
    simp only [load, hm] at h
    cases h
    have hf : r.fetch t m = pure := by
      funext v
      simp only [Lowered.fetch, hm]
    rw [hf, bind_pure]
  | address =>
    by_cases ha : (t.unwrap r.type).kind = .array
    · simp only [load, hm, if_pos ha] at h
      cases h
      have hf : r.fetch t m = pure := by
        funext v
        simp only [Lowered.fetch, hm, if_pos ha]
      rw [hf, bind_pure]
    · simp only [load, hm, if_neg ha, byteSize_unwrapped] at h
      split at h
      · cases h
      · rename_i hs
        rw [not_or, UInt64.not_lt] at hs
        cases h
        rw [eval_read hs.2]
        apply bind_congr
        intro address
        simp only [Lowered.fetch, hm, if_neg ha]
  | register =>
    obtain ⟨b, hb, hk⟩ := hr hm
    have hw := BasicKind.isWord_of_register hb
    have hu : t.unwrap r.type = .basic b := by
      rw [hk]
      exact unwrapWithin_of_not_transparent rfl _
    have hkind : (t.unwrapEnum (.basic b)).kind = .basic b := t.kind_unwrapEnum rfl
    have hsize : t.byteSize (.basic b) = b.size := byteSize_eq hkind
    simp only [load, hm, hu, hsize, if_neg hw.1.size_bounds] at h
    cases h
    simp only [eval_truncateTo hkind hw.1, Node.eval, bind_assoc]
    apply bind_congr
    intro offset
    simp only [Lowered.fetch, hm, hk, hsize, BasicKind.extend, hw.2, Bool.false_eq_true, if_false,
      BasicKind.bits]

/-- The sign of a value is that of the type behind its name, unless names go on for too long. -/
theorem unwrapEnum_unwrapped {k : TypeKey} (hk : (t.unwrap k).kind.isTransparent = false) :
    t.unwrapEnum (t.unwrap k) = t.unwrapEnum k := by
  have hu : t.unwrap (t.unwrap k) = t.unwrap k := unwrapWithin_of_not_transparent hk _
  rw [unwrapEnum, unwrapEnum, hu]

end TypeTable

section
variable {c : Context} {text : Text} {code : List UInt8}

theorem loads_of_code (h : (compile c text).1.code = some code) :
    ∃ r t, Lowering.Lowers c.types (c.tree text) r t ∧ (compile c text).1.lowered = some r ∧
      r.node.encode = .ok code ∧ (compile c text).2 = (t.load r).2 ∧
      (compile c text).1.valueCode = (t.load r).1.bind fun v => v.node.encode.toOption := by
  simp only [compile] at h ⊢
  obtain ⟨⟨lowered, s⟩, hr⟩ :
      ∃ out, (Lowering.lower (c.tree text)).run { types := c.types } = out := ⟨_, rfl⟩
  rw [Context.tree] at hr
  simp only [hr] at h ⊢
  cases lowered with
  | none => cases h
  | some r =>
    refine ⟨r, s.types, Lowering.lowers_of_run hr, ?_⟩
    simp only at h ⊢
    split at h
    · cases h
    · rename_i hd
      split at h
      · cases h
      · rename_i code' hcr
        obtain ⟨⟨o, types⟩, hv⟩ : ∃ out, s.types.load r = out := ⟨_, rfl⟩
        simp only [hd, hcr, hv, Bool.false_eq_true, if_false] at h ⊢
        cases o with
        | none =>
          cases h
          exact ⟨rfl, rfl, rfl, rfl⟩
        | some v =>
          cases hcv : v.node.encode with
          | ok valueCode =>
            simp only [hcv] at h
            cases h
            simp [hcv, Except.toOption]
          | error e =>
            simp only [hcv] at h
            cases h
            simp [hcv, Except.toOption]

theorem valueCode_of_code_eq_none (h : (compile c text).1.code = none) :
    (compile c text).1.valueCode = none := by
  simp only [compile] at h ⊢
  generalize (Lowering.lower _).run _ = out at h ⊢
  obtain ⟨lowered, s⟩ := out
  cases lowered with
  | none => rfl
  | some r =>
    simp only at h ⊢
    split
    · rfl
    · rename_i hd
      rw [if_neg hd] at h
      split
      · rfl
      · rename_i hcr
        simp only [hcr] at h
        split at h
        · cases h
        · split at h <;> cases h

variable (c text) in
/-- A text without errors has code, and no value code exactly where its type fits no slot. -/
theorem valueCode_eq_none_iff (h : Diagnostic.anyError (compile c text).1.diagnostics = false) :
    (compile c text).1.valueCode = none ↔
      ∃ r, (compile c text).1.lowered = some r ∧ r.Unloadable (compile c text).2 := by
  have hcode : (compile c text).1.code ≠ none := by
    rw [ne_eq, compile_code_iff_anyError, h]
    decide
  obtain ⟨code, hcode⟩ := Option.ne_none_iff_exists'.1 hcode
  obtain ⟨r, t, -, hr, he, ht, hv⟩ := loads_of_code hcode
  have hnone : (compile c text).1.valueCode = none ↔ (t.load r).1 = none := by
    rw [hv]
    obtain ⟨⟨o, t'⟩, hl⟩ : ∃ out, t.load r = out := ⟨_, rfl⟩
    rw [hl]
    cases o with
    | none => exact ⟨fun _ => rfl, fun _ => rfl⟩
    | some v =>
      obtain ⟨code', he'⟩ := TypeTable.encode_load hl he
      simp [he', Except.toOption]
  rw [hnone, TypeTable.load_eq_none_iff, ← TypeTable.unloadable_load, ← ht, hr]
  simp

theorem execute_loaded (hc : c.SelfContained) {valueCode : List UInt8}
    (h : (compile c text).1.valueCode = some valueCode) :
    ∃ r code, (compile c text).1.lowered = some r ∧ (compile c text).1.code = some code ∧
      code <+: valueCode ∧ ∀ m : Machine, r.node.need ≤ m.capacity →
        m.execute valueCode =
          (m.execute code).andThen fun v => (r.fetch (compile c text).2 m v).outcome := by
  have hcode : (compile c text).1.code ≠ none := by
    intro hn
    rw [valueCode_of_code_eq_none hn] at h
    cases h
  obtain ⟨code, hcode⟩ := Option.ne_none_iff_exists'.1 hcode
  obtain ⟨r, t, hl, hr, he, ht, hv⟩ := loads_of_code hcode
  rw [h] at hv
  obtain ⟨v, hload, hencode⟩ := Option.bind_eq_some_iff.1 hv.symm
  have hload : t.load r = (some v, (t.load r).2) := by rw [← hload]
  have hev : v.node.encode = .ok valueCode := by
    revert hencode
    cases v.node.encode with
    | ok code' =>
      intro hencode
      cases hencode
      rfl
    | error e => rintro ⟨⟩
  have hbuilt := hl.built (Context.fragments (fun _ _ => trivial) hc text)
  have hoff := TypeTable.readsOff_load hload
  refine ⟨r, code, hr, hcode,
    hoff.emit_prefix (Node.emit_of_encode he) (Node.emit_of_encode hev), fun m hm => ?_⟩
  have hw : r.node.WellFormed := hbuilt.wellFormed fun _ hc => hc
  have hwv : v.node.WellFormed := (TypeTable.built_load hbuilt hload).wellFormed fun _ hc => hc
  have hmv : v.node.need ≤ m.capacity := by
    rw [hoff.need_eq]
    exact hm
  rw [Node.execute_emit m hwv (Node.emit_of_encode hev) hmv,
    Node.execute_emit m hw (Node.emit_of_encode he) hm,
    TypeTable.eval_load hload (hl.unsignedRegister (c.registerLeaves text)),
    Computation.outcome_bind, ht]
  simp only [TypeTable.fetch_load]

/-- Code and value code of a text: one starts with the other and goes on with the read that mode
and type ask for, a failure ends both alike, and value code is missing only where the type fits no
slot. The sign of what is read is that of the type behind the enumerations of the unwrapped type;
this is the type behind the enumerations of the type itself where its names end within 64 links. A
size that runs in a circle counts as 0 (`TypeTable.byteSize`). -/
theorem execute_valueCode (hc : c.SelfContained) :
    (∀ valueCode, (compile c text).1.valueCode = some valueCode → ∃ r code,
      (compile c text).1.lowered = some r ∧ (compile c text).1.code = some code ∧
      code <+: valueCode ∧ ∀ m : Machine, r.node.need ≤ m.capacity →
        (m.execute valueCode =
          (m.execute code).andThen fun v => (r.fetch (compile c text).2 m v).outcome) ∧
        ∀ f, (m.execute code).status = .failed f → m.execute valueCode = m.execute code) ∧
    (Diagnostic.anyError (compile c text).1.diagnostics = false →
      ((compile c text).1.valueCode = none ↔
        ∃ r, (compile c text).1.lowered = some r ∧ r.Unloadable (compile c text).2)) ∧
    ∀ r, (compile c text).1.lowered = some r →
      ((compile c text).2.unwrap r.type).kind.isTransparent = false →
      (compile c text).2.unwrapEnum ((compile c text).2.unwrap r.type) =
        (compile c text).2.unwrapEnum r.type := by
  refine ⟨fun valueCode h => ?_, valueCode_eq_none_iff c text,
    fun r _ => TypeTable.unwrapEnum_unwrapped⟩
  obtain ⟨r, code, hr, hcode, hp, hx⟩ := execute_loaded hc h
  refine ⟨r, code, hr, hcode, hp, fun m hm => ⟨hx m hm, fun f hf => ?_⟩⟩
  rw [hx m hm, Outcome.andThen_of_failed hf]

end

def minusOneTarget : Target where
  memory _ size := some (Vector.replicate size 0xff)
  registerBlock := []
  base _ := some 0x4000

/-- The text `*(y ? &x : &x)`, a place behind a conditional. -/
def selectedPlace : Lowered :=
  ⟨.cond (.splice [8, 0, 16, 0, 0]) (.splice [7, 8, 0, 0, 0]) (.splice [7, 8, 0, 0, 0]),
    .basic .s32, .address⟩

def selectedPlaceCode : List UInt8 :=
  [8, 0, 16, 0, 0, 2, 8, 0, 7, 8, 0, 0, 0, 3, 5, 0, 7, 8, 0, 0, 0]

theorem need_selectedPlace : selectedPlace.node.need ≤ 5 := by
  have hy : Fragment.room [8, 0, 16, 0, 0] ≤ 5 := Fragment.room_le_length _
  have hx : Fragment.room [7, 8, 0, 0, 0] ≤ 5 := Fragment.room_le_length _
  simp only [selectedPlace, Node.need]
  omega

/-- The jumps of a conditional stand in front of the read. -/
theorem execute_selectedPlace :
    frameContext.SelfContained ∧
      (compile frameContext "*(y ? &x : &x)").1.valueCode =
        some (selectedPlaceCode ++ [4, 4, 37, 32]) ∧
      Machine.execute ⟨some minusOneTarget, .none, 5⟩ selectedPlaceCode = ⟨.ok 0x4008, []⟩ ∧
      Machine.execute ⟨some minusOneTarget, .none, 5⟩ (selectedPlaceCode ++ [4, 4, 37, 32]) =
        ⟨.ok 0xffffffffffffffff, [{ address := 0x4008, size := 4 }]⟩ := by
  have hs : frameContext.SelfContained := fun r name sym hr hs hl =>
    (harmless_frameContext r name sym hr hs hl).1
  have hv : (compile frameContext "*(y ? &x : &x)").1.valueCode =
      some (selectedPlaceCode ++ [4, 4, 37, 32]) := by decide +kernel
  have hp : (compile frameContext "*(y ? &x : &x)").1.lowered = some selectedPlace := by
    decide +kernel
  have hk : (compile frameContext "*(y ? &x : &x)").1.code = some selectedPlaceCode := by
    decide +kernel
  have hx : Machine.execute ⟨some minusOneTarget, .none, 5⟩ selectedPlaceCode =
      ⟨.ok 0x4008, []⟩ := by with_unfolding_all rfl
  refine ⟨hs, hv, hx, ?_⟩
  obtain ⟨r, code, hr, hcode, -, hrun⟩ := (execute_valueCode hs).1 _ hv
  cases hp.symm.trans hr
  cases hk.symm.trans hcode
  rw [(hrun _ need_selectedPlace).1, hx]
  have hu (t : TypeTable) : t.unwrap (.basic .s32) = .basic .s32 :=
    TypeTable.unwrapWithin_of_not_transparent rfl _
  have he (t : TypeTable) : t.unwrapEnum (.basic .s32) = .basic .s32 :=
    TypeTable.unwrapEnum_of_basic rfl
  have hsize (t : TypeTable) : t.byteSize (.basic .s32) = 4 :=
    TypeTable.byteSize_eq (b := .s32) (t.kind_unwrapEnum rfl)
  simp only [Lowered.fetch, selectedPlace, hu, he, hsize]
  with_unfolding_all rfl

end WatchExpr
