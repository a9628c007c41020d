import WatchExpr.Proofs.Lowering.Canonical
import WatchExpr.Proofs.Machine.Locations

namespace WatchExpr

namespace Context

/-- The code of a register gives canonical values of a type that the context knows. -/
theorem yields_registerValue {c : Context} {sym : Symbol} {b : BasicKind}
    (hk : (c.types.unwrapEnum sym.type).kind = .basic b) (hb : b.IsNarrow) :
    (Node.splice (c.registerValue sym)).Yields fun v => b.extend v = v := by
  have hsize : ¬ (b.size = 0 ∨ 8 < b.size) := by
    cases b <;> revert hb <;> decide
  have h8 : 8 * b.size.toUInt8.toNat = b.bits := by
    cases b <;> revert hb <;> decide
  have hbits : b.size * 8 = (b.size * 8).toUInt8.toUInt64 := by
    cases b <;> revert hb <;> decide
  intro t layout pending v hv
  simp only [registerValue, TypeTable.byteSize_eq hk, if_neg hsize, hk, Node.eval] at hv
  split at hv
  · rename_i hs
    have he : ∀ w, b.extend w = Slot.signExtend b.bits w := fun w => if_pos hs.2
    have hr : Fragment.Harmless (Code.emitRegRead [] sym.register b.size.toUInt8 0) :=
      Fragment.harmless_regRead _
    rw [Code.emitWith, hbits, Fragment.result_value_truncSigned hr] at hv
    obtain ⟨w, -, hv⟩ := Computation.result_bind_ok hv
    cases hv
    rw [hb.toNat_bits, ← he]
    exact BasicKind.extend_extend hb.isWord w
  · rename_i hs
    obtain ⟨m, hm⟩ :=
      Fragment.result_value_readRegister t layout sym.register b.size.toUInt8 pending
    rw [hm] at hv
    have hlt := Machine.readRegister_lt hv
    rw [size_registerOperand, h8] at hlt
    exact BasicKind.extend_of_not_signed hb.isWord (fun h => hs ⟨h.2, h.1⟩) hlt

/-- The code symbols of a context are self-contained, value code and procedures of narrow integer
types give canonical slots, and the narrow types of register symbols are known from the start. Types
are judged in a table that the context's own may have grown into. -/
structure Canonical (c : Context) (table : TypeTable) : Prop where
  selfContained : c.SelfContained
  valueCode : ∀ r name sym, c.resolver = some r → r.localSymbol? name = some sym →
    sym.location = .valueCode → Lowered.CanonicalIn table ⟨.splice sym.code, sym.type, .value⟩
  procedure : ∀ r name sym, c.resolver = some r → r.procedure? name = some sym →
    Lowered.CanonicalIn table
      ⟨.splice (Code.emitWith [] (.base .image) sym.offset.toUInt64), sym.type, .value⟩
  register : ∀ r name sym b, c.resolver = some r → r.localSymbol? name = some sym →
    sym.location = .register → (table.unwrapEnum sym.type).kind = .basic b → b.IsNarrow →
      (c.types.unwrapEnum sym.type).kind = .basic b

variable {c : Context} {table : TypeTable} {text : Text}

theorem Canonical.leaf (hc : c.Canonical table) {code : List UInt8} {type : TypeKey}
    (h : c.Leaf code type .value) : Lowered.CanonicalIn table ⟨.splice code, type, .value⟩ := by
  cases h with
  | valueCode hr hs hl => exact hc.valueCode _ _ _ hr hs hl
  | procedure hr hs => exact hc.procedure _ _ _ hr hs
  | register hr hs hl =>
    intro b hk hb
    exact yields_registerValue (hc.register _ _ _ b hr hs hl hk hb) hb

theorem Canonical.atoms (hc : c.Canonical table) (text : Text) :
    (c.tree text).Atoms (Lowering.CanonicalAtom table) := by
  apply Expr.Atoms.mono _ (Parser.atoms_parse_context c text _)
  intro e he
  cases e with
  | leaf s name code type mode =>
    cases mode with
    | value => exact hc.leaf he
    | _ => trivial
  | int s v isChar =>
    cases isChar with
    | true => exact he
    | false => trivial
  | _ => trivial

end Context

variable {c : Context} {text : Text} {code : List UInt8}

/-- A run that ends well ends with a value of the tree. -/
theorem Node.Yields.execute {n : Node} {P : Slot → Prop} (h : n.Yields P) (hw : n.WellFormed)
    (he : n.emit = .ok code) (m : Machine) {v : Slot} (hv : (m.execute code).result = .ok v) :
    P v :=
  h _ _ _ v (Node.result_of_execute hw he m hv)

/-- Value code of a narrow integer type ends with a slot that is its own extension from the width of
the type. A size that runs in a circle counts as 0 (`TypeTable.byteSize`). -/
theorem compile_canonical (hc : c.Canonical (compile c text).2)
    (hv : (compile c text).1.valueCode = some code) {b : BasicKind}
    (hk : ((compile c text).2.unwrapEnum (compile c text).1.type).kind = .basic b)
    (hb : b.IsNarrow) (m : Machine) {v : Slot} (hm : (m.execute code).result = .ok v) :
    b.extend v = v := by
  obtain ⟨r, w, t, hl, hw, he, ht⟩ := lowers_of_valueCode hv
  have hfrag := Context.fragments (F := fun _ => True) (fun _ _ => trivial) hc.selfContained text
  have hbuilt := TypeTable.built_load (hl.built hfrag) hw
  have hcanon := TypeTable.canonical_load hw (.refl _)
    (hl.canonical (TypeTable.extends_of_load hw) (hc.atoms text))
  rw [ht, ← TypeTable.type_of_load hw hk] at hk
  have hyields := hcanon b hk hb
  exact hyields.execute (hbuilt.wellFormed fun _ h => h) (Node.emit_of_encode he) m hm

/-- All bytes in memory and registers have only their top bit set. -/
def topBitTarget : Target where
  memory _ size := some (Vector.replicate size 0x80)
  registerBlock := List.replicate 8 0x80
  base _ := some 0x4000

theorem canonical_frameContext (table : TypeTable) : frameContext.Canonical table where
  selfContained r name sym hr hs hl := (harmless_frameContext r name sym hr hs hl).1
  valueCode r name sym hr hs hl := by
    cases hr
    simp only [frameResolver] at hs
    split at hs
    · cases hs
      cases hl
    · split at hs <;> cases hs
      exact Lowering.canonical_of_kind rfl fun hb => absurd hb (by decide)
  procedure r name sym hr hs := by
    cases hr
    cases hs
  register r name sym b hr hs hl := by
    cases hr
    simp only [frameResolver] at hs
    split at hs
    · cases hs
      cases hl
    · split at hs <;> cases hs
      cases hl

/-- A product of 32-bit integers that leaves their range. -/
theorem compile_product_canonical :
    frameContext.Canonical (compile frameContext "x * 3").2 ∧
      (compile frameContext "x * 3").1.valueCode =
        some [7, 8, 0, 0, 0, 4, 4, 37, 32, 10, 3, 37, 8, 20, 2, 37, 32] ∧
      ((compile frameContext "x * 3").2.unwrapEnum (compile frameContext "x * 3").1.type).kind =
        .basic .s32 ∧
      (Machine.execute ⟨some topBitTarget, .none, 2⟩
        [7, 8, 0, 0, 0, 4, 4, 37, 32, 10, 3, 37, 8, 20, 2, 37, 32]).result =
          .ok 0xffffffff81818180 ∧
      BasicKind.s32.extend 0xffffffff81818180 = 0xffffffff81818180 := by
  have hv : (compile frameContext "x * 3").1.valueCode =
      some [7, 8, 0, 0, 0, 4, 4, 37, 32, 10, 3, 37, 8, 20, 2, 37, 32] := by decide +kernel
  have hk : ((compile frameContext "x * 3").2.unwrapEnum
      (compile frameContext "x * 3").1.type).kind = .basic .s32 := by decide +kernel
  have hm : (Machine.execute ⟨some topBitTarget, .none, 2⟩
      [7, 8, 0, 0, 0, 4, 4, 37, 32, 10, 3, 37, 8, 20, 2, 37, 32]).result =
        .ok 0xffffffff81818180 := by decide +kernel
  have hc := canonical_frameContext (compile frameContext "x * 3").2
  exact ⟨hc, hv, hk, hm, compile_canonical hc hv hk (by decide) _ hm⟩

/-- A local whose address code stops the machine before the local is read. -/
def stoppingResolver : Resolver where
  localSymbol? name :=
    if name = ("x" : Text) then
      some { name, type := .basic .s32, location := .addressCode,
             code := Instruction.encode ⟨.const .w64, 0x100000000⟩ ++ [Opcode.stop.toByte] }
    else none
  globalSymbol? _ := none
  threadLocal? _ := none
  procedure? _ := none
  procedureName := []

def stoppingContext : Context :=
  { types := .empty 8, resolver := some stoppingResolver, arch := .x64 }

/-- A register local whose type is an alias that is not there, next to a global whose pointer takes
the place of the alias. -/
def danglingResolver : Resolver where
  localSymbol? name :=
    if name = ("y" : Text) then
      some { name, type := ⟨.typedef, 1⟩, location := .register, register := 1 }
    else none
  globalSymbol? name :=
    if name = ("z" : Text) then some { name, type := .basic .s8, offset := 16 } else none
  threadLocal? _ := none
  procedure? _ := none
  procedureName := []

def danglingContext : Context :=
  { types := .empty 8, resolver := some danglingResolver, arch := .x64 }

/-- Neither address code that is self-contained nor types that are known can be done without: both
contexts have no value code and no procedures, and a 32-bit result is out of range. -/
theorem compile_not_canonical :
    ((∀ name sym, stoppingResolver.localSymbol? name = some sym → sym.location = .addressCode) ∧
      (∀ name, stoppingResolver.procedure? name = none) ∧
      (compile stoppingContext "x").1.valueCode =
        some [13, 0, 0, 0, 0, 1, 0, 0, 0, 0, 4, 4, 37, 32] ∧
      ((compile stoppingContext "x").2.unwrapEnum (compile stoppingContext "x").1.type).kind =
        .basic .s32 ∧
      (Machine.execute ⟨some topBitTarget, .x64, 8⟩
        [13, 0, 0, 0, 0, 1, 0, 0, 0, 0, 4, 4, 37, 32]).result = .ok 0x100000000 ∧
      BasicKind.s32.extend 0x100000000 ≠ 0x100000000) ∧
    (∀ name sym, danglingResolver.localSymbol? name = some sym → sym.location = .register) ∧
      (∀ name, danglingResolver.procedure? name = none) ∧
      (compile danglingContext "&z ? y : y").1.valueCode =
        some [8, 16, 0, 0, 0, 2, 8, 0, 5, 1, 8, 0, 0, 3, 5, 0, 5, 1, 8, 0, 0] ∧
      ((compile danglingContext "&z ? y : y").2.unwrapEnum
        (compile danglingContext "&z ? y : y").1.type).kind = .basic .s32 ∧
      (Machine.execute ⟨some topBitTarget, .x64, 8⟩
        [8, 16, 0, 0, 0, 2, 8, 0, 5, 1, 8, 0, 0, 3, 5, 0, 5, 1, 8, 0, 0]).result =
          .ok 0x8080808080808080 ∧
      BasicKind.s32.extend 0x8080808080808080 ≠ 0x8080808080808080 := by
  refine ⟨⟨?_, fun _ => rfl, by decide +kernel, by decide +kernel, by decide +kernel, by decide⟩,
    ?_, fun _ => rfl, by decide +kernel, by decide +kernel, by decide +kernel, by decide⟩
  · intro name sym hs
    simp only [stoppingResolver] at hs
    split at hs <;> cases hs
    rfl
  · intro name sym hs
    simp only [danglingResolver] at hs
    split at hs <;> cases hs
    rfl

end WatchExpr
