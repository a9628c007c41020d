import WatchExpr.Proofs.Lowering.NarrowResults
import WatchExpr.Proofs.Lowering.Pointers
import WatchExpr.Proofs.Machine.Locations

namespace WatchExpr

namespace Context

/-- The code symbols of a context are self-contained, and on a target the symbols have addresses
below two to the 32nd: those that code and registers give, those that count from a base, and the
values of code whose type is that of an address in a table that the context's own may have grown
into. -/
structure ShortOn (c : Context) (table : TypeTable) (target : Option Target) (layout : Arch) :
    Prop where
  selfContained : c.SelfContained
  addressCode : ∀ r name sym, c.resolver = some r → r.localSymbol? name = some sym →
    sym.location = .addressCode → (Node.splice sym.code).Short target layout
  valueCode : ∀ r name sym, c.resolver = some r → r.localSymbol? name = some sym →
    sym.location = .valueCode → table.isAddressLike sym.type →
      (Node.splice sym.code).Short target layout
  registerOffset : ∀ r name sym, c.resolver = some r → r.localSymbol? name = some sym →
    sym.location = .registerOffset → (Node.splice (c.registerAddress sym)).Short target layout
  image : ∀ r name sym a, c.resolver = some r →
    r.globalSymbol? name = some sym ∨ r.procedure? name = some sym →
      target.bind (·.base .image) = some a → a.toNat + sym.offset.toInt < 2 ^ 32
  thread : ∀ r name sym a, c.resolver = some r → r.threadLocal? name = some sym →
    target.bind (·.base .thread) = some a → a.toNat + sym.offset.toInt < 2 ^ 32

variable {c : Context} {table : TypeTable} {target : Option Target} {layout : Arch} {sym : Symbol}

theorem short_base {base : Base} {offset : Int64} (ho : 0 ≤ offset ∧ offset ≤ 0xffffffff)
    (h : ∀ a, target.bind (·.base base) = some a → a.toNat + offset.toInt < 2 ^ 32) :
    (Node.splice (Code.emitWith [] (.base base) offset.toUInt64)).Short target layout := by
  obtain ⟨hn, hlt⟩ := toNat_baseOffset ho
  have h0 : 0 ≤ offset.toInt := Int64.le_iff_toInt_le.1 ho.1
  intro v hv
  rw [Node.eval, Fragment.result_value_base base hlt, Machine.baseAddress] at hv
  cases hb : target.bind (·.base base) with
  | none =>
    simp only [hb] at hv
    cases hv
  | some a =>
    simp only [hb] at hv
    cases hv
    have ha := h a hb
    have hs : IsShort (a.toNat + offset.toUInt64.toNat) := ⟨by omega, by omega⟩
    rw [← Slot.ofInt_toNat offset.toUInt64]
    exact hs.toNat_add_lt

theorem short_readRegister {register : UInt8} :
    (Node.splice (Code.emitRegRead [] register 4 0)).Short target layout := by
  intro v hv
  obtain ⟨m, hm⟩ := Fragment.result_value_readRegister target layout register 4 []
  rw [Node.eval, hm] at hv
  have hlt := Machine.readRegister_lt hv
  rw [size_registerOperand] at hlt
  exact hlt

theorem registerValue_address (ha : c.arch = .x86) (hp : c.types.pointerSize = 4)
    (hT : c.types.Extends table) (hk : table.isAddressLike sym.type) :
    c.registerValue sym = Code.emitRegRead [] sym.register 4 0 := by
  have hbytes : c.pointerBytes.toUInt64 = 4 := by rw [pointerBytes, ha]; rfl
  have hknown : c.types.byteSize sym.type ≠ 0 → c.types.isAddressLike sym.type := by
    intro hs
    rw [← TypeTable.byteSize_unwrapped] at hs
    rw [← TypeTable.isAddressLike_congr (hT.unwrap_of_byteSize hs)]
    exact hk
  have hsize : (if c.types.byteSize sym.type = 0 ∨ 8 < c.types.byteSize sym.type then
      c.pointerBytes.toUInt64 else c.types.byteSize sym.type) = 4 := by
    split
    · exact hbytes
    · rename_i hs
      rw [not_or] at hs
      rw [TypeTable.byteSize_of_isAddressLike (hknown hs.1), hp]
  have hsign : (c.types.unwrapEnum sym.type).kind.isSigned = false := by
    cases hkind : (c.types.unwrapEnum sym.type).kind with
    | basic b =>
      have hs := TypeTable.byteSize_eq hkind
      by_cases h0 : c.types.byteSize sym.type = 0
      · rw [h0] at hs
        cases b <;> first | rfl | cases hs
      · exact absurd hkind (TypeTable.not_basic_of_isAddressLike (hknown h0))
    | _ => rfl
  simp only [registerValue, hsize, hsign, Bool.false_eq_true, and_false, if_false]
  rfl

theorem ShortOn.leaf (h : c.ShortOn table target layout) (ha : c.arch = .x86)
    (hp : c.types.pointerSize = 4) (hT : c.types.Extends table) {code : List UInt8}
    {type : TypeKey} {mode : Mode} (hl : c.Leaf code type mode)
    (hr : Lowered.IsAddress table ⟨.splice code, type, mode⟩) :
    (Node.splice code).Short target layout := by
  have hbytes : c.pointerBytes = 4 := by rw [pointerBytes, ha]; rfl
  cases hl with
  | addressCode hc hs hloc => exact h.addressCode _ _ _ hc hs hloc
  | valueCode hc hs hloc =>
    obtain hm | ⟨-, hk⟩ := hr
    · cases hm
    · exact h.valueCode _ _ _ hc hs hloc hk
  | registerOffset hc hs hloc => exact h.registerOffset _ _ _ hc hs hloc
  | registerOffsetStored =>
    have hsize : ¬ ((4 : UInt8) < 1 ∨ 8 < (4 : UInt8)) := by decide
    intro v hv
    rw [Node.eval, Code.emitWith, hbytes,
      Fragment.result_value_memRead (harmless_registerAddress c _) hsize] at hv
    obtain ⟨a, -, hv⟩ := Computation.result_bind_ok hv
    exact Target.loadWord_lt (by decide) hv
  | register =>
    obtain hm | ⟨-, hk⟩ := hr
    · cases hm
    · rw [registerValue_address ha hp hT hk]
      exact short_readRegister
  | registerPart =>
    obtain hm | ⟨hm, -⟩ := hr
    · cases hm
    · cases hm
  | globalSymbol hc hs ho => exact short_base ho fun a => h.image _ _ _ a hc (.inl hs)
  | threadLocal hc hs ho => exact short_base ho fun a => h.thread _ _ _ a hc hs
  | procedure hc hs ho => exact short_base ho fun a => h.image _ _ _ a hc (.inr hs)

theorem ShortOn.atoms (h : c.ShortOn table target layout) (ha : c.arch = .x86)
    (hp : c.types.pointerSize = 4) (hT : c.types.Extends table) (text : Text) :
    (c.tree text).Atoms (Lowering.ShortAtom table target layout) := by
  apply Expr.Atoms.mono _ (Parser.atoms_parse_context c text _)
  intro e he
  cases e with
  | leaf => exact h.leaf ha hp hT he
  | _ => trivial

end Context

theorem Comparison.apply_eq_iff {v w : Slot} : Comparison.eq.apply .u v w ↔ v = w := by
  have hc : Comparison.eq.apply .u v w = (compare v w == .eq) := by
    simp only [apply, order?]
    cases compare v w <;> rfl
  rw [hc, beq_iff_eq, Std.LawfulEqCmp.compare_eq_iff_eq]

variable {c : Context} {text : Text} {code : List UInt8}

/-- Value code of a pointer type ends with an address of four bytes where pointers have four bytes,
if the last operation that makes the address gives one: a cast, if the number that is cast is one,
and a displacement, if the exact sum is. Addresses that agree in four bytes compare equal then.
Where narrow values are canonical, only numbers of signed types and of eight bytes and more have to
be looked at. -/
theorem compile_short (harch : c.arch = .x86) (hp : c.types.pointerSize = 4) {m : Machine}
    (hc : c.ShortOn (compile c text).2 m.target m.layout)
    (hmakes : ∀ v a, Lowering.KeptOperand c.types (c.tree text) v (compile c text).2 →
      Lowering.Makes (c.Canonical (compile c text).2) m.target m.layout c.types (c.tree text) a →
        IsShort a)
    (hv : (compile c text).1.valueCode = some code)
    (hk : (compile c text).2.isAddressLike (compile c text).1.type) {v : Slot}
    (hm : (m.execute code).result = .ok v) :
    v.toNat < 2 ^ 32 ∧ ∀ w : Slot, w.toNat < 2 ^ 32 →
      (Comparison.eq.apply .u v w ↔ v.toNat % 2 ^ 32 = w.toNat % 2 ^ 32) := by
  obtain ⟨r, value, t, hl, hload, he, ht⟩ := lowers_of_valueCode hv
  have hfrag := Context.fragments (F := fun _ => True) (fun _ _ => trivial) hc.selfContained text
  have hwf := (TypeTable.built_load (hl.built hfrag) hload).wellFormed fun _ h => h
  have hg := TypeTable.grows_of_load hload
  have hT := hl.grows.trans hg
  have hp' := hT.pointerSize.trans hp
  rw [ht] at hk
  have hka : (compile c text).2.isAddressLike value.type := by
    rw [TypeTable.type_of_load_of_ne_array hload]
    · exact hk
    · intro ha
      rw [TypeTable.isAddressLike, ha] at hk
      cases hk
  have hshort : value.node.Short m.target m.layout := by
    apply TypeTable.short_load hload (.refl _) hp' (hl.unsignedRegister (c.registerLeaves text)) hka
    intro hkept
    apply hl.short hg hp' (c.registerLeaves text) (hc.atoms harch hp hT.entries text)
      fun hcanon => Context.Canonical.atoms hcanon text
    intro a ha
    exact hmakes value a ⟨_, _, hl, hload, hkept⟩ ha
  have hlt := hshort v (Node.result_of_execute hwf (Node.emit_of_encode he) m hm)
  refine ⟨hlt, ?_⟩
  intro w hw
  rw [Comparison.apply_eq_iff, ← UInt64.toNat_inj, Nat.mod_eq_of_lt hlt, Nat.mod_eq_of_lt hw]

/-- A global of four bytes in the image of a program with pointers of four bytes. -/
def globalResolver : Resolver where
  localSymbol? _ := none
  globalSymbol? name :=
    if name = ("g" : Text) then some { name, type := .basic .u32, offset := 16 } else none
  threadLocal? _ := none
  procedure? _ := none
  procedureName := []

def globalContext : Context := { types := .empty 4, resolver := some globalResolver, arch := .x86 }

theorem short_globalContext (table : TypeTable) :
    globalContext.ShortOn table (some topBitTarget) .x86 where
  selfContained r name sym hr hs hl := by
    cases hr
    cases hs
  addressCode r name sym hr hs hl := by
    cases hr
    cases hs
  valueCode r name sym hr hs hl hk := by
    cases hr
    cases hs
  registerOffset r name sym hr hs hl := by
    cases hr
    cases hs
  image r name sym a hr hs ha := by
    cases hr
    cases ha
    obtain hs | hs := hs
    · simp only [globalResolver] at hs
      split at hs <;> cases hs
      change ((0x4000 : UInt64).toNat : Int) + (16 : Int64).toInt < 2 ^ 32
      decide
    · cases hs
  thread r name sym a hr hs ha := by
    cases hr
    cases hs

theorem canonical_globalContext (table : TypeTable) : globalContext.Canonical table where
  selfContained := (short_globalContext table).selfContained
  valueCode r name sym hr hs hl := by
    cases hr
    cases hs
  procedure r name sym hr hs := by
    cases hr
    cases hs
  register r name sym b hr hs hl := by
    cases hr
    cases hs

theorem tree_nextGlobal : globalContext.tree "&g + 1" =
    .binary ⟨0, 6⟩ .add
      (.addressOf ⟨0, 2⟩ (.leaf ⟨1, 2⟩ "g" [8, 16, 0, 0, 0] (.basic .u32) .address))
      (.int ⟨5, 6⟩ 1 false) := by
  decide +kernel

theorem makes_nextGlobal {canonical : Prop} {a : Int}
    (h : Lowering.Makes canonical (some topBitTarget) .x86 globalContext.types
      (globalContext.tree "&g + 1") a) : a = 0x4014 := by
  have hg : (Fragment.value (some topBitTarget) .x86 [8, 16, 0, 0, 0] []).result = .ok 0x4010 :=
    Fragment.result_value_base .image (show (16 : UInt64).toNat < 2 ^ 32 by decide)
  have hsize (p : TypeKey) (t : TypeTable)
      (h : globalContext.types.pointer (globalContext.types.unwrap (.basic .u32)) = (p, t)) :
      t.byteSize (t.pointee p) = 4 := by
    cases h
    decide +kernel
  rw [tree_nextGlobal] at h
  cases h with
  | add hx hi hp ha hj =>
    obtain ⟨rx, t₁, hx, hvx⟩ := hx
    obtain ⟨ri, t₂, hi, hvi⟩ := hi
    cases hi
    cases hvi
    cases hx with
    | addressOf hx hm hptr =>
      cases hx
      cases hvx
      cases hj
      cases hg.symm.trans ha
      rw [hsize _ _ hptr]
      rfl
  | addRight hi hx hp ha hj =>
    obtain ⟨rx, t₁, hx, hvx⟩ := hx
    cases hx
    cases hvx
    have hk := TypeTable.isAddressLike_of_isPointer hp
    rw [TypeTable.not_isAddressLike rfl] at hk
    cases hk

theorem tree_castGlobal : globalContext.tree "(char *)g" =
    .cast ⟨0, 9⟩ (.pointer ⟨1, 7⟩ (.named ⟨1, 5⟩ "char" (.basic .char8)))
      (.leaf ⟨8, 9⟩ "g" [8, 16, 0, 0, 0] (.basic .u32) .address) := by
  decide +kernel

theorem makes_castGlobal {a : Int}
    (h : Lowering.Makes (globalContext.Canonical (compile globalContext "(char *)g").2)
      (some topBitTarget) .x86 globalContext.types (globalContext.tree "(char *)g") a) :
    IsShort a := by
  rw [tree_castGlobal] at h
  cases h with
  | number hk hx hn hv hr =>
    obtain ⟨rx, t₁, hx, hvx⟩ := hx
    cases hx
    cases hvx
    exact hr (canonical_globalContext _) .u32 rfl
  | cast hk hx hp h =>
    obtain ⟨rx, t₁, hx, hvx, hkept⟩ := hx
    cases hx
    cases hvx
    rw [TypeTable.not_isAddressLike rfl] at hp
    cases hp

/-- The address behind a global, and the value of the global as an address: the number has its top
bit set, and the cast keeps it as it is. -/
theorem compile_global_short :
    globalContext.arch = .x86 ∧ globalContext.types.pointerSize = 4 ∧
    (globalContext.ShortOn (compile globalContext "&g + 1").2 (some topBitTarget) .x86 ∧
      (∀ v a, Lowering.KeptOperand globalContext.types (globalContext.tree "&g + 1") v
          (compile globalContext "&g + 1").2 →
        Lowering.Makes (globalContext.Canonical (compile globalContext "&g + 1").2)
          (some topBitTarget) .x86 globalContext.types (globalContext.tree "&g + 1") a →
            IsShort a) ∧
      (compile globalContext "&g + 1").1.valueCode =
        some [8, 16, 0, 0, 0, 10, 1, 37, 8, 10, 4, 20, 1, 18, 1] ∧
      (compile globalContext "&g + 1").2.isAddressLike (compile globalContext "&g + 1").1.type ∧
      (Machine.execute ⟨some topBitTarget, .x86, 3⟩
        [8, 16, 0, 0, 0, 10, 1, 37, 8, 10, 4, 20, 1, 18, 1]).result = .ok 0x4014 ∧
      (0x4014 : Slot).toNat < 2 ^ 32 ∧ ∀ w : Slot, w.toNat < 2 ^ 32 →
        (Comparison.eq.apply .u 0x4014 w ↔
          (0x4014 : Slot).toNat % 2 ^ 32 = w.toNat % 2 ^ 32)) ∧
    globalContext.ShortOn (compile globalContext "(char *)g").2 (some topBitTarget) .x86 ∧
      (∀ v a, Lowering.KeptOperand globalContext.types (globalContext.tree "(char *)g") v
          (compile globalContext "(char *)g").2 →
        Lowering.Makes (globalContext.Canonical (compile globalContext "(char *)g").2)
          (some topBitTarget) .x86 globalContext.types (globalContext.tree "(char *)g") a →
            IsShort a) ∧
      (compile globalContext "(char *)g").1.valueCode = some [8, 16, 0, 0, 0, 4, 4] ∧
      (compile globalContext "(char *)g").2.isAddressLike
        (compile globalContext "(char *)g").1.type ∧
      (Machine.execute ⟨some topBitTarget, .x86, 1⟩ [8, 16, 0, 0, 0, 4, 4]).result =
        .ok 0x80808080 ∧
      (0x80808080 : Slot).toNat < 2 ^ 32 ∧ ∀ w : Slot, w.toNat < 2 ^ 32 →
        (Comparison.eq.apply .u 0x80808080 w ↔
          (0x80808080 : Slot).toNat % 2 ^ 32 = w.toNat % 2 ^ 32) := by
  have hnext := short_globalContext (compile globalContext "&g + 1").2
  have hcast := short_globalContext (compile globalContext "(char *)g").2
  have hmakes : ∀ v a, Lowering.KeptOperand globalContext.types (globalContext.tree "&g + 1") v
      (compile globalContext "&g + 1").2 →
        Lowering.Makes (globalContext.Canonical (compile globalContext "&g + 1").2)
          (some topBitTarget) .x86 globalContext.types (globalContext.tree "&g + 1") a →
            IsShort a := by
    intro v a _ ha
    rw [makes_nextGlobal ha]
    exact ⟨by decide, by decide⟩
  have hmakes' : ∀ v a, Lowering.KeptOperand globalContext.types
      (globalContext.tree "(char *)g") v (compile globalContext "(char *)g").2 →
        Lowering.Makes (globalContext.Canonical (compile globalContext "(char *)g").2)
          (some topBitTarget) .x86 globalContext.types (globalContext.tree "(char *)g") a →
            IsShort a := fun _ _ _ ha => makes_castGlobal ha
  have hv : (compile globalContext "&g + 1").1.valueCode =
      some [8, 16, 0, 0, 0, 10, 1, 37, 8, 10, 4, 20, 1, 18, 1] := by decide +kernel
  have hv' : (compile globalContext "(char *)g").1.valueCode = some [8, 16, 0, 0, 0, 4, 4] := by
    decide +kernel
  have hk : (compile globalContext "&g + 1").2.isAddressLike
      (compile globalContext "&g + 1").1.type := by decide +kernel
  have hk' : (compile globalContext "(char *)g").2.isAddressLike
      (compile globalContext "(char *)g").1.type := by decide +kernel
  have hm : (Machine.execute ⟨some topBitTarget, .x86, 3⟩
      [8, 16, 0, 0, 0, 10, 1, 37, 8, 10, 4, 20, 1, 18, 1]).result = .ok 0x4014 := by decide +kernel
  have hm' : (Machine.execute ⟨some topBitTarget, .x86, 1⟩ [8, 16, 0, 0, 0, 4, 4]).result =
      .ok 0x80808080 := by decide +kernel
  exact ⟨rfl, rfl, ⟨hnext, hmakes, hv, hk, hm, compile_short rfl rfl hnext hmakes hv hk hm⟩,
    hcast, hmakes', hv', hk', hm', compile_short rfl rfl hcast hmakes' hv' hk' hm'⟩

/-- A number whose code stops the machine with more than four bytes. -/
def endingResolver : Resolver where
  localSymbol? name :=
    if name = ("y" : Text) then
      some { name, type := .basic .s32, location := .valueCode,
             code := Instruction.encode ⟨.const .w64, 0x100000000⟩ ++ [Opcode.stop.toByte] }
    else none
  globalSymbol? _ := none
  threadLocal? _ := none
  procedure? _ := none
  procedureName := []

def endingContext : Context := { types := .empty 4, resolver := some endingResolver, arch := .x86 }

/-- Without any symbols, a cast keeps the sign and all the bytes of a number, and displacements
leave the address space on both sides, so that an address is told from itself. Code that is not
self-contained ends a run with what it likes. -/
theorem compile_not_short :
    ((compile (.bare .x86) "(char *)-1").1.valueCode = some [10, 1, 37, 8, 15, 2, 37, 32] ∧
      (compile (.bare .x86) "(char *)-1").2.isPointer (compile (.bare .x86) "(char *)-1").1.type ∧
      (Machine.execute ⟨none, .x86, 1⟩ [10, 1, 37, 8, 15, 2, 37, 32]).result =
        .ok 0xffffffffffffffff) ∧
    ((compile (.bare .x86) "(char *)0x100000000").1.valueCode =
        some [13, 0, 0, 0, 0, 1, 0, 0, 0] ∧
      (compile (.bare .x86) "(char *)0x100000000").2.isPointer
        (compile (.bare .x86) "(char *)0x100000000").1.type ∧
      (Machine.execute ⟨none, .x86, 1⟩ [13, 0, 0, 0, 0, 1, 0, 0, 0]).result =
        .ok 0x100000000) ∧
    ((compile (.bare .x86) "(char *)0 - 1").1.valueCode =
        some [10, 0, 37, 8, 10, 1, 37, 8, 19, 1] ∧
      (compile (.bare .x86) "(char *)0 - 1").2.isPointer
        (compile (.bare .x86) "(char *)0 - 1").1.type ∧
      (Machine.execute ⟨none, .x86, 2⟩ [10, 0, 37, 8, 10, 1, 37, 8, 19, 1]).result =
        .ok 0xffffffffffffffff) ∧
    ((compile (.bare .x86) "&((char *)0)[-1]").1.valueCode =
        some [10, 1, 37, 8, 15, 2, 37, 32, 10, 0, 37, 8, 18, 1] ∧
      (compile (.bare .x86) "&((char *)0)[-1]").2.isPointer
        (compile (.bare .x86) "&((char *)0)[-1]").1.type ∧
      (Machine.execute ⟨none, .x86, 2⟩ [10, 1, 37, 8, 15, 2, 37, 32, 10, 0, 37, 8, 18, 1]).result =
        .ok 0xffffffffffffffff) ∧
    ((compile (.bare .x86) "(char *)0xffffffff + 1 == (char *)0").1.valueCode =
        some [13, 255, 255, 255, 255, 0, 0, 0, 0, 10, 1, 37, 8, 18, 1, 10, 0, 37, 8, 30, 1] ∧
      (Machine.execute ⟨none, .x86, 2⟩
        [13, 255, 255, 255, 255, 0, 0, 0, 0, 10, 1, 37, 8, 18, 1]).result = .ok 0x100000000 ∧
      (Machine.execute ⟨none, .x86, 2⟩
        [13, 255, 255, 255, 255, 0, 0, 0, 0, 10, 1, 37, 8, 18, 1, 10, 0, 37, 8, 30, 1]).result =
          .ok 0) ∧
    (∀ name sym, endingResolver.localSymbol? name = some sym →
        sym.location = .valueCode ∧ sym.type = .basic .s32) ∧
      (compile endingContext "y ? (char *)0 : (char *)0").1.valueCode =
        some [13, 0, 0, 0, 0, 1, 0, 0, 0, 0, 2, 7, 0, 10, 0, 37, 8, 3, 4, 0, 10, 0, 37, 8] ∧
      (compile endingContext "y ? (char *)0 : (char *)0").2.isPointer
        (compile endingContext "y ? (char *)0 : (char *)0").1.type ∧
      (Machine.execute ⟨none, .x86, 1⟩
        [13, 0, 0, 0, 0, 1, 0, 0, 0, 0, 2, 7, 0, 10, 0, 37, 8, 3, 4, 0, 10, 0, 37, 8]).result =
          .ok 0x100000000 := by
  refine ⟨⟨by decide +kernel, by decide +kernel, by decide +kernel⟩,
    ⟨by decide +kernel, by decide +kernel, by decide +kernel⟩,
    ⟨by decide +kernel, by decide +kernel, by decide +kernel⟩,
    ⟨by decide +kernel, by decide +kernel, by decide +kernel⟩,
    ⟨by decide +kernel, by decide +kernel, by decide +kernel⟩, ?_, by decide +kernel,
    by decide +kernel, by decide +kernel⟩
  intro name sym hs
  simp only [endingResolver] at hs
  split at hs <;> cases hs
  exact ⟨rfl, rfl⟩

end WatchExpr
