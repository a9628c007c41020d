import WatchExpr.Debug.Info
import WatchExpr.Proofs.Lowering.Loading
import WatchExpr.Proofs.Machine.Locations

namespace WatchExpr

/-- An address moved by a signed displacement, modulo two to the 64th. -/
def Slot.displaced (a : Slot) (d : Int64) : Slot := ofInt (a.toNat + d.toInt)

theorem Slot.add_toUInt64 (a : Slot) (d : Int64) : a + d.toUInt64 = a.displaced d := by
  have hd : ofInt d.toInt = d.toUInt64 := ofInt_toInt d.toUInt64
  rw [displaced, ofInt_add, ofInt_toNat, hd]

theorem Slot.displaced_zero (a : Slot) : a.displaced 0 = a := by
  have h0 : (a.toNat + (0 : Int64).toInt : Int) = a.toNat := Int.add_zero _
  rw [displaced, h0, ofInt_toNat]

namespace Target

/-- The layout has a register of some code, and the register block holds all of it. -/
structure Holds (t : Target) (layout : Arch) (code : UInt8) (r : Register) : Prop where
  known : layout.byCode? code.toNat = some r
  inBlock : r.offset + r.size ≤ t.registerBlock.length

end Target

theorem Arch.offset_lt {a : Arch} {r : Register} (h : r ∈ a.registers) : r.offset < 2 ^ 64 := by
  have hall : ∀ r ∈ a.registers, r.offset < 2 ^ 64 := by
    cases a <;> decide
  exact hall r h

theorem Arch.mem_of_byCode {a : Arch} {code : Nat} {r : Register} (h : a.byCode? code = some r) :
    r ∈ a.registers := by
  rw [byCode?] at h
  split at h
  · cases h
  · exact List.mem_of_getElem? h

/-- The code that adds a displacement to the slot on top. -/
def Code.displace (d : Int64) : List UInt8 :=
  emitGroup (emitConst [] d.toUInt64) (.binary .add) .u

theorem Code.append_displace (code : List UInt8) (d : Int64) :
    emitGroup (emitConst code d.toUInt64) (.binary .add) .u = code ++ displace d := by
  simp [displace, emitGroup, emitConst, emitWith]

namespace Machine

variable {m : Machine} {t : Target}

theorem readRegister_of_holds (ht : m.target = some t) {register size : UInt8} {r : Register}
    (h : t.Holds m.layout register r) (hs : 1 ≤ size.toNat ∧ size.toNat ≤ 8)
    (hw : size.toNat ≤ r.size) :
    m.readRegister (registerOperand register size) = .ok (t.window r.offset size.toNat) := by
  have ho := Arch.offset_lt (Arch.mem_of_byCode h.known)
  have hb := h.inBlock
  have hword := t.blockWord?_eq_window hs ho (Nat.le_trans (Nat.add_le_add_left hw _) hb)
  simp only [readRegister, toUInt8_registerOperand, size_registerOperand, offset_registerOperand,
    h.known, UInt16.toNat_zero, Nat.zero_add, Nat.add_zero, if_neg (Nat.not_lt.2 hw), readBlock, ht,
    hword]

variable (m) (rest : List UInt8) (stack : List Slot) (reads : List MemoryRead)

theorem drive_displace (d : Int64) (a : Slot) (hc : stack.length + 2 ≤ m.capacity) :
    m.drive ⟨Code.displace d ++ rest, a :: stack, reads⟩ =
      m.drive ⟨rest, a.displaced d :: stack, reads⟩ := by
  have hcode : Code.displace d =
      Node.encodeConst d.toUInt64 false ++ Code.emitGroup [] (.binary .add) .u := rfl
  have hadd := m.drive_binary rest stack reads (o := .add) (g := .u) rfl a d.toUInt64 (by omega)
  have hroom : (a :: stack).length + 1 ≤ m.capacity := hc
  rw [hcode, List.append_assoc, m.drive_encodeConst _ (a :: stack) reads d.toUInt64 false hroom,
    hadd, resume_ok _ _ _ _ rfl, ← Slot.add_toUInt64]
  simp [Computation.ofResult]

theorem drive_regRead_of_holds (ht : m.target = some t) {register size : UInt8} {r : Register}
    (h : t.Holds m.layout register r) (hs : 1 ≤ size.toNat ∧ size.toNat ≤ 8)
    (hw : size.toNat ≤ r.size) (hc : 1 ≤ m.capacity) :
    m.drive { code := Code.emitRegRead [] register size 0 ++ rest } =
      m.drive ⟨rest, [t.window r.offset size.toNat], []⟩ := by
  rw [m.drive_regRead rest [] [] register size hc, readRegister_of_holds ht h hs hw,
    resume_ok _ _ _ _ rfl]
  rfl

theorem drive_base_of_base (ht : m.target = some t) {base : Base} {a : Slot}
    (ha : t.base base = some a) {offset : Int64} (ho : 0 ≤ offset ∧ offset ≤ 0xffffffff)
    (hc : 1 ≤ m.capacity) :
    m.drive { code := Code.emitWith [] (.base base) offset.toUInt64 ++ rest } =
      m.drive ⟨rest, [a.displaced offset], []⟩ := by
  have hb : m.baseAddress base offset.toUInt64 = .ok (a.displaced offset) := by
    simp only [baseAddress, ht, Option.bind_some, ha, Slot.add_toUInt64]
  rw [m.drive_base rest [] [] base (toNat_baseOffset ho).2 hc, hb, resume_ok _ _ _ _ rfl]
  rfl

theorem execute_of_drive_nil {code : List UInt8} {v : Slot}
    (h : m.drive { code } = m.drive ⟨[], [v], []⟩) : m.execute code = ⟨.ok v, []⟩ :=
  m.execute_eq_outcome (c := pure v) h

/-- The code of a place in the frame computes the frame base plus the offset, whatever the sign
and the size of the offset. -/
theorem execute_frameOffset (ht : m.target = some t) (hc : 2 ≤ m.capacity) {a : Slot}
    (ha : t.base .frame = some a) (offset : Int64) :
    m.execute (DebugInfo.frameOffset offset) = ⟨.ok (a.displaced offset), []⟩ := by
  apply execute_of_drive_nil
  rw [DebugInfo.frameOffset]
  split
  · rename_i ho
    have hd := m.drive_base_of_base [] ht ha ho (by omega)
    rwa [List.append_nil] at hd
  · have hd := m.drive_base_of_base (Code.displace offset) ht ha
      (show (0 : Int64) ≤ 0 ∧ (0 : Int64) ≤ 0xffffffff by decide) (by omega)
    have ho := m.drive_displace [] [] [] offset a hc
    rw [List.append_nil] at ho
    rw [Code.append_displace]
    exact hd.trans (by rw [Slot.displaced_zero, ho])

end Machine

/-- What is read for a symbol is a leaf of its type, and the code of the leaf runs to an outcome. -/
def LeafRuns (m : Machine) (sym : Symbol) (span : Span) (mode : Mode) (o : Outcome)
    (leaf : Except Complaint Expr) : Prop :=
  ∃ code, leaf = .ok (.leaf span sym.name code sym.type mode) ∧ m.execute code = o

namespace Context

variable {c : Context} {sym : Symbol} {t : Target} {n : Nat} {r : Register}

theorem toNat_pointerBytes (c : Context) : c.pointerBytes.toNat = c.arch.pointerSize := by
  rw [pointerBytes]
  cases c.arch <;> rfl

def registerPlace (t : Target) (sym : Symbol) (r : Register) : Slot :=
  (t.window r.offset r.size).displaced sym.offset

theorem drive_registerAddress (h : t.Holds c.arch sym.register r)
    (hw : r.size = c.arch.pointerSize) (hn : 2 ≤ n) (rest : List UInt8) :
    (Machine.mk (some t) c.arch n).drive { code := c.registerAddress sym ++ rest } =
      (Machine.mk (some t) c.arch n).drive ⟨rest, [registerPlace t sym r], []⟩ := by
  have hp := c.toNat_pointerBytes
  have hs := c.arch.pointerSize_bounds
  rw [← hp] at hs hw
  have hread := fun rest => (Machine.mk (some t) c.arch n).drive_regRead_of_holds rest rfl h hs
    (Nat.le_of_eq hw.symm) (Nat.le_of_succ_le hn)
  rw [registerAddress, emitOffset, registerPlace, hw]
  split
  · rename_i hz
    rw [hread, hz, Slot.displaced_zero]
  · rw [Code.append_displace, List.append_assoc, hread,
      Machine.drive_displace _ _ _ _ _ _ (by simpa using hn)]

theorem leafRuns_registerOffset (hl : sym.location = .registerOffset)
    (h : t.Holds c.arch sym.register r) (hw : r.size = c.arch.pointerSize) (hn : 2 ≤ n)
    (span : Span) :
    LeafRuns ⟨some t, c.arch, n⟩ sym span .address ⟨.ok (registerPlace t sym r), []⟩
      (c.localLeaf sym span) := by
  refine ⟨c.registerAddress sym, by rw [localLeaf, hl], ?_⟩
  have hd := drive_registerAddress h hw hn []
  rw [List.append_nil] at hd
  exact Machine.execute_of_drive_nil _ hd

theorem leafRuns_registerOffsetStored (hl : sym.location = .registerOffsetStored)
    (h : t.Holds c.arch sym.register r) (hw : r.size = c.arch.pointerSize) (hn : 2 ≤ n)
    (span : Span) :
    LeafRuns ⟨some t, c.arch, n⟩ sym span .address
      (Target.loadWord (some t) (registerPlace t sym r) c.arch.pointerSize).outcome
      (c.localLeaf sym span) := by
  refine ⟨_, by rw [localLeaf, hl], ?_⟩
  have hs : ¬ (c.pointerBytes < 1 ∨ 8 < c.pointerBytes) := by
    rw [pointerBytes]
    cases c.arch <;> decide
  have hread := (Machine.mk (some t) c.arch n).drive_memRead [] [] [] hs (registerPlace t sym r)
    (by simp; omega)
  rw [List.append_nil, c.toNat_pointerBytes] at hread
  exact Machine.execute_eq_outcome _ ((drive_registerAddress h hw hn _).trans hread)

theorem leafRuns_register {b : BasicKind} (hl : sym.location = .register)
    (hk : (c.types.unwrapEnum sym.type).kind = .basic b) (hb : b.IsWord)
    (h : t.Holds c.arch sym.register r) (hw : b.size.toNat ≤ r.size) (hn : 1 ≤ n) (span : Span) :
    LeafRuns ⟨some t, c.arch, n⟩ sym span .value
      ⟨.ok (.ofInt (b.wrap (t.window r.offset b.size.toNat).toNat)), []⟩
      (c.localLeaf sym span) := by
  refine ⟨c.registerValue sym, by rw [localLeaf, hl], ?_⟩
  have hsize := hb.toNat_size
  have h1 : 1 ≤ b.size.toNat := by
    have h0 := hb.bits_le.1
    rw [BasicKind.bits] at h0
    omega
  have h8 := BasicKind.toNat_size_le hb
  have hdrive (rest : List UInt8) : (Machine.mk (some t) c.arch n).drive
      { code := Code.emitRegRead [] sym.register b.size.toUInt8 0 ++ rest } =
        (Machine.mk (some t) c.arch n).drive ⟨rest, [t.window r.offset b.size.toNat], []⟩ := by
    rw [← hsize] at hw h1 h8 ⊢
    exact Machine.drive_regRead_of_holds _ rest rfl h ⟨h1, h8⟩ hw hn
  rw [← BasicKind.extend_ofInt hb, Slot.ofInt_toNat]
  simp only [registerValue, TypeTable.byteSize_eq hk, if_neg hb.size_bounds, hk]
  apply Machine.execute_eq_outcome _ (c := pure (b.extend (t.window r.offset b.size.toNat)))
  split
  · rename_i hs
    have hnarrow : b.IsNarrow := ⟨hb.1, hs.1⟩
    have hbits : b.size * 8 = (b.size * 8).toUInt8.toUInt64 := by
      cases b <;> revert hb <;> decide
    have htrunc := (Machine.mk (some t) c.arch n).drive_trunc [] [] [] (b.size * 8).toUInt8 true
      (t.window r.offset b.size.toNat) (by simpa using hn)
    rw [List.append_nil, if_pos rfl, if_pos rfl, hnarrow.toNat_bits] at htrunc
    rw [Code.emitWith, hbits, hdrive, htrunc, BasicKind.extend,
      if_pos (show b.isSigned = true from hs.2)]
  · rename_i hs
    have hd := hdrive []
    rw [List.append_nil] at hd
    rw [hd, BasicKind.extend_of_not_signed hb (fun h => hs ⟨h.2, h.1⟩) (t.window_lt r.offset h8)]
    rfl

theorem leafRuns_baseLeaf {base : Base} {a : Slot} (ha : t.base base = some a)
    (ho : 0 ≤ sym.offset ∧ sym.offset ≤ 0xffffffff) (layout : Arch) (hn : 1 ≤ n) (mode : Mode)
    (span : Span) :
    LeafRuns ⟨some t, layout, n⟩ sym span mode ⟨.ok (a.displaced sym.offset), []⟩
      (baseLeaf base mode sym span) := by
  have hrange : ¬ (sym.offset < 0 ∨ 0xffffffff < sym.offset) := by
    rw [not_or, Int64.not_lt, Int64.not_lt]
    exact ho
  refine ⟨_, by rw [baseLeaf, if_neg hrange], ?_⟩
  have hd := (Machine.mk (some t) layout n).drive_base_of_base [] rfl ha ho hn
  rw [List.append_nil] at hd
  exact Machine.execute_of_drive_nil _ hd

end Context

/-- What a name is bound to outside the procedure, with the base its offset counts from: a global,
or else a thread-local, or else a procedure, each looked for from the innermost namespace out. -/
inductive Resolver.BindsOuter (r : Resolver) (name : Text) : Base → Mode → Symbol → Prop
  | global {sym : Symbol}
      (hg : (Namespace.candidates r.procedureName name).findSome? r.globalSymbol? = some sym) :
      BindsOuter r name .image .address sym
  | threadLocal {sym : Symbol}
      (hg : (Namespace.candidates r.procedureName name).findSome? r.globalSymbol? = none)
      (ht : (Namespace.candidates r.procedureName name).findSome? r.threadLocal? = some sym) :
      BindsOuter r name .thread .address sym
  | procedure {sym : Symbol}
      (hg : (Namespace.candidates r.procedureName name).findSome? r.globalSymbol? = none)
      (ht : (Namespace.candidates r.procedureName name).findSome? r.threadLocal? = none)
      (hp : (Namespace.candidates r.procedureName name).findSome? r.procedure? = some sym) :
      BindsOuter r name .image .value sym

theorem Context.outerNamed_eq {r : Resolver} {name : Text} {base : Base} {mode : Mode}
    {sym : Symbol} (h : r.BindsOuter name base mode sym) (span : Span) :
    outerNamed? r name span = some (baseLeaf base mode sym span) := by
  cases h with
  | global hg => simp only [outerNamed?, hg]
  | threadLocal hg ht => simp only [outerNamed?, hg, ht]
  | procedure hg ht hp => simp only [outerNamed?, hg, ht, hp, Option.map_some]

namespace Context

/-- Locations compute what they declare, on a machine with room for an address and a displacement.
A local at a register plus an offset has that sum as its address, or what is stored there; an
integer in a register is the low bytes of the register in the range of its type; a place in the
frame is the frame base plus any offset. A symbol outside the procedure is at its base plus its
offset where the offset has 32 bits, and otherwise information is missing. -/
theorem locations_computed (c : Context) (sym : Symbol) (span : Span) (t : Target) {n : Nat}
    (hn : 2 ≤ n) :
    (∀ r, t.Holds c.arch sym.register r → r.size = c.arch.pointerSize →
      (sym.location = .registerOffset →
        LeafRuns ⟨some t, c.arch, n⟩ sym span .address ⟨.ok (registerPlace t sym r), []⟩
          (c.localLeaf sym span)) ∧
      (sym.location = .registerOffsetStored →
        LeafRuns ⟨some t, c.arch, n⟩ sym span .address
          (Target.loadWord (some t) (registerPlace t sym r) c.arch.pointerSize).outcome
          (c.localLeaf sym span))) ∧
    (∀ r b, t.Holds c.arch sym.register r → sym.location = .register →
      (c.types.unwrapEnum sym.type).kind = .basic b → b.IsWord → b.size.toNat ≤ r.size →
        LeafRuns ⟨some t, c.arch, n⟩ sym span .value
          ⟨.ok (.ofInt (b.wrap (t.window r.offset b.size.toNat).toNat)), []⟩
          (c.localLeaf sym span)) ∧
    (∀ a : Slot, t.base .frame = some a → ∀ offset,
      Machine.execute ⟨some t, c.arch, n⟩ (DebugInfo.frameOffset offset) =
        ⟨.ok (a.displaced offset), []⟩) ∧
    ∀ (r : Resolver) (name : Text) (base : Base) (mode : Mode), r.BindsOuter name base mode sym →
      (0 ≤ sym.offset ∧ sym.offset ≤ 0xffffffff → ∀ a : Slot, t.base base = some a →
        ∃ leaf, outerNamed? r name span = some leaf ∧
          LeafRuns ⟨some t, c.arch, n⟩ sym span mode ⟨.ok (a.displaced sym.offset), []⟩ leaf) ∧
      (¬ (0 ≤ sym.offset ∧ sym.offset ≤ 0xffffffff) →
        ∃ e, outerNamed? r name span = some (.error e) ∧ e.kind = .missingInfo) := by
  refine ⟨fun r h hw => ⟨fun hl => ?_, fun hl => ?_⟩, fun r b h hl hk hb hw => ?_, fun a ha => ?_,
    fun r name base mode hb => ⟨fun ho a ha => ?_, fun ho => ?_⟩⟩
  · exact leafRuns_registerOffset hl h hw hn span
  · exact leafRuns_registerOffsetStored hl h hw hn span
  · exact leafRuns_register hl hk hb h hw (by omega) span
  · exact Machine.execute_frameOffset _ rfl hn ha
  · exact ⟨_, outerNamed_eq hb span, leafRuns_baseLeaf ha ho c.arch (by omega) mode span⟩
  · refine ⟨.offsetOutOfRange sym.name, ?_, rfl⟩
    rw [not_and_or, Int64.not_le, Int64.not_le] at ho
    rw [outerNamed_eq hb, baseLeaf, if_pos ho]

end Context

/-- Memory repeats the low byte of the address, and the register block counts down. -/
def countingTarget : Target where
  memory address size := some (Vector.replicate size address.toUInt8)
  registerBlock := (List.range 72).map fun i => (255 - i).toUInt8
  base _ := some 0x400000

/-- A local of one byte at four bytes below the frame pointer, or in it. -/
def belowFramePointer (location : Location) : Symbol :=
  { name := "x", type := .basic .s8, location, register := 6, offset := -4 }

def oneGlobal (offset : Int64) : Resolver where
  localSymbol? _ := none
  globalSymbol? _ := some { name := "g", offset }
  threadLocal? _ := none
  procedure? _ := none
  procedureName := []

theorem counting_locations_computed :
    2 ≤ 2 ∧ countingTarget.Holds .x86 6 ⟨"ebp", 6, 4, 20⟩ ∧
      LeafRuns ⟨some countingTarget, .x86, 2⟩ (belowFramePointer .registerOffset) ⟨0, 1⟩ .address
        ⟨.ok 0xe8e9eae7, []⟩
        ((Context.bare .x86).localLeaf (belowFramePointer .registerOffset) ⟨0, 1⟩) ∧
      LeafRuns ⟨some countingTarget, .x86, 2⟩ (belowFramePointer .registerOffsetStored) ⟨0, 1⟩
        .address ⟨.ok 0xe7e7e7e7, [{ address := 0xe8e9eae7, size := 4 }]⟩
        ((Context.bare .x86).localLeaf (belowFramePointer .registerOffsetStored) ⟨0, 1⟩) ∧
      LeafRuns ⟨some countingTarget, .x86, 2⟩ (belowFramePointer .register) ⟨0, 1⟩ .value
        ⟨.ok 0xffffffffffffffeb, []⟩
        ((Context.bare .x86).localLeaf (belowFramePointer .register) ⟨0, 1⟩) ∧
      Machine.execute ⟨some countingTarget, .x86, 2⟩ (DebugInfo.frameOffset (-8)) =
        ⟨.ok 0x3ffff8, []⟩ ∧
      (∃ leaf, Context.outerNamed? (oneGlobal 0x1234) "g" ⟨0, 1⟩ = some leaf ∧
        LeafRuns ⟨some countingTarget, .x86, 2⟩ { name := "g", offset := 0x1234 } ⟨0, 1⟩ .address
          ⟨.ok 0x401234, []⟩ leaf) ∧
      ∃ e, Context.outerNamed? (oneGlobal (-1)) "g" ⟨0, 1⟩ = some (.error e) ∧
        e.kind = .missingInfo := by
  have hebp : countingTarget.Holds .x86 6 ⟨"ebp", 6, 4, 20⟩ := ⟨by decide, by decide⟩
  have hbase : countingTarget.base .frame = some 0x400000 := rfl
  have hword : (Target.loadWord (some countingTarget) (Context.registerPlace countingTarget
      (belowFramePointer .registerOffsetStored) ⟨"ebp", 6, 4, 20⟩) 4).outcome =
        ⟨.ok 0xe7e7e7e7, [{ address := 0xe8e9eae7, size := 4 }]⟩ := by with_unfolding_all rfl
  have hvalue : Slot.ofInt (BasicKind.s8.wrap (countingTarget.window 20 1).toNat) =
      0xffffffffffffffeb := by decide
  have hn := Nat.le_refl 2
  obtain ⟨haddress, -⟩ := Context.locations_computed (.bare .x86)
    (belowFramePointer .registerOffset) ⟨0, 1⟩ countingTarget hn
  obtain ⟨hstored, -⟩ := Context.locations_computed (.bare .x86)
    (belowFramePointer .registerOffsetStored) ⟨0, 1⟩ countingTarget hn
  obtain ⟨-, hregister, hframe, -⟩ := Context.locations_computed (.bare .x86)
    (belowFramePointer .register) ⟨0, 1⟩ countingTarget hn
  obtain ⟨-, -, -, hglobal⟩ := Context.locations_computed (.bare .x86)
    { name := "g", offset := 0x1234 } ⟨0, 1⟩ countingTarget hn
  obtain ⟨-, -, -, hbelow⟩ := Context.locations_computed (.bare .x86)
    { name := "g", offset := -1 } ⟨0, 1⟩ countingTarget hn
  refine ⟨hn, hebp, (haddress _ hebp rfl).1 rfl, ?_, ?_, hframe _ hbase (-8), ?_, ?_⟩
  · rw [← hword]
    exact (hstored _ hebp rfl).2 rfl
  · rw [← hvalue]
    exact hregister ⟨"ebp", 6, 4, 20⟩ .s8 hebp rfl rfl (by decide) (by decide)
  · exact (hglobal (oneGlobal 0x1234) "g" .image .address (.global rfl)).1 (by decide) 0x400000 rfl
  · exact (hbelow (oneGlobal (-1)) "g" .image .address (.global rfl)).2 (by decide)

end WatchExpr
