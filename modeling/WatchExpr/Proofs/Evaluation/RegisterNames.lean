import WatchExpr.Debug.Info
import WatchExpr.Evaluation.Session
import WatchExpr.Proofs.Expression.Reading
import WatchExpr.Proofs.Lexical.Spacing
import WatchExpr.Proofs.Lowering.Recompilation
import WatchExpr.Proofs.Lowering.ValueCode
import WatchExpr.Proofs.Machine.Locations

namespace WatchExpr

/-- The bytes of the register block that have a name on an architecture. -/
inductive Arch.Names (a : Arch) : (name : Text) → (offset size : Nat) → Prop
  | register {r : Register} (h : r ∈ a.registers) : Names a r.name r.offset r.size
  | part {r : RegisterAlias} (h : r ∈ a.aliases) : Names a r.name r.offset r.size

namespace Arch

/-- What a name and its bytes have to be for the name to be read: one word that is no operator and
no sign of a type, a size that an integer type has, and a cell inside the block. -/
structure Readable (a : Arch) (name : Text) (offset size : Nat) : Prop where
  stands : Lexer.Stands .identifier name
  starts : name.head?.any Lexer.isIdentifierStart = true
  word : name ∉ (["sizeof", "signed", "unsigned"] : List Text)
  sized : size ∈ [1, 2, 4, 8]
  inCell : size ≤ a.pointerSize
  inBlock : offset + a.pointerSize ≤ a.blockSize

instance (a : Arch) (name : Text) (offset size : Nat) : Decidable (a.Readable name offset size) :=
  decidable_of_iff
    (Lexer.Stands .identifier name ∧ name.head?.any Lexer.isIdentifierStart = true ∧
      ¬ (["sizeof", "signed", "unsigned"] : List Text).contains name ∧ size ∈ [1, 2, 4, 8] ∧
      size ≤ a.pointerSize ∧ offset + a.pointerSize ≤ a.blockSize)
    ⟨fun ⟨h1, h2, h3, h4, h5, h6⟩ => ⟨h1, h2, mt List.contains_iff_mem.2 h3, h4, h5, h6⟩,
      fun ⟨h1, h2, h3, h4, h5, h6⟩ => ⟨h1, h2, mt List.contains_iff_mem.1 h3, h4, h5, h6⟩⟩

variable {a : Arch} {name : Text} {offset size : Nat}

theorem registers_readable (a : Arch) :
    ∀ r ∈ a.registers, a.register? r.name = some r ∧ a.Readable r.name r.offset r.size := by
  cases a <;> decide +kernel

theorem aliases_readable (a : Arch) :
    ∀ r ∈ a.aliases, a.register? r.name = Option.none ∧ a.alias? r.name = some r ∧
      a.Readable r.name r.offset r.size := by
  cases a <;> decide +kernel

theorem Names.readable (h : a.Names name offset size) : a.Readable name offset size := by
  cases h with
  | register h => exact (a.registers_readable _ h).2
  | part h => exact (a.aliases_readable _ h).2.2

end Arch

namespace TypeTable

/-- The tree that reads a register cell and narrows it to a kind. -/
def registerRead (t : TypeTable) (offset : Nat) (b : BasicKind) : Node :=
  t.truncateTo (.register (.splice (Code.emitConst [] offset.toUInt64))) (.basic b)

theorem load_register (t : TypeTable) (offset : Nat) {b : BasicKind} (hb : b.IsWord) :
    t.load ⟨.splice (Code.emitConst [] offset.toUInt64), .basic b, .register⟩ =
      (some ⟨t.registerRead offset b, .basic b, .value⟩, t) := by
  have hu : t.unwrap (.basic b) = .basic b := unwrapWithin_of_not_transparent rfl _
  have hsize : t.byteSize (.basic b) = b.size := byteSize_eq (t.kind_unwrapEnum rfl)
  simp only [load, hu, hsize, if_neg hb.size_bounds, registerRead]

variable (t : TypeTable) (offset : Nat) (b : BasicKind)

theorem need_registerRead : (t.registerRead offset b).need = 1 := by
  have hroom := Fragment.room_const offset.toUInt64
  rw [registerRead, truncateTo]
  split
  · simpa [Node.need] using hroom
  · simpa [Node.need] using hroom

theorem wellFormed_registerRead : (t.registerRead offset b).WellFormed := by
  have hc : Fragment.SelfContained (Code.emitConst [] offset.toUInt64) :=
    (Fragment.harmless_const _ _).selfContained
  rw [registerRead, truncateTo]
  split
  · exact hc
  · exact hc

variable {t offset b}

/-- A cell inside the block is read and cut back to the bytes of the kind. -/
theorem eval_registerRead {layout : Arch} {target : Target}
    (hb : b ∈ [BasicKind.u8, .u16, .u32, .u64]) (hcell : b.size.toNat ≤ layout.pointerSize)
    (hblock : offset + layout.pointerSize ≤ layout.blockSize)
    (ht : target.registerBlock.length = layout.blockSize) :
    (t.registerRead offset b).eval (some target) layout [] =
      pure (target.window offset b.size.toNat) := by
  have hp := layout.pointerSize_bounds
  obtain ⟨hw, hs⟩ := BasicKind.isWord_of_register hb
  have hword : Target.blockWord? target.registerBlock offset.toUInt64 layout.pointerSize =
      some (target.window offset layout.pointerSize) := by
    have hsize : layout.blockSize < 2 ^ 64 := by
      cases layout <;> decide
    exact Target.blockWord?_eq_window hp (by omega) (by omega)
  rw [registerRead, eval_truncateTo (t.kind_unwrapEnum rfl) hw, Node.eval, Node.eval,
    Fragment.value_const, pure_bind, Target.loadBlock, Option.bind_some, hword]
  simp only [pure_bind, BasicKind.extend, hs, Bool.false_eq_true, if_false, BasicKind.bits,
    target.truncate_window offset hcell hp.2]

end TypeTable

namespace Context

variable {c : Context} {name : Text} {offset size : Nat}

theorem registerNamed_eq (h : c.arch.Names name offset size) (span : Span) :
    c.registerNamed? name span = some (registerLeaf name span offset size) := by
  cases h with
  | register h =>
    obtain ⟨hr, -⟩ := c.arch.registers_readable _ h
    simp only [registerNamed?, hr]
  | part h =>
    obtain ⟨hr, ha, -⟩ := c.arch.aliases_readable _ h
    simp only [registerNamed?, hr, ha, Option.map_some]

/-- Neither a member of `this` nor a local has a name. -/
def Free (c : Context) (name : Text) : Prop :=
  ∀ r, c.resolver = some r →
    r.localSymbol? name = none ∧ ∀ span, c.memberOfThis? r name span = none

theorem resolve_of_names (h : c.arch.Names name offset size) (hf : c.Free name) (span : Span) :
    c.resolve name span = registerLeaf name span offset size := by
  have hbound : c.bound? name span = some (registerLeaf name span offset size) := by
    rw [bound?, registerNamed_eq h, Option.some_or]
    cases hc : c.resolver with
    | none => rfl
    | some r =>
      obtain ⟨hl, hm⟩ := hf r hc
      rw [Option.bind_some, hm, hl]
      rfl
  rw [resolve_eq_getD, hbound, Option.getD_some]

theorem registerLeaf_eq (h : size ∈ [1, 2, 4, 8]) (name : Text) (offset : Nat) (span : Span) :
    ∃ b ∈ [BasicKind.u8, .u16, .u32, .u64], b.size.toNat = size ∧
      registerLeaf name span offset size =
        .ok (.leaf span name (Code.emitConst [] offset.toUInt64) (.basic b) .register) := by
  simp only [List.mem_cons, List.not_mem_nil, or_false] at h
  rcases h with rfl | rfl | rfl | rfl
  · exact ⟨.u8, by decide, rfl, rfl⟩
  · exact ⟨.u16, by decide, rfl, rfl⟩
  · exact ⟨.u32, by decide, rfl, rfl⟩
  · exact ⟨.u64, by decide, rfl, rfl⟩

/-- A free name of some bytes of the register block is compiled to a read of them. -/
theorem compile_register (h : c.arch.Names name offset size) (hf : c.Free name) :
    ∃ b ∈ [BasicKind.u8, .u16, .u32, .u64], b.size.toNat = size ∧
      (compile c name).1.diagnostics = [] ∧ ∃ valueCode,
        (c.types.registerRead offset b).encode = .ok valueCode ∧
        (compile c name).1.valueCode = some valueCode := by
  obtain ⟨hstands, hstarts, hword, hsized, -, -⟩ := h.readable
  have hscan : Lexer.scan name = [⟨.identifier, name, 0⟩] := by
    have hs := Lexer.scanFrom_stands Lexer.gap_nil hstands 0
    rwa [List.append_nil, Lexer.scanFrom] at hs
  obtain ⟨b, hb, hsize, hleaf⟩ := registerLeaf_eq hsized name offset
    (Token.span ⟨.identifier, name, 0⟩)
  have hparse := Parser.parse_word name ⟨.identifier, name, 0⟩ rfl hstarts hword
    ((resolve_of_names h hf _).trans hleaf)
  rw [← hscan] at hparse
  have hlower :
      (Lowering.lower (Parser.parse c name (Lexer.scan name)).1).run { types := c.types } =
        (some ⟨.splice (Code.emitConst [] offset.toUInt64), .basic b, .register⟩,
          { types := c.types }) := by
    rw [hparse, Lowering.lower, Lowering.lowerLeaf, Fragment.validate_const]
    rfl
  have hcode : (Node.splice (Code.emitConst [] offset.toUInt64)).encode =
      .ok (Code.emitConst [] offset.toUInt64) := by
    simp only [Node.encode_eq, Node.emit, Fragment.validate_const, Except.bind]
  have hload := c.types.load_register offset (BasicKind.isWord_of_register hb).1
  obtain ⟨valueCode, hv⟩ := TypeTable.encode_load hload hcode
  have hcompile := compile_eq_of_lower (congrArg Prod.snd hparse) hlower rfl hcode hload
  refine ⟨b, hb, hsize, ?_, valueCode, hv, ?_⟩
  · rw [hcompile]
  · rw [hcompile, Option.bind_some, hv]
    rfl

end Context

theorem Target.window_congr {t t' : Target} {offset size : Nat}
    (h : ∀ i, offset ≤ i → i < offset + size → t'.registerBlock[i]? = t.registerBlock[i]?) :
    t'.window offset size = t.window offset size := by
  rw [window, window]
  congr 1
  apply List.ext_getElem?
  intro i
  rw [List.getElem?_take, List.getElem?_take]
  split
  · rw [List.getElem?_drop, List.getElem?_drop, h (offset + i) (by omega) (by omega)]
  · rfl

/-- Register names read their own bytes. A free name of a register or of a part of one evaluates to
the little-endian number in the bytes it names, all of which are in the block, without reading
memory; no other byte of the block matters. -/
theorem evaluate_register {c : Context} {name : Text} {offset size : Nat}
    (h : c.arch.Names name offset size) (hf : c.Free name) {t : Target}
    (ht : t.registerBlock.length = c.arch.blockSize) {n : Nat} (hn : 1 ≤ n) :
    offset + size ≤ c.arch.blockSize ∧
    (evaluate c ⟨some t, c.arch, n⟩ name).1.outcome = some ⟨.ok (t.window offset size), []⟩ ∧
    (evaluate c ⟨some t, c.arch, n⟩ name).1.value = .ok (t.window offset size) ∧
    ∀ t' : Target, t'.registerBlock.length = c.arch.blockSize →
      (∀ i, offset ≤ i → i < offset + size → t'.registerBlock[i]? = t.registerBlock[i]?) →
        (evaluate c ⟨some t', c.arch, n⟩ name).1.value =
          (evaluate c ⟨some t, c.arch, n⟩ name).1.value := by
  obtain ⟨-, -, -, -, hcell, hblock⟩ := h.readable
  obtain ⟨b, hb, rfl, hd, valueCode, hv, hcode⟩ := Context.compile_register h hf
  have hany : Diagnostic.anyError (compile c name).1.diagnostics = false := by
    rw [hd]
    rfl
  have hneed : (c.types.registerRead offset b).need ≤ n := by rwa [c.types.need_registerRead]
  have hrun {t : Target} (ht : t.registerBlock.length = c.arch.blockSize) :
      (evaluate c ⟨some t, c.arch, n⟩ name).1 =
        ⟨(compile c name).1, some ⟨.ok (t.window offset b.size.toNat), []⟩⟩ := by
    have hx := Node.execute_emit ⟨some t, c.arch, n⟩ (c.types.wellFormed_registerRead offset b)
      (Node.emit_of_encode hv) hneed
    rw [TypeTable.eval_registerRead hb hcell hblock ht] at hx
    simp only [evaluate, Compiled.run, hany, Bool.false_eq_true, if_false, hcode, Option.map_some,
      hx]
    rfl
  have hvalue {t : Target} (ht : t.registerBlock.length = c.arch.blockSize) :
      (evaluate c ⟨some t, c.arch, n⟩ name).1.value = .ok (t.window offset b.size.toNat) := by
    simp only [hrun ht, Evaluation.value, hany, Bool.false_eq_true, if_false, Except.mapError]
  refine ⟨by omega, by rw [hrun ht], hvalue ht, fun t' ht' hsame => ?_⟩
  rw [hvalue ht', hvalue ht, Target.window_congr hsame]

def oneLocal : DebugScope :=
  { arch := .x64
    types := .empty 8
    locals := [("x", { name := "x", type := .basic .s32, location := .register, register := 1 })] }

def positionTarget : Target where
  memory _ _ := none
  registerBlock := (List.range 208).map Nat.toUInt8
  base _ := none

theorem evaluate_r8w :
    Arch.x64.Names "r8w" 64 2 ∧ oneLocal.context.Free "r8w" ∧
      positionTarget.registerBlock.length = Arch.x64.blockSize ∧
      (evaluate oneLocal.context ⟨some positionTarget, .x64, 1⟩ "r8w").1.outcome =
        some ⟨.ok 0x4140, []⟩ := by
  have hnames : Arch.x64.Names "r8w" 64 2 :=
    .part (r := ⟨"r8w", 9, 0, 2, 64⟩) (by decide +kernel)
  have hfree : oneLocal.context.Free "r8w" := by
    rintro r ⟨⟩
    exact ⟨by decide +kernel, fun _ => rfl⟩
  have hlength : positionTarget.registerBlock.length = Arch.x64.blockSize := by decide +kernel
  obtain ⟨-, hrun, -⟩ := evaluate_register (c := oneLocal.context) hnames hfree hlength
    (Nat.le_refl 1)
  exact ⟨hnames, hfree, hlength, hrun⟩

end WatchExpr
