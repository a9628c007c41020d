import WatchExpr.Proofs.Expression.Atoms
import WatchExpr.Proofs.Expression.Binding
import WatchExpr.Proofs.Machine.Fragment

namespace WatchExpr

namespace Context

/-- The code, type and mode that a name can be bound to. -/
inductive Leaf (c : Context) : List UInt8 → TypeKey → Mode → Prop
  | addressCode {r : Resolver} {name : Text} {sym : Symbol} (hr : c.resolver = some r)
      (hs : r.localSymbol? name = some sym) (hl : sym.location = .addressCode) :
      Leaf c sym.code sym.type .address
  | valueCode {r : Resolver} {name : Text} {sym : Symbol} (hr : c.resolver = some r)
      (hs : r.localSymbol? name = some sym) (hl : sym.location = .valueCode) :
      Leaf c sym.code sym.type .value
  | registerOffset {r : Resolver} {name : Text} {sym : Symbol} (hr : c.resolver = some r)
      (hs : r.localSymbol? name = some sym) (hl : sym.location = .registerOffset) :
      Leaf c (c.registerAddress sym) sym.type .address
  | registerOffsetStored {sym : Symbol} :
      Leaf c (Code.emitWith (c.registerAddress sym) .memRead c.pointerBytes.toUInt64) sym.type
        .address
  | register {r : Resolver} {name : Text} {sym : Symbol} (hr : c.resolver = some r)
      (hs : r.localSymbol? name = some sym) (hl : sym.location = .register) :
      Leaf c (c.registerValue sym) sym.type .value
  | registerPart {b : BasicKind} {offset : UInt64} (hb : b ∈ [.u8, .u16, .u32, .u64]) :
      Leaf c (Code.emitConst [] offset) (.basic b) .register
  | globalSymbol {r : Resolver} {name : Text} {sym : Symbol} (hr : c.resolver = some r)
      (hs : r.globalSymbol? name = some sym) (ho : 0 ≤ sym.offset ∧ sym.offset ≤ 0xffffffff) :
      Leaf c (Code.emitWith [] (.base .image) sym.offset.toUInt64) sym.type .address
  | threadLocal {r : Resolver} {name : Text} {sym : Symbol} (hr : c.resolver = some r)
      (hs : r.threadLocal? name = some sym) (ho : 0 ≤ sym.offset ∧ sym.offset ≤ 0xffffffff) :
      Leaf c (Code.emitWith [] (.base .thread) sym.offset.toUInt64) sym.type .address
  | procedure {r : Resolver} {name : Text} {sym : Symbol} (hr : c.resolver = some r)
      (hs : r.procedure? name = some sym) (ho : 0 ≤ sym.offset ∧ sym.offset ≤ 0xffffffff) :
      Leaf c (Code.emitWith [] (.base .image) sym.offset.toUInt64) sym.type .value

/-- The atoms that occur in expressions: numbers, sign-extended characters and bound names. -/
def Atom (c : Context) : Expr → Prop
  | .leaf _ _ code type mode => c.Leaf code type mode
  | .int _ v true => ∃ b : UInt8, v = Slot.signExtend 8 b.toUInt64
  | _ => True

variable {c : Context} {span : Span} {e : Expr}

theorem atoms_localLeaf {r : Resolver} {name : Text} {sym : Symbol} (hr : c.resolver = some r)
    (hs : r.localSymbol? name = some sym) (h : c.localLeaf sym span = .ok e) : e.Atoms c.Atom := by
  simp only [localLeaf] at h
  split at h
  · rename_i hl
    cases h
    exact .addressCode hr hs hl
  · rename_i hl
    cases h
    exact .valueCode hr hs hl
  · rename_i hl
    cases h
    exact .registerOffset hr hs hl
  · cases h
    exact .registerOffsetStored
  · rename_i hl
    cases h
    exact .register hr hs hl
  · cases h
  · cases h

theorem atoms_registerLeaf {name : Text} {offset size : Nat}
    (h : registerLeaf name span offset size = .ok e) : e.Atoms c.Atom := by
  simp only [registerLeaf] at h
  split at h
  · cases h
    exact .registerPart (by decide)
  · cases h
    exact .registerPart (by decide)
  · cases h
    exact .registerPart (by decide)
  · cases h
    exact .registerPart (by decide)
  · cases h

theorem baseLeaf_eq_ok {base : Base} {mode : Mode} {sym : Symbol}
    (h : baseLeaf base mode sym span = .ok e) :
    e = .leaf span sym.name (Code.emitWith [] (.base base) sym.offset.toUInt64) sym.type mode ∧
      0 ≤ sym.offset ∧ sym.offset ≤ 0xffffffff := by
  simp only [baseLeaf] at h
  split at h <;> cases h
  rename_i ho
  rw [not_or, Int64.not_lt, Int64.not_lt] at ho
  exact ⟨rfl, ho⟩

theorem Binds.atoms {name : Text} {b : Binding} (hb : c.Binds name b)
    (h : b.read c name span = .ok e) : e.Atoms c.Atom := by
  cases hb with
  | localSymbol hr hs => exact atoms_localLeaf hr hs h
  | @memberOfThis _ this hr hs =>
    simp only [Binding.read] at h
    cases hl : c.localLeaf this span with
    | error d => rw [hl] at h; cases h
    | ok leaf =>
      have ha := atoms_localLeaf hr hs hl
      rw [hl] at h
      cases h
      exact ha
  | register => exact atoms_registerLeaf h
  | globalSymbol hr hs =>
    obtain ⟨rfl, ho⟩ := baseLeaf_eq_ok h
    exact .globalSymbol hr hs ho
  | threadLocal hr hs =>
    obtain ⟨rfl, ho⟩ := baseLeaf_eq_ok h
    exact .threadLocal hr hs ho
  | procedure hr hs =>
    obtain ⟨rfl, ho⟩ := baseLeaf_eq_ok h
    exact .procedure hr hs ho
  | type =>
    cases h
    trivial
  | unknown => cases h

theorem atoms_resolve {name : Text} (h : c.resolve name span = .ok e) : e.Atoms c.Atom := by
  obtain ⟨b, hb, hread⟩ := c.exists_binding name
  exact hb.atoms ((hread span).symm.trans h)

end Context

theorem Expr.Atoms.mono {P Q : Expr → Prop} (hPQ : ∀ e, P e → Q e) {e : Expr} (h : e.Atoms P) :
    e.Atoms Q := by
  induction e with
  | missing => trivial
  | float => trivial
  | type => trivial
  | int => exact hPQ _ h
  | leaf => exact hPQ _ h
  | unary _ _ x ih => exact ih h
  | cast _ _ x ih => exact ih h
  | sizeof _ x ih => exact ih h
  | member _ x _ _ ih => exact ih h
  | addressOf _ x ih => exact ih h
  | deref _ x ih => exact ih h
  | binary _ _ x y ihx ihy => exact ⟨ihx h.1, ihy h.2⟩
  | index _ x y ihx ihy => exact ⟨ihx h.1, ihy h.2⟩
  | ternary _ c yes no ihc ihyes ihno => exact ⟨ihc h.1, ihyes h.2.1, ihno h.2.2⟩

theorem Parser.atoms_parse_context (c : Context) (text : Text) (tokens : List Token) :
    (parse c text tokens).1.Atoms c.Atom :=
  atoms_parse (atoms_readToken (fun _ _ => trivial) (fun _ b => ⟨b, rfl⟩)
    fun _ _ _ => Context.atoms_resolve) tokens

namespace Context

variable {c : Context}

/-- The code symbols of a context are self-contained. -/
def SelfContained (c : Context) : Prop :=
  ∀ r name sym, c.resolver = some r → r.localSymbol? name = some sym →
    sym.location = .addressCode ∨ sym.location = .valueCode → Fragment.SelfContained sym.code

/-- The code symbols of a context are self-contained and never go wrong when run on their own. -/
def Harmless (c : Context) : Prop :=
  ∀ r name sym, c.resolver = some r → r.localSymbol? name = some sym →
    sym.location = .addressCode ∨ sym.location = .valueCode →
      Fragment.SelfContained sym.code ∧
        ∀ (m : Machine) (f : Fault), (m.execute sym.code).status = .failed f → ¬ f.IsDefect

theorem harmless_registerAddress (c : Context) (sym : Symbol) :
    Fragment.Harmless (c.registerAddress sym) := by
  rw [registerAddress, emitOffset]
  split
  · exact Fragment.harmless_regRead _
  · exact (Fragment.harmless_regRead _).append_add _ _

theorem harmless_registerValue (c : Context) (sym : Symbol) :
    Fragment.Harmless (c.registerValue sym) := by
  simp only [registerValue]
  generalize (if c.types.byteSize sym.type = 0 ∨ 8 < c.types.byteSize sym.type then
    c.pointerBytes.toUInt64 else c.types.byteSize sym.type) = size
  split
  · exact (Fragment.harmless_regRead _).append_truncSigned _
  · exact Fragment.harmless_regRead _

/-- Code made for a location never goes wrong, so only the symbols' own code matters. -/
theorem Leaf.computes {F : Fault → Prop} (hF : ∀ f : Fault, ¬ f.IsDefect → F f)
    (hc : ∀ r name sym, c.resolver = some r → r.localSymbol? name = some sym →
      sym.location = .addressCode ∨ sym.location = .valueCode → Fragment.Computes F sym.code)
    {code : List UInt8} {type : TypeKey} {mode : Mode} (h : c.Leaf code type mode) :
    Fragment.Computes F code := by
  cases h with
  | addressCode hr hs hl => exact hc _ _ _ hr hs (.inl hl)
  | valueCode hr hs hl => exact hc _ _ _ hr hs (.inr hl)
  | registerOffset => exact (harmless_registerAddress c _).mono hF
  | registerOffsetStored =>
    have hp : 1 ≤ c.pointerBytes.toUInt64.toNat ∧ c.pointerBytes.toUInt64.toNat ≤ 8 := by
      rw [pointerBytes]
      cases c.arch <;> decide
    exact ((harmless_registerAddress c _).append_memRead hp).mono hF
  | register => exact (harmless_registerValue c _).mono hF
  | registerPart => exact (Fragment.harmless_const _ _).mono hF
  | globalSymbol => exact (Fragment.harmless_base _ _).mono hF
  | threadLocal => exact (Fragment.harmless_base _ _).mono hF
  | procedure => exact (Fragment.harmless_base _ _).mono hF

end Context

end WatchExpr
