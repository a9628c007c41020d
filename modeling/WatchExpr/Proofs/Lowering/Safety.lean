import WatchExpr.Lowering.Compile
import WatchExpr.Proofs.Lowering.Built

namespace WatchExpr

def Context.tree (c : Context) (text : Text) : Expr := (Parser.parse c text (Lexer.scan text)).1

variable {c : Context} {text : Text} {code : List UInt8}

theorem lowers_of_code (h : (compile c text).1.code = some code) :
    ∃ r t, Lowering.Lowers c.types (c.tree text) r t ∧ r.node.encode = .ok code := by
  simp only [compile] at h
  obtain ⟨⟨lowered, s⟩, hr⟩ :
      ∃ out, (Lowering.lower (c.tree text)).run { types := c.types } = out := ⟨_, rfl⟩
  rw [Context.tree] at hr
  simp only [hr] at h
  cases lowered with
  | none => cases h
  | some r =>
    refine ⟨r, s.types, Lowering.lowers_of_run hr, ?_⟩
    simp only at h
    split at h
    · cases h
    · split at h
      · cases h
      · rename_i hcr
        split at h
        · cases h
          exact hcr
        · split at h <;> cases h <;> exact hcr

theorem lowers_of_valueCode (h : (compile c text).1.valueCode = some code) :
    ∃ r v t, Lowering.Lowers c.types (c.tree text) r t ∧
      t.load r = (some v, (compile c text).2) ∧ v.node.encode = .ok code ∧
        (compile c text).1.type = r.type := by
  simp only [compile] at h ⊢
  obtain ⟨⟨lowered, s⟩, hr⟩ :
      ∃ out, (Lowering.lower (c.tree text)).run { types := c.types } = out := ⟨_, rfl⟩
  rw [Context.tree] at hr
  simp only [hr] at h ⊢
  cases lowered with
  | none => cases h
  | some r =>
    simp only at h
    split at h
    · cases h
    · rename_i hd
      split at h
      · cases h
      · rename_i hcr
        split at h
        · cases h
        · rename_i v types hv
          split at h
          · rename_i hcv
            cases h
            refine ⟨r, v, s.types, Lowering.lowers_of_run hr, ?_⟩
            simp only [hd, hcr, hv, hcv, Bool.false_eq_true, if_false, true_and]
            rfl
          · cases h

/-- A run with too little room overflows; every other run ends as one with room enough does. -/
theorem Machine.execute_cases (m : Machine) (code : List UInt8) {n : Nat} (hn : m.capacity ≤ n) :
    (m.execute code).status = .failed .insufficientStackSpace ∨
      m.execute code = ({ m with capacity := n } : Machine).execute code := by
  simp only [execute, run_eq_drive]
  by_cases h : ∃ reads, m.drive { code } = .fault .insufficientStackSpace reads
  · obtain ⟨reads, h⟩ := h
    rw [h]
    exact .inl rfl
  · rw [drive_capacity hn (fun reads hr => h ⟨reads, hr⟩)]
    exact .inr rfl

/-- A run that ends well ends with the value of the tree. -/
theorem Node.result_of_execute {n : Node} (hw : n.WellFormed) (he : n.emit = .ok code) (m : Machine)
    {v : Slot} (hv : (m.execute code).result = .ok v) :
    (n.eval m.target m.layout []).result = .ok v := by
  obtain hs | hs := m.execute_cases code (Nat.le_max_left m.capacity n.need)
  · rw [Outcome.status, hv] at hs
    cases hs
  · rw [hs, execute_emit _ hw he (Nat.le_max_right _ _)] at hv
    exact hv

theorem Node.Built.execute_fault {n : Node} (h : n.Built Fragment.Harmless)
    (he : n.emit = .ok code) (m : Machine) {f : Fault} (hf : (m.execute code).status = .failed f) :
    ¬ f.IsDefect := by
  obtain hs | hs := m.execute_cases code (Nat.le_max_left m.capacity n.need)
  · rw [hf] at hs
    cases hs
    decide
  · have hw : n.WellFormed := h.wellFormed fun _ hc => hc.selfContained
    rw [hs, execute_emit _ hw he (Nat.le_max_right _ _)] at hf
    simp only [Computation.outcome, Outcome.status] at hf
    split at hf
    · cases hf
    · rename_i g hg
      cases hf
      exact h.fault (fun _ hd => hd) he hg

/-- The fragments in the tree of a text compute values as the code of the symbols does. -/
theorem Context.fragments {F : Fault → Prop} (hF : ∀ f : Fault, ¬ f.IsDefect → F f)
    (hc : ∀ r name sym, c.resolver = some r → r.localSymbol? name = some sym →
      sym.location = .addressCode ∨ sym.location = .valueCode → Fragment.Computes F sym.code)
    (text : Text) : (c.tree text).Atoms (Lowering.FragmentHas (Fragment.Computes F)) := by
  apply Expr.Atoms.mono _ (Parser.atoms_parse_context c text _)
  intro e he
  cases e with
  | leaf s name code type mode => exact Leaf.computes hF hc he
  | _ => trivial

theorem Context.Harmless.fragments (hc : c.Harmless) (text : Text) :
    (c.tree text).Atoms (Lowering.FragmentHas Fragment.Harmless) := by
  apply Context.fragments (fun _ hd => hd)
  intro r name sym hr hs hl
  obtain ⟨hself, hrun⟩ := hc r name sym hr hs hl
  exact hself.harmless hrun

/-- Neither the code nor the value code of a text ever ends in a fault of code that is not well
formed. A size that runs in a circle counts as 0 (`TypeTable.byteSize`). -/
theorem compile_not_defective (hc : c.Harmless)
    (h : (compile c text).1.code = some code ∨ (compile c text).1.valueCode = some code)
    (m : Machine) {f : Fault} (hf : (m.execute code).status = .failed f) : ¬ f.IsDefect := by
  obtain h | h := h
  · obtain ⟨r, t, hl, he⟩ := lowers_of_code h
    exact (hl.built (hc.fragments text)).execute_fault (Node.emit_of_encode he) m hf
  · obtain ⟨r, v, t, hl, hv, he, -⟩ := lowers_of_valueCode h
    have hb := TypeTable.built_load (hl.built (hc.fragments text)) hv
    exact hb.execute_fault (Node.emit_of_encode he) m hf

/-- Two locals with code: a number in the frame and an address in the image. -/
def frameResolver : Resolver where
  localSymbol? name :=
    if name = ("x" : Text) then
      some { name, type := .basic .s32, location := .addressCode,
             code := Instruction.encode ⟨.base .frame, 8⟩ }
    else if name = ("y" : Text) then
      some { name, type := .basic .u64, location := .valueCode,
             code := Instruction.encode ⟨.base .image, 0x1000⟩ }
    else none
  globalSymbol? _ := none
  threadLocal? _ := none
  procedure? _ := none
  procedureName := []

def frameContext : Context := { types := .empty 8, resolver := some frameResolver, arch := .x64 }

theorem harmless_frameContext : frameContext.Harmless := by
  intro r name sym hr hs hl
  have hsym : ∃ b offset, sym.code = Instruction.encode ⟨.base b, offset⟩ := by
    cases hr
    simp only [frameResolver] at hs
    split at hs
    · cases hs
      exact ⟨_, _, rfl⟩
    · split at hs <;> cases hs
      exact ⟨_, _, rfl⟩
  obtain ⟨b, offset, hcode⟩ := hsym
  have hb := Fragment.harmless_base b offset
  rw [hcode]
  exact ⟨hb.selfContained, fun m f => hb.execute_fault⟩

def zeroTarget : Target where
  memory _ size := some (Vector.replicate size 0)
  registerBlock := []
  base _ := some 0x4000

theorem compile_division_not_defective :
    frameContext.Harmless ∧
      (compile frameContext "y / x").1.valueCode =
        some [8, 0, 16, 0, 0, 7, 8, 0, 0, 0, 4, 4, 37, 32, 21, 1] ∧
      (Machine.execute ⟨some zeroTarget, .none, 2⟩
        [8, 0, 16, 0, 0, 7, 8, 0, 0, 0, 4, 4, 37, 32, 21, 1]).status = .failed .divideByZero ∧
      ¬ Fault.divideByZero.IsDefect := by
  have hv : (compile frameContext "y / x").1.valueCode =
      some [8, 0, 16, 0, 0, 7, 8, 0, 0, 0, 4, 4, 37, 32, 21, 1] := by decide +kernel
  have hx : (Machine.execute ⟨some zeroTarget, .none, 2⟩
      [8, 0, 16, 0, 0, 7, 8, 0, 0, 0, 4, 4, 37, 32, 21, 1]).status = .failed .divideByZero := by decide +kernel
  exact ⟨harmless_frameContext, hv, hx, compile_not_defective harmless_frameContext (.inr hv) _ hx⟩

end WatchExpr
