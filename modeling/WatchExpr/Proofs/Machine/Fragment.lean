import Mathlib.Order.Lattice.Nat
import WatchExpr.Proofs.Machine.Computation

namespace WatchExpr

def Fault.IsDefect (f : Fault) : Prop := f = .badOp ∨ f = .badOpTypes ∨ f = .malformedBytecode

instance (f : Fault) : Decidable f.IsDefect := inferInstanceAs (Decidable (_ ∨ _))

namespace Fragment

/-- Code stands for one value wherever it is put: started on any stack, in front of any code, it
fails for one of some reasons or reaches its own end with exactly one slot pushed and the slots
below unchanged. What it does depends on no code behind it, so it never runs past its end. -/
def Computes (F : Fault → Prop) (code : List UInt8) : Prop :=
  ∀ (m : Machine) (stack : List Slot) (reads : List MemoryRead), stack.length ≤ m.capacity →
    (∃ f log, F f ∧ ∀ rest, m.drive ⟨code ++ rest, stack, reads⟩ = .fault f log) ∨
      ∃ v log, ∀ rest, m.drive ⟨code ++ rest, stack, reads⟩ = m.drive ⟨rest, v :: stack, log⟩

/-- A fragment that stands for one value and may fail for any reason. -/
def SelfContained (code : List UInt8) : Prop := Computes (fun _ => True) code

/-- A fragment that stands for one value and fails only for reasons that lie in the target. -/
def Harmless (code : List UInt8) : Prop := Computes (fun f => ¬ f.IsDefect) code

/-- The value of a fragment on pending operands: what its own run leaves on top of them, given
room enough. -/
def value (t : Option Target) (layout : Arch) (code : List UInt8) (pending : List Slot) :
    Computation Slot :=
  match (Machine.mk t layout (pending.length + code.length)).drive { code, stack := pending } with
  | .next s | .halt s =>
    ⟨match s.stack with
      | v :: _ => .ok v
      | [] => .error .malformedBytecode, s.reads⟩
  | .fault f reads => ⟨.error f, reads⟩

/-- The least room above its start in which a fragment never overflows. -/
noncomputable def room (code : List UInt8) : Nat :=
  sInf { n | ∀ (m : Machine) (stack : List Slot) (reads log : List MemoryRead),
    stack.length + n ≤ m.capacity →
      m.drive ⟨code, stack, reads⟩ ≠ .fault .insufficientStackSpace log }

theorem room_le_length (code : List UInt8) : room code ≤ code.length :=
  Nat.sInf_le fun _ _ _ log h => Machine.drive_ne_overflow h log

theorem drive_ne_overflow {code : List UInt8} {m : Machine} {stack : List Slot}
    (h : stack.length + room code ≤ m.capacity) (reads log : List MemoryRead) :
    m.drive ⟨code, stack, reads⟩ ≠ .fault .insufficientStackSpace log :=
  Nat.sInf_mem (s := { n | ∀ (m : Machine) (stack : List Slot) (reads log : List MemoryRead),
    stack.length + n ≤ m.capacity →
      m.drive ⟨code, stack, reads⟩ ≠ .fault .insufficientStackSpace log })
    ⟨code.length, fun _ _ _ log h => Machine.drive_ne_overflow h log⟩ m stack reads log h

/-- Where there is room, the run of a fragment depends on neither the room nor the log. -/
theorem drive_eq {code : List UInt8} {m : Machine} {stack : List Slot}
    (hc : stack.length + room code ≤ m.capacity) (reads : List MemoryRead) :
    m.drive ⟨code, stack, reads⟩ =
      ((Machine.mk m.target m.layout (stack.length + code.length)).drive
        { code, stack }).logAfter reads := by
  have hm := Machine.drive_capacity (c := max m.capacity (stack.length + code.length))
    (Nat.le_max_left _ _) (drive_ne_overflow hc reads)
  have hw := Machine.drive_capacity (m := ⟨m.target, m.layout, stack.length + code.length⟩)
    (c := max m.capacity (stack.length + code.length)) (s := { code, stack })
    (Nat.le_max_right _ _) (Machine.drive_ne_overflow (Nat.le_refl _))
  rw [← hm, ← hw, ← Machine.drive_log, List.append_nil]

/-- A fragment computes its value and leaves the rest to the code behind it. -/
theorem drive_eq_resume {F : Fault → Prop} {code : List UInt8} (h : Computes F code) {m : Machine}
    {stack : List Slot} (hc : stack.length + room code ≤ m.capacity) (rest : List UInt8)
    (reads : List MemoryRead) :
    m.drive ⟨code ++ rest, stack, reads⟩ =
      m.resume (value m.target m.layout code stack) rest stack reads := by
  have he := drive_eq hc reads
  obtain ⟨f, log, -, hf⟩ | ⟨v, log, hv⟩ := h m stack reads (by omega)
  · have hn := hf []
    rw [List.append_nil, he] at hn
    rw [hf, Machine.resume, value]
    generalize (Machine.mk m.target m.layout (stack.length + code.length)).drive _ = p at hn ⊢
    cases p <;> cases hn
    rfl
  · have hn := hv []
    rw [List.append_nil, he, Machine.drive_nil] at hn
    rw [hv, Machine.resume, value]
    generalize (Machine.mk m.target m.layout (stack.length + code.length)).drive _ = p at hn ⊢
    obtain s | s | f := p
    · cases hn
    · obtain ⟨code', stack', reads'⟩ := s
      cases hn
      rfl
    · cases hn

theorem fault_of_value {F : Fault → Prop} {code : List UInt8} (h : Computes F code)
    {t : Option Target} {layout : Arch} {pending : List Slot} {f : Fault}
    (hf : (value t layout code pending).result = .error f) : F f := by
  rw [value] at hf
  obtain ⟨g, log, hg, hd⟩ | ⟨v, log, hd⟩ :=
    h ⟨t, layout, pending.length + code.length⟩ pending [] (Nat.le_add_right _ _)
  · have hn := hd []
    rw [List.append_nil] at hn
    simp only [hn] at hf
    cases hf
    exact hg
  · have hn := hd []
    rw [List.append_nil, Machine.drive_nil] at hn
    simp only [hn] at hf
    cases hf

theorem Computes.mono {F G : Fault → Prop} {code : List UInt8} (h : Computes F code)
    (hFG : ∀ f, F f → G f) : Computes G code := by
  intro m stack reads hs
  obtain ⟨f, log, hf, hd⟩ | hv := h m stack reads hs
  · exact .inl ⟨f, log, hFG f hf, hd⟩
  · exact .inr hv

theorem Computes.selfContained {F : Fault → Prop} {code : List UInt8} (h : Computes F code) :
    SelfContained code :=
  h.mono fun _ _ => trivial

theorem drive_instruction (m : Machine) {i : Instruction} (hv : i.op.isValid) (stack : List Slot)
    (hp : i.op.pops ≤ stack.length) (hg : i.op.hasGroup → i.op.accepts i.stored.group)
    (reads : List MemoryRead) :
    (∀ rest, m.drive ⟨i.encode ++ rest, stack, reads⟩ = .fault .insufficientStackSpace reads) ∨
      ∀ rest, m.drive ⟨i.encode ++ rest, stack, reads⟩ =
        (m.perform i.stored ⟨rest, stack, reads⟩).andThen m.drive := by
  simp only [Machine.drive_encode m hv]
  have ho : i.stored.op = i.op := rfl
  by_cases hc : stack.length - i.op.pops + i.op.pushes ≤ m.capacity
  · rw [Machine.check_eq_ok (i := i.stored) hp hg hc]
    exact .inr fun _ => rfl
  · have hk : m.check i.stored stack.length = .error .insufficientStackSpace := by
      rw [Machine.check, ho, if_neg (Nat.not_lt.2 hp), if_neg (by simpa using hg),
        if_pos (Nat.lt_of_not_le hc)]
    rw [hk]
    exact .inl fun _ => rfl

theorem computes_push {F : Fault → Prop} (hF : F .insufficientStackSpace) {i : Instruction}
    (hv : i.op.isValid) (hp : i.op.pops = 0) (hg : i.op.hasGroup = false)
    (h : ∀ m : Machine, ∃ r : Except Fault Slot, (∀ s, m.perform i.stored s = s.push r) ∧
      ∀ f, r = .error f → F f) : Computes F i.encode := by
  intro m stack reads _
  obtain hd | hd := drive_instruction m hv stack (by omega) (by simp [hg]) reads
  · exact .inl ⟨_, _, hF, hd⟩
  · obtain ⟨r, hr, hf⟩ := h m
    simp only [hd, hr]
    cases r with
    | ok v => exact .inr ⟨v, reads, fun _ => rfl⟩
    | error f => exact .inl ⟨f, reads, hf f rfl, fun _ => rfl⟩

/-- Code that replaces the slot on top, for one of some reasons failing to. -/
def Replaces (F : Fault → Prop) (code : List UInt8) : Prop :=
  ∀ (m : Machine) (v : Slot) (stack : List Slot) (reads : List MemoryRead),
    (∃ f log, F f ∧ ∀ rest, m.drive ⟨code ++ rest, v :: stack, reads⟩ = .fault f log) ∨
      ∃ w log, ∀ rest, m.drive ⟨code ++ rest, v :: stack, reads⟩ = m.drive ⟨rest, w :: stack, log⟩

theorem Computes.append {F : Fault → Prop} {first second : List UInt8} (h : Computes F first)
    (h' : Replaces F second) : Computes F (first ++ second) := by
  intro m stack reads hs
  simp only [List.append_assoc]
  obtain ⟨f, log, hf, hd⟩ | ⟨v, log, hd⟩ := h m stack reads hs
  · exact .inl ⟨f, log, hf, fun rest => hd (second ++ rest)⟩
  · simp only [hd]
    exact h' m v stack log

theorem replaces_instruction {F : Fault → Prop} (hF : F .insufficientStackSpace) {i : Instruction}
    (hv : i.op.isValid) (hp : i.op.pops = 1) (hg : i.op.hasGroup = false)
    (h : ∀ (m : Machine) (v : Slot), ∃ c : Computation Slot, (∀ rest stack reads,
      (m.perform i.stored ⟨rest, v :: stack, reads⟩).andThen m.drive =
        m.resume c rest stack reads) ∧ ∀ f, c.result = .error f → F f) :
    Replaces F i.encode := by
  intro m v stack reads
  obtain hd | hd := drive_instruction m hv (v :: stack) (by rw [hp]; exact Nat.le_add_left _ _)
    (by simp [hg]) reads
  · exact .inl ⟨_, _, hF, hd⟩
  · obtain ⟨c, hr, hf⟩ := h m v
    simp only [hd, hr]
    cases hc : c.result with
    | ok w =>
      simp only [m.resume_ok _ _ _ hc]
      exact .inr ⟨w, reads ++ c.reads, fun _ => rfl⟩
    | error f =>
      simp only [m.resume_error _ _ _ hc]
      exact .inl ⟨f, reads ++ c.reads, hf f hc, fun _ => rfl⟩

/-- A self-contained fragment that never goes wrong on its own does not on any stack. -/
theorem SelfContained.harmless {code : List UInt8} (h : SelfContained code)
    (he : ∀ (m : Machine) (f : Fault), (m.execute code).status = .failed f → ¬ f.IsDefect) :
    Harmless code := by
  intro m stack reads hs
  obtain ⟨f, log, -, hd⟩ | hv := h m stack reads hs
  · refine .inl ⟨f, log, ?_, hd⟩
    -- The run on an empty stack, on a machine that has only the room above the slots below.
    let above : Machine := ⟨m.target, m.layout, m.capacity - stack.length⟩
    have hfault {g : Fault} {log' : List MemoryRead} (hg : above.drive { code } = .fault g log') :
        ¬ g.IsDefect := by
      apply he above g
      rw [Machine.execute, Machine.run_eq_drive, hg]
      rfl
    have hm : ({ above with capacity := above.capacity + stack.length } : Machine) = m := by
      simp only [above, Nat.sub_add_cancel hs]
    have ha := above.drive_above stack { code } (fun log' hb => hfault hb (.inl rfl))
    have hn := hd []
    have hl := m.drive_log reads ⟨code, stack, []⟩
    simp only [List.append_nil] at hn hl
    rw [hm] at ha
    simp only [List.nil_append] at ha
    rw [hl, ha] at hn
    generalize hp : above.drive { code } = p at hn
    cases p <;> cases hn
    exact hfault hp
  · exact .inr hv

theorem Harmless.execute_fault {code : List UInt8} (h : Harmless code) {m : Machine} {f : Fault}
    (hf : (m.execute code).status = .failed f) : ¬ f.IsDefect := by
  rw [Machine.execute, Machine.run_eq_drive] at hf
  obtain ⟨g, log, hg, hd⟩ | ⟨v, log, hd⟩ := h m [] [] (Nat.zero_le _)
  · have hn := hd []
    rw [List.append_nil] at hn
    rw [hn] at hf
    cases hf
    exact hg
  · have hn := hd []
    rw [List.append_nil, Machine.drive_nil] at hn
    rw [hn] at hf
    cases hf

theorem harmless_base (b : Base) (offset : UInt64) :
    Harmless (Instruction.encode ⟨.base b, offset⟩) := by
  apply computes_push (by decide) _ rfl rfl
  · intro m
    refine ⟨m.baseAddress b _, fun _ => rfl, ?_⟩
    intro f hf
    cases Machine.baseAddress_fault hf
    cases b <;> decide
  · cases b <;> rfl

theorem harmless_const (w : Width) (v : UInt64) :
    Harmless (Instruction.encode ⟨.const w, v⟩) := by
  apply computes_push (by decide) rfl rfl rfl
  intro m
  exact ⟨.ok _, fun _ => rfl, by rintro _ ⟨⟩⟩

theorem harmless_regRead (operand : UInt64) :
    Harmless (Instruction.encode ⟨.regRead, operand⟩) := by
  apply computes_push (by decide) rfl rfl rfl
  intro m
  refine ⟨m.readRegister _, fun _ => rfl, ?_⟩
  intro f hf
  cases Machine.readRegister_fault hf
  decide

theorem Harmless.append_memRead {code : List UInt8} (h : Harmless code) {size : UInt64}
    (hs : 1 ≤ size.toNat ∧ size.toNat ≤ 8) :
    Harmless (code ++ Instruction.encode ⟨.memRead, size⟩) := by
  refine Computes.append h (replaces_instruction (by decide) rfl rfl rfl ?_)
  have hi : Instruction.stored ⟨.memRead, size⟩ = ⟨.memRead, size⟩ := by
    apply Instruction.stored_eq_self
    simp only [Opcode.operandLength]
    omega
  intro m v
  refine ⟨Target.loadWord m.target v size.toNat, ?_, ?_⟩
  · intro rest stack reads
    have hn : ¬ (size.toNat < 1 ∨ 8 < size.toNat) := by omega
    rw [hi]
    simp only [Machine.perform, Machine.readMemory, if_neg hn, Machine.resume, Target.loadWord]
    cases m.target with
    | none => simp [Computation.fail, Computation.ofResult, Machine.Progress.andThen]
    | some t => cases hw : t.word? v size.toNat <;> simp [hw, Machine.Progress.andThen]
  · intro f hf
    simp only [Target.loadWord] at hf
    split at hf
    · cases hf
      decide
    · simp only at hf
      split at hf <;> cases hf
      decide

theorem Harmless.append_truncSigned {code : List UInt8} (h : Harmless code) (bits : UInt64) :
    Harmless (code ++ Instruction.encode ⟨.truncSigned, bits⟩) := by
  refine Computes.append h (replaces_instruction (by decide) rfl rfl rfl ?_)
  intro m v
  refine ⟨pure (Slot.signExtend (Instruction.stored ⟨.truncSigned, bits⟩).operand.toNat v),
    ?_, by rintro _ ⟨⟩⟩
  intro rest stack reads
  rw [m.resume_ok _ _ _ rfl, Computation.pure_eq, List.append_nil]
  rfl

theorem Harmless.append_add {code : List UInt8} (h : Harmless code) (w : Width) (v : UInt64) :
    Harmless (code ++ Instruction.encode ⟨.const w, v⟩ ++ Code.emitGroup [] (.binary .add) .u) := by
  rw [List.append_assoc]
  refine Computes.append h ?_
  intro m a stack reads
  simp only [List.append_assoc]
  obtain hd | hd := drive_instruction m (i := ⟨.const w, v⟩) rfl (a :: stack)
    (Nat.zero_le _) (by rintro ⟨⟩) reads
  · exact .inl ⟨.insufficientStackSpace, reads, by decide, fun rest => hd _⟩
  · obtain ho | ho := drive_instruction m (i := ⟨.binary .add, Group.u.toByte.toUInt64⟩) rfl
      ((Instruction.stored ⟨.const w, v⟩).operand :: a :: stack) (Nat.le_add_left _ _)
      (fun _ => by decide) reads
    · refine .inl ⟨.insufficientStackSpace, reads, by decide, fun rest => ?_⟩
      rw [hd]
      exact ho rest
    · refine .inr ⟨a + (Instruction.stored ⟨.const w, v⟩).operand, reads, fun rest => ?_⟩
      rw [hd]
      exact ho rest

end Fragment

end WatchExpr
