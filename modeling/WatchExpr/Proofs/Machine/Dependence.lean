import WatchExpr.Proofs.Machine.Drive

namespace WatchExpr

/-- Targets that differ in their memory only, and answer some reads alike: with the same bytes, or
both with none. -/
structure Target.AgreesOn (t t' : Target) (reads : List MemoryRead) : Prop where
  registerBlock : t'.registerBlock = t.registerBlock
  base : t'.base = t.base
  memory : ∀ r ∈ reads, t'.memory r.address r.size = t.memory r.address r.size

theorem Target.AgreesOn.mono {t t' : Target} {reads reads' : List MemoryRead}
    (h : t.AgreesOn t' reads) (hsub : ∀ r ∈ reads', r ∈ reads) : t.AgreesOn t' reads' where
  registerBlock := h.registerBlock
  base := h.base
  memory r hr := h.memory r (hsub r hr)

namespace Machine

/-- The memory that was read up to here. -/
def Progress.reads : Progress → List MemoryRead
  | .next s | .halt s => s.reads
  | .fault _ reads => reads

theorem Progress.reads_outcome (p : Progress) : p.outcome.reads = p.reads := by
  have hfinish (s : State) : s.finish.reads = s.reads := by
    simp only [State.finish]
    split <;> rfl
  cases p with
  | next s => exact hfinish s
  | halt s => exact hfinish s
  | fault f reads => rfl

theorem prefix_reads_drive (m : Machine) (s : State) : s.reads <+: (m.drive s).reads := by
  have hlog := m.drive_log s.reads { s with reads := [] }
  rw [List.append_nil] at hlog
  rw [hlog]
  cases m.drive { s with reads := [] } with
  | next t => exact List.prefix_append _ _
  | halt t => exact List.prefix_append _ _
  | fault f reads => exact List.prefix_append _ _

section
variable {t t' : Target} {layout : Arch} {capacity : Nat}

theorem readBlock_agrees (h : t'.registerBlock = t.registerBlock) (offset : Slot) (size : Nat) :
    readBlock ⟨some t', layout, capacity⟩ offset size =
      readBlock ⟨some t, layout, capacity⟩ offset size := by
  simp only [readBlock, h]

theorem readRegister_agrees (h : t'.registerBlock = t.registerBlock) (operand : UInt64) :
    readRegister ⟨some t', layout, capacity⟩ operand =
      readRegister ⟨some t, layout, capacity⟩ operand := by
  simp only [readRegister, readBlock_agrees h]

theorem baseAddress_agrees (h : t'.base = t.base) (b : Base) (offset : UInt64) :
    baseAddress ⟨some t', layout, capacity⟩ b offset =
      baseAddress ⟨some t, layout, capacity⟩ b offset := by
  simp only [baseAddress, Option.bind_some, h]

theorem readMemory_agrees {address : Slot} {size : Nat} {s : State}
    (h : t.AgreesOn t' (readMemory ⟨some t, layout, capacity⟩ address size s).reads) :
    readMemory ⟨some t', layout, capacity⟩ address size s =
      readMemory ⟨some t, layout, capacity⟩ address size s := by
  simp only [readMemory] at h ⊢
  split at h
  · rename_i hsize
    rw [if_pos hsize, if_pos hsize]
  · rename_i hsize
    have hlogged : { address, size : MemoryRead } ∈ s.reads ++ [{ address, size : MemoryRead }] :=
      List.mem_append_right _ (List.mem_singleton_self _)
    have hmemory : t'.memory address size = t.memory address size := by
      apply h.memory { address, size }
      cases t.word? address size with
      | some v => exact hlogged
      | none => exact hlogged
    have hword : t'.word? address size = t.word? address size := by
      rw [Target.word?, Target.word?, hmemory]
    rw [if_neg hsize, if_neg hsize, hword]

theorem perform_agrees {i : Instruction} {s : State}
    (h : t.AgreesOn t' (perform ⟨some t, layout, capacity⟩ i s).reads) :
    perform ⟨some t', layout, capacity⟩ i s = perform ⟨some t, layout, capacity⟩ i s := by
  simp only [perform, readBlock_agrees h.registerBlock, readRegister_agrees h.registerBlock,
    baseAddress_agrees h.base] at h ⊢
  split at h
  case h_5 => exact readMemory_agrees h
  all_goals rfl

/-- One step is the same on both targets when they answer what it reads alike. -/
theorem step_agrees {b : UInt8} {rest : List UInt8} {s : State}
    (h : t.AgreesOn t' (step ⟨some t, layout, capacity⟩ b rest s).reads) :
    step ⟨some t', layout, capacity⟩ b rest s = step ⟨some t, layout, capacity⟩ b rest s := by
  simp only [step] at h ⊢
  split at h
  · rfl
  · rename_i i after hd
    have hcheck : check ⟨some t', layout, capacity⟩ i s.stack.length =
        check ⟨some t, layout, capacity⟩ i s.stack.length := rfl
    rw [hcheck]
    cases hc : check ⟨some t, layout, capacity⟩ i s.stack.length with
    | error f => rfl
    | ok u =>
      rw [hc] at h
      exact perform_agrees h

theorem drive_agrees {s : State}
    (h : t.AgreesOn t' (drive ⟨some t, layout, capacity⟩ s).reads) :
    drive ⟨some t', layout, capacity⟩ s = drive ⟨some t, layout, capacity⟩ s := by
  induction s using State.inductionOn ⟨some t, layout, capacity⟩ with
  | nil stack reads => rw [drive_nil, drive_nil]
  | cons b rest stack reads ih =>
    rw [drive_cons] at h
    have hstep : step ⟨some t', layout, capacity⟩ b rest ⟨b :: rest, stack, reads⟩ =
        step ⟨some t, layout, capacity⟩ b rest ⟨b :: rest, stack, reads⟩ := by
      apply step_agrees
      apply h.mono
      intro r hr
      cases hs : step ⟨some t, layout, capacity⟩ b rest ⟨b :: rest, stack, reads⟩ with
      | next u =>
        rw [hs] at hr
        exact (prefix_reads_drive _ u).subset hr
      | halt u =>
        rw [hs] at hr
        exact hr
      | fault f log =>
        rw [hs] at hr
        exact hr
    rw [drive_cons, drive_cons, hstep]
    cases hs : step ⟨some t, layout, capacity⟩ b rest ⟨b :: rest, stack, reads⟩ with
    | next u =>
      rw [hs] at h
      exact ih u hs h
    | halt u => rfl
    | fault f log => rfl

end

/-- A run depends only on what it reads. Whatever the bytes of the code, two targets with the same
registers and bases that answer every read logged on the first of them alike give the same status
and value, after the same reads. -/
theorem execute_eq_of_reads (code : List UInt8) (layout : Arch) (capacity : Nat) (t t' : Target)
    (hblock : t'.registerBlock = t.registerBlock) (hbase : t'.base = t.base)
    (hmemory : ∀ r ∈ (execute ⟨some t, layout, capacity⟩ code).reads,
      t'.memory r.address r.size = t.memory r.address r.size) :
    execute ⟨some t', layout, capacity⟩ code = execute ⟨some t, layout, capacity⟩ code := by
  simp only [execute, run_eq_drive] at hmemory ⊢
  rw [Progress.reads_outcome] at hmemory
  rw [drive_agrees ⟨hblock, hbase, hmemory⟩]

/-- Follows a pointer in the frame; a flag there decides whether address zero is read. -/
def flaggedRead : List UInt8 :=
  [7, 0, 0, 0, 0, 4, 8, 4, 1, 2, 7, 0, 10, 0, 4, 1, 3, 2, 0, 10, 42]

/-- The memory that a run of the program above needs when the flag is set. -/
def flagMemory : SparseMemory :=
  SparseMemory.write (SparseMemory.write {} 0x4000 [0, 0x50, 0, 0, 0, 0, 0, 0]) 0x5000 [1]

def liveTarget : Target where
  memory := (flagMemory.write 0 [9]).read?
  registerBlock := []
  base _ := some 0x4000

/-- What a run on the live target read, and nothing else. -/
def recordedTarget : Target := { liveTarget with memory := flagMemory.read? }

theorem execute_recorded :
    (∀ r ∈ (execute ⟨some liveTarget, .x64, 2⟩ flaggedRead).reads,
      recordedTarget.memory r.address r.size = liveTarget.memory r.address r.size) ∧
    liveTarget.memory 0 1 ≠ recordedTarget.memory 0 1 ∧
    (execute ⟨some liveTarget, .x64, 2⟩ flaggedRead).reads = [⟨0x4000, 8⟩, ⟨0x5000, 1⟩] ∧
    execute ⟨some recordedTarget, .x64, 2⟩ flaggedRead =
      execute ⟨some liveTarget, .x64, 2⟩ flaggedRead := by
  have h : ∀ r ∈ (execute ⟨some liveTarget, .x64, 2⟩ flaggedRead).reads,
      recordedTarget.memory r.address r.size = liveTarget.memory r.address r.size := by
    decide +kernel
  exact ⟨h, by decide +kernel, by decide +kernel,
    execute_eq_of_reads flaggedRead .x64 2 liveTarget recordedTarget rfl rfl h⟩

end Machine

end WatchExpr
