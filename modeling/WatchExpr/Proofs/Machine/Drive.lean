import WatchExpr.Machine.Execution

namespace WatchExpr

namespace Machine

namespace Progress

def andThen (p : Progress) (go : State → Progress) : Progress :=
  match p with
  | .next s => go s
  | .halt s => .halt s
  | .fault f reads => .fault f reads

/-- What a run that ends here gives. -/
def outcome : Progress → Outcome
  | .next s | .halt s => s.finish
  | .fault f reads => ⟨.error f, reads⟩

/-- The same with memory that was read before. -/
def logAfter (log : List MemoryRead) : Progress → Progress
  | .next s => .next { s with reads := log ++ s.reads }
  | .halt s => .halt { s with reads := log ++ s.reads }
  | .fault f reads => .fault f (log ++ reads)

/-- The same with more slots at the bottom of the stack. -/
def above (bottom : List Slot) : Progress → Progress
  | .next s => .next { s with stack := s.stack ++ bottom }
  | .halt s => .halt { s with stack := s.stack ++ bottom }
  | .fault f reads => .fault f reads

end Progress

/-- Runs to the end and gives the last state or the fault. -/
def drive (m : Machine) (s : State) : Progress :=
  match _hc : s.code with
  | [] => .halt s
  | b :: rest =>
    match _hs : m.step b rest s with
    | .next t => drive m t
    | .halt t => .halt t
    | .fault f reads => .fault f reads
termination_by s.code.length
decreasing_by
  have := length_of_step _hs
  simp only [_hc, List.length_cons]
  omega

theorem drive_nil (m : Machine) (stack : List Slot) (reads : List MemoryRead) :
    m.drive ⟨[], stack, reads⟩ = .halt ⟨[], stack, reads⟩ := by
  rw [drive]

theorem drive_cons (m : Machine) (b : UInt8) (rest : List UInt8) (stack : List Slot)
    (reads : List MemoryRead) :
    m.drive ⟨b :: rest, stack, reads⟩ =
      (m.step b rest ⟨b :: rest, stack, reads⟩).andThen m.drive := by
  rw [drive]
  simp only
  split <;> simp only [Progress.andThen, *]

theorem run_eq_drive (m : Machine) (s : State) : m.run s = (m.drive s).outcome := by
  fun_induction run m s with
  | case1 s hc =>
    obtain ⟨code, stack, reads⟩ := s
    cases hc
    rw [drive_nil]
    rfl
  | case2 s b rest hc t hs ih =>
    obtain ⟨code, stack, reads⟩ := s
    cases hc
    rw [drive_cons, hs]
    exact ih
  | case3 s b rest hc t hs =>
    obtain ⟨code, stack, reads⟩ := s
    cases hc
    rw [drive_cons, hs]
    rfl
  | case4 s b rest hc f reads' hs =>
    obtain ⟨code, stack, reads⟩ := s
    cases hc
    rw [drive_cons, hs]
    rfl

section
variable (code : List UInt8) (stack : List Slot) (reads : List MemoryRead)

theorem State.push_log (log : List MemoryRead) (v : Except Fault Slot) :
    State.push ⟨code, stack, log ++ reads⟩ v =
      (State.push ⟨code, stack, reads⟩ v).logAfter log := by
  cases v <;> rfl

theorem jump_log (log : List MemoryRead) (d : Nat) :
    jump d ⟨code, stack, log ++ reads⟩ = (jump d ⟨code, stack, reads⟩).logAfter log := by
  simp only [jump]
  split <;> rfl

theorem readMemory_log (m : Machine) (log : List MemoryRead) (a : Slot) (size : Nat) :
    m.readMemory a size ⟨code, stack, log ++ reads⟩ =
      (m.readMemory a size ⟨code, stack, reads⟩).logAfter log := by
  simp only [readMemory]
  split
  · rfl
  · cases m.target with
    | none => rfl
    | some t => cases h : t.word? a size <;> simp [Progress.logAfter, h]

theorem perform_log (m : Machine) (log : List MemoryRead) (i : Instruction) :
    m.perform i ⟨code, stack, log ++ reads⟩ =
      (m.perform i ⟨code, stack, reads⟩).logAfter log := by
  simp only [perform]
  split <;> try rfl
  case h_3 =>
    split
    · exact jump_log _ _ _ _ _
    · rfl
  case h_4 => exact jump_log _ _ _ _ _
  case h_5 => exact readMemory_log _ _ _ _ _ _ _
  case h_15 => split <;> rfl
  case h_16 => split <;> rfl
  case h_18 => split <;> rfl
  all_goals exact State.push_log _ _ _ _ _

theorem State.push_above (bottom : List Slot) (v : Except Fault Slot) :
    State.push ⟨code, stack ++ bottom, reads⟩ v =
      (State.push ⟨code, stack, reads⟩ v).above bottom := by
  cases v <;> rfl

theorem jump_above (bottom : List Slot) (d : Nat) :
    jump d ⟨code, stack ++ bottom, reads⟩ = (jump d ⟨code, stack, reads⟩).above bottom := by
  simp only [jump]
  split <;> rfl

theorem readMemory_above (m : Machine) (bottom : List Slot) (a : Slot) (size : Nat) :
    m.readMemory a size ⟨code, stack ++ bottom, reads⟩ =
      (m.readMemory a size ⟨code, stack, reads⟩).above bottom := by
  simp only [readMemory]
  split
  · rfl
  · cases m.target with
    | none => rfl
    | some t => cases h : t.word? a size <;> simp [Progress.above, h]

theorem sink_append {depth : Nat} (bottom : List Slot) (h : depth < stack.length) :
    sink depth (stack ++ bottom) = sink depth stack ++ bottom := by
  cases stack with
  | nil => simp at h
  | cons v rest =>
    have hd : depth ≤ rest.length := Nat.le_of_lt_succ h
    simp [sink, List.take_append_of_le_length hd, List.drop_append_of_le_length hd]

/-- An instruction that finds its operands does not look below them. -/
theorem perform_above (m : Machine) (bottom : List Slot) (i : Instruction)
    (h : m.perform i ⟨code, stack, reads⟩ ≠ .fault .badOp reads) :
    m.perform i ⟨code, stack ++ bottom, reads⟩ =
      (m.perform i ⟨code, stack, reads⟩).above bottom := by
  simp only [perform] at h ⊢
  split at h
  case h_19 => exact absurd rfl h
  all_goals simp only [*, List.cons_append]
  case h_1 => rfl
  case h_2 => rfl
  case h_3 =>
    split
    · exact jump_above _ _ _ _ _
    · rfl
  case h_4 => exact jump_above _ _ _ _ _
  case h_5 => exact readMemory_above _ _ _ _ _ _ _
  case h_15 =>
    split
    · rfl
    · rfl
  case h_16 =>
    split at h
    · rename_i v hv
      rw [List.getElem?_append_left (List.getElem?_eq_some_iff.1 hv).1, hv]
      rfl
    · exact absurd rfl h
  case h_17 => rfl
  case h_18 =>
    split at h
    · exact absurd rfl h
    · rename_i hl
      rw [if_neg hl, if_neg (by simp only [List.length_append]; omega)]
      simp only [Progress.above, sink_append _ bottom (Nat.lt_of_not_le hl)]
  all_goals exact State.push_above _ _ _ _ _

theorem step_log (m : Machine) (log : List MemoryRead) (b : UInt8) (rest : List UInt8) :
    m.step b rest ⟨code, stack, log ++ reads⟩ =
      (m.step b rest ⟨code, stack, reads⟩).logAfter log := by
  simp only [step]
  split
  · rfl
  · split
    · rfl
    · exact perform_log _ _ _ _ _ _

theorem check_above (m : Machine) (n : Nat) {i : Instruction} {depth : Nat}
    (h : m.check i depth ≠ .error .badOp) :
    ({ m with capacity := m.capacity + n } : Machine).check i (depth + n) = m.check i depth := by
  simp only [check] at h ⊢
  split at h
  · exact absurd rfl h
  · rename_i hp
    rw [if_neg (by omega : ¬ depth + n < i.op.pops), if_neg hp]
    have he : (m.capacity + n < depth + n - i.op.pops + i.op.pushes) =
        (m.capacity < depth - i.op.pops + i.op.pushes) := by
      apply propext
      omega
    simp only [he]

theorem step_above (m : Machine) (bottom : List Slot) (b : UInt8) (rest : List UInt8)
    (h : m.step b rest ⟨code, stack, reads⟩ ≠ .fault .badOp reads) :
    ({ m with capacity := m.capacity + bottom.length } : Machine).step b rest
        ⟨code, stack ++ bottom, reads⟩ =
      (m.step b rest ⟨code, stack, reads⟩).above bottom := by
  simp only [step] at h ⊢
  split at h
  · exact absurd rfl h
  · rename_i i after hd
    have hc : m.check i stack.length ≠ .error .badOp := by
      intro hc
      simp only [hc] at h
      exact h rfl
    simp only [List.length_append, check_above m _ hc]
    split at h
    · rfl
    · exact perform_above _ _ _ _ _ _ h
end

@[elab_as_elim]
theorem State.inductionOn {motive : State → Prop} (m : Machine) (s : State)
    (nil : ∀ stack reads, motive ⟨[], stack, reads⟩)
    (cons : ∀ b rest stack reads,
      (∀ t, m.step b rest ⟨b :: rest, stack, reads⟩ = .next t → motive t) →
        motive ⟨b :: rest, stack, reads⟩) : motive s := by
  obtain ⟨code, stack, reads⟩ := s
  induction hn : code.length using Nat.strongRecOn generalizing code stack reads with
  | ind n ih =>
    cases code with
    | nil => exact nil stack reads
    | cons b rest =>
      apply cons
      intro t ht
      have hl := length_of_step ht
      rw [List.length_cons] at hn
      exact ih t.code.length (by omega) t.code t.stack t.reads rfl

theorem drive_log (m : Machine) (log : List MemoryRead) (s : State) :
    m.drive { s with reads := log ++ s.reads } = (m.drive s).logAfter log := by
  induction s using State.inductionOn m with
  | nil stack reads => simp only [drive_nil, Progress.logAfter]
  | cons b rest stack reads ih =>
    simp only [drive_cons, step_log]
    cases hs : m.step b rest ⟨b :: rest, stack, reads⟩ with
    | next t => exact ih t hs
    | halt t => rfl
    | fault f reads' => rfl

theorem drive_above (m : Machine) (bottom : List Slot) (s : State)
    (h : ∀ reads, m.drive s ≠ .fault .badOp reads) :
    ({ m with capacity := m.capacity + bottom.length } : Machine).drive
        { s with stack := s.stack ++ bottom } = (m.drive s).above bottom := by
  induction s using State.inductionOn m with
  | nil stack reads => simp only [drive_nil, Progress.above]
  | cons b rest stack reads ih =>
    rw [drive_cons] at h
    have hs : m.step b rest ⟨b :: rest, stack, reads⟩ ≠ .fault .badOp reads := by
      intro hs
      exact h reads (by rw [hs]; rfl)
    simp only [drive_cons, step_above _ _ _ _ _ _ _ hs]
    cases ht : m.step b rest ⟨b :: rest, stack, reads⟩ with
    | next t =>
      rw [ht] at h
      exact ih t ht h
    | halt t => rfl
    | fault f reads' => rfl

theorem check_capacity {m : Machine} {c : Nat} (hc : m.capacity ≤ c) {i : Instruction} {depth : Nat}
    (h : m.check i depth ≠ .error .insufficientStackSpace) :
    ({ m with capacity := c } : Machine).check i depth = m.check i depth := by
  simp only [check] at h ⊢
  split
  · rfl
  · rename_i hp
    rw [if_neg hp] at h
    split
    · rfl
    · rename_i ha
      rw [if_neg ha] at h
      split at h
      · exact absurd rfl h
      · rename_i hr
        rw [if_neg (by omega), if_neg hr]

/-- More room changes nothing but an overflow. -/
theorem step_capacity {m : Machine} {c : Nat} (hc : m.capacity ≤ c) {b : UInt8} {rest : List UInt8}
    {s : State} (h : m.step b rest s ≠ .fault .insufficientStackSpace s.reads) :
    ({ m with capacity := c } : Machine).step b rest s = m.step b rest s := by
  simp only [step] at h ⊢
  split at h
  · simp only [*]
  · rename_i i after hd
    have hi : m.check i s.stack.length ≠ .error .insufficientStackSpace := by
      intro hi
      simp only [hi] at h
      exact h rfl
    simp only [check_capacity hc hi]
    rfl

/-- A run that does not overflow is the same with more room. -/
theorem drive_capacity {m : Machine} {c : Nat} (hc : m.capacity ≤ c) {s : State}
    (h : ∀ reads, m.drive s ≠ .fault .insufficientStackSpace reads) :
    ({ m with capacity := c } : Machine).drive s = m.drive s := by
  induction s using State.inductionOn m with
  | nil stack reads => simp only [drive_nil]
  | cons b rest stack reads ih =>
    rw [drive_cons] at h
    have hs : m.step b rest ⟨b :: rest, stack, reads⟩ ≠ .fault .insufficientStackSpace reads := by
      intro hs
      exact h reads (by rw [hs]; rfl)
    simp only [drive_cons, step_capacity hc hs]
    cases ht : m.step b rest ⟨b :: rest, stack, reads⟩ with
    | next t =>
      rw [ht] at h
      exact ih t ht h
    | halt t => rfl
    | fault f reads' => rfl

/-- The ways an instruction can go: it pushes at most one slot, and it fails for other reasons than
want of room. -/
def Progress.Modest (depth : Nat) : Progress → Prop
  | .next s => s.stack.length ≤ depth + 1
  | .halt _ => True
  | .fault f _ => f ≠ .insufficientStackSpace

theorem BinaryOp.apply_fault {op : BinaryOp} {g : Group} {x y : Slot} {f : Fault}
    (h : op.apply g x y = .error f) :
    f = .divideByZero ∨ f = .badOpTypes ∧ (Opcode.binary op).accepts g = false := by
  cases g <;> cases op <;> simp only [BinaryOp.apply, BinaryOp.onIntegers, BinaryOp.onSingles,
    BinaryOp.onDoubles, reduceCtorEq, Except.error.injEq] at h <;>
    first
    | exact .inr ⟨h.symm, rfl⟩
    | (split at h <;> (try split at h) <;> cases h; exact .inl rfl)

theorem State.push_modest {s : State} {depth : Nat} {v : Except Fault Slot}
    (hs : s.stack.length ≤ depth) (hv : v ≠ .error .insufficientStackSpace) :
    (s.push v).Modest depth := by
  cases v with
  | ok v => exact Nat.succ_le_succ hs
  | error f => exact fun hf => hv (congrArg _ hf)

theorem jump_modest {s : State} {depth d : Nat} (hs : s.stack.length ≤ depth) :
    (jump d s).Modest depth := by
  simp only [jump]
  split
  · rintro ⟨⟩
  · exact Nat.le_succ_of_le hs

theorem readMemory_modest {m : Machine} {a : Slot} {size depth : Nat} {s : State}
    (hs : s.stack.length ≤ depth) : (m.readMemory a size s).Modest depth := by
  simp only [readMemory]
  split
  · rintro ⟨⟩
  · split
    · rintro ⟨⟩
    · split
      · exact Nat.succ_le_succ hs
      · rintro ⟨⟩

theorem readBlock_fault {m : Machine} {offset : Slot} {size : Nat} {f : Fault}
    (h : m.readBlock offset size = .error f) : f = .badRegRead := by
  simp only [readBlock] at h
  split at h
  · cases h
    rfl
  · split at h <;> cases h
    rfl

theorem readRegister_fault {m : Machine} {operand : UInt64} {f : Fault}
    (h : m.readRegister operand = .error f) : f = .badRegRead := by
  simp only [readRegister] at h
  split at h
  · cases h
    rfl
  · split at h
    · cases h
      rfl
    · exact readBlock_fault h

theorem baseAddress_fault {m : Machine} {b : Base} {offset : UInt64} {f : Fault}
    (h : m.baseAddress b offset = .error f) : f = baseFault b := by
  simp only [baseAddress] at h
  split at h <;> cases h
  rfl

theorem length_sink (depth : Nat) (stack : List Slot) :
    (sink depth stack).length = stack.length := by
  cases stack with
  | nil => rfl
  | cons v rest => simp [sink]; omega

theorem pushes_le (op : Opcode) : op.pushes ≤ 1 := by
  cases op <;> simp [Opcode.pushes]

theorem perform_modest (m : Machine) (i : Instruction) (s : State) :
    (m.perform i s).Modest s.stack.length := by
  simp only [perform]
  split
  case h_1 => trivial
  case h_2 => exact Nat.le_succ _
  case h_3 hs =>
    simp only [hs, List.length_cons]
    split
    · exact jump_modest (Nat.le_succ _)
    · exact Nat.le_succ_of_le (Nat.le_succ _)
  case h_4 => exact jump_modest (Nat.le_refl _)
  case h_5 hs =>
    simp only [hs, List.length_cons]
    exact readMemory_modest (Nat.le_succ _)
  case h_6 => exact State.push_modest (Nat.le_refl _) (fun h => by cases readRegister_fault h)
  case h_7 hs =>
    simp only [hs, List.length_cons]
    exact State.push_modest (Nat.le_succ _) (fun h => by cases readBlock_fault h)
  case h_8 b hs =>
    refine State.push_modest (Nat.le_refl _) ?_
    intro h
    cases b <;> cases baseAddress_fault h
  case h_9 => exact State.push_modest (Nat.le_refl _) (by rintro ⟨⟩)
  case h_11 hs =>
    simp only [hs, List.length_cons]
    exact State.push_modest (Nat.le_succ_of_le (Nat.le_succ _))
      (fun h => by obtain hf | ⟨hf, -⟩ := BinaryOp.apply_fault h <;> cases hf)
  case h_12 hs =>
    simp only [hs, List.length_cons]
    exact State.push_modest (Nat.le_succ_of_le (Nat.le_succ _)) (by rintro ⟨⟩)
  case h_15 hs =>
    simp only [hs, List.length_cons]
    split
    · exact State.push_modest (Nat.le_succ _) (by rintro ⟨⟩)
    · rintro ⟨⟩
  case h_16 =>
    split
    · exact State.push_modest (Nat.le_refl _) (by rintro ⟨⟩)
    · rintro ⟨⟩
  case h_17 hs =>
    simp only [hs, List.length_cons]
    exact Nat.le_succ_of_le (Nat.le_succ _)
  case h_18 =>
    split
    · rintro ⟨⟩
    · exact Nat.le_succ_of_le (Nat.le_of_eq (length_sink _ _))
  case h_19 => rintro ⟨⟩
  all_goals
    rename_i hs
    simp only [hs, List.length_cons]
    exact State.push_modest (Nat.le_succ _) (by rintro ⟨⟩)

theorem drive_ne_overflow {m : Machine} {s : State}
    (h : s.stack.length + s.code.length ≤ m.capacity) (reads : List MemoryRead) :
    m.drive s ≠ .fault .insufficientStackSpace reads := by
  induction s using State.inductionOn m with
  | nil stack reads => simp only [drive_nil]; rintro ⟨⟩
  | cons b rest stack reads ih =>
    simp only [List.length_cons] at h
    rw [drive_cons]
    have hs : (m.step b rest ⟨b :: rest, stack, reads⟩).Modest stack.length := by
      simp only [step]
      split
      · rintro ⟨⟩
      · rename_i i after hd
        split
        · rename_i f hf
          simp only [check] at hf
          split at hf
          · cases hf; rintro ⟨⟩
          · split at hf
            · cases hf; rintro ⟨⟩
            · split at hf
              · rename_i hc
                have := pushes_le i.op
                omega
              · cases hf
        · exact perform_modest _ _ _
    cases ht : m.step b rest ⟨b :: rest, stack, reads⟩ with
    | next t =>
      rw [ht] at hs
      have hs' : t.stack.length ≤ stack.length + 1 := hs
      have hl := length_of_step ht
      exact ih t ht (by omega)
    | halt t => rintro ⟨⟩
    | fault f reads' =>
      rw [ht] at hs
      intro he
      cases he
      exact hs rfl

end Machine

end WatchExpr
