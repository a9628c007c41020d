import WatchExpr.Proofs.Machine.Dependence

namespace WatchExpr

namespace Machine

section
variable {m : Machine} {n : Nat}

/-- A step with less room overflows before it reads anything, or it is the step with more. -/
theorem step_room (h : m.capacity ≤ n) (b : UInt8) (rest : List UInt8) (s : State) :
    m.step b rest s = .fault .insufficientStackSpace s.reads ∨
      ({ m with capacity := n } : Machine).step b rest s = m.step b rest s := by
  by_cases hs : m.step b rest s = .fault .insufficientStackSpace s.reads
  · exact .inl hs
  · exact .inr (step_capacity h hs)

/-- A run with less room overflows while it is still reading what the run with more room reads, or
it is that run. -/
theorem drive_room (h : m.capacity ≤ n) (s : State) :
    (∃ reads, m.drive s = .fault .insufficientStackSpace reads ∧
        reads <+: (({ m with capacity := n } : Machine).drive s).reads) ∨
      ({ m with capacity := n } : Machine).drive s = m.drive s := by
  induction s using State.inductionOn m with
  | nil stack reads => exact .inr (by rw [drive_nil, drive_nil])
  | cons b rest stack reads ih =>
    obtain hs | hs := step_room h b rest ⟨b :: rest, stack, reads⟩
    · have hfault : m.drive ⟨b :: rest, stack, reads⟩ = .fault .insufficientStackSpace reads := by
        rw [drive_cons, hs]
        rfl
      exact .inl ⟨reads, hfault, prefix_reads_drive _ ⟨b :: rest, stack, reads⟩⟩
    · simp only [drive_cons, hs]
      cases ht : m.step b rest ⟨b :: rest, stack, reads⟩ with
      | next t => exact ih t ht
      | halt t => exact .inr rfl
      | fault f log => exact .inr rfl

theorem prefix_reads_execute (h : m.capacity ≤ n) (code : List UInt8) :
    (m.execute code).reads <+: (({ m with capacity := n } : Machine).execute code).reads := by
  simp only [execute, run_eq_drive, Progress.reads_outcome]
  obtain ⟨reads, hf, hp⟩ | hd := drive_room h { code }
  · rw [hf]
    exact hp
  · exact hd ▸ List.prefix_refl _

/-- Room for a slot for each byte of the code is always enough. -/
theorem status_execute_ne_overflow {code : List UInt8} (h : code.length ≤ m.capacity) :
    (m.execute code).status ≠ .failed .insufficientStackSpace := by
  have hne := drive_ne_overflow (m := m) (s := { code }) (by simpa using h)
  have hfinish (s : State) : s.finish.status ≠ .failed .insufficientStackSpace := by
    simp only [State.finish]
    split <;> rintro ⟨⟩
  simp only [execute, run_eq_drive]
  cases hd : m.drive { code } with
  | next s => exact hfinish s
  | halt s => exact hfinish s
  | fault f reads =>
    rintro ⟨⟩
    exact hne reads hd

end

theorem stackCapacity_eq_toNat {c : Int} (h : 0 < c) : stackCapacity c = c.toNat := by
  rw [stackCapacity, if_neg (by omega)]

/-- More room changes nothing but an overflow. Whatever the bytes of the code and the target, a run
that does not overflow ends with more room as it does with less: with the same status and value,
after the same reads. A run that overflows has read the beginning of what it reads with more room,
and one slot for each byte of the code is always room enough. -/
theorem execute_eq_of_stackCapacity_le (code : List UInt8) (target : Option Target) (layout : Arch)
    {c c' : Int} (hpos : 0 < c) (hle : c ≤ c') :
    ((execute ⟨target, layout, stackCapacity c⟩ code).status ≠ .failed .insufficientStackSpace →
      execute ⟨target, layout, stackCapacity c'⟩ code =
        execute ⟨target, layout, stackCapacity c⟩ code) ∧
    (execute ⟨target, layout, stackCapacity c⟩ code).reads <+:
      (execute ⟨target, layout, stackCapacity c'⟩ code).reads ∧
    (code.length ≤ c' →
      (execute ⟨target, layout, stackCapacity c'⟩ code).status ≠
        .failed .insufficientStackSpace) := by
  have hroom : (⟨target, layout, stackCapacity c⟩ : Machine).capacity ≤ stackCapacity c' := by
    simp only [stackCapacity_eq_toNat hpos, stackCapacity_eq_toNat (Int.lt_of_lt_of_le hpos hle)]
    exact Int.toNat_le_toNat hle
  refine ⟨?_, prefix_reads_execute hroom code, ?_⟩
  · intro hstatus
    simp only [execute, run_eq_drive] at hstatus ⊢
    obtain ⟨reads, hf, -⟩ | hd := drive_room hroom { code }
    · rw [hf] at hstatus
      exact absurd rfl hstatus
    · rw [hd]
  · intro hlen
    apply status_execute_ne_overflow
    show code.length ≤ stackCapacity c'
    rw [stackCapacity_eq_toNat (Int.lt_of_lt_of_le hpos hle)]
    omega

/-- Adds one to what the program that follows a pointer in the frame leaves. -/
def flaggedSum : List UInt8 := flaggedRead ++ [10, 1, 18, 1]

/-- One slot is too little for the sum, and the run finds out after its reads. Two are enough, and
three change nothing. -/
theorem execute_flaggedSum :
    (execute ⟨some liveTarget, .x64, stackCapacity 1⟩ flaggedSum).status =
      .failed .insufficientStackSpace ∧
    (execute ⟨some liveTarget, .x64, stackCapacity 1⟩ flaggedSum).reads =
      [⟨0x4000, 8⟩, ⟨0x5000, 1⟩] ∧
    (0 : Int) < 2 ∧ (2 : Int) ≤ 3 ∧
    (execute ⟨some liveTarget, .x64, stackCapacity 2⟩ flaggedSum).status ≠
      .failed .insufficientStackSpace ∧
    (execute ⟨some liveTarget, .x64, stackCapacity 2⟩ flaggedSum).value = 43 ∧
    execute ⟨some liveTarget, .x64, stackCapacity 3⟩ flaggedSum =
      execute ⟨some liveTarget, .x64, stackCapacity 2⟩ flaggedSum := by
  have h : (execute ⟨some liveTarget, .x64, stackCapacity 2⟩ flaggedSum).status ≠
      .failed .insufficientStackSpace := by
    decide +kernel
  exact ⟨by decide +kernel, by decide +kernel, by decide, by decide, h, by decide +kernel,
    (execute_eq_of_stackCapacity_le flaggedSum (some liveTarget) .x64
      (by decide : (0 : Int) < 2) (by decide : (2 : Int) ≤ 3)).1 h⟩

end Machine

end WatchExpr
