import WatchExpr.Proofs.Tree.Operands

namespace WatchExpr

namespace Fragment

/-- A fragment that stands for one value, which does not depend on the slots below. -/
structure Isolated (code : List UInt8) : Prop where
  selfContained : SelfContained code
  result : ∀ (t : Option Target) (layout : Arch) (pending : List Slot),
    (value t layout code pending).result = (value t layout code []).result

/-- A fragment that never goes wrong on its own finds all its operands there, so it does not look at
the slots below. -/
theorem Harmless.isolated {code : List UInt8} (h : Harmless code) : Isolated code where
  selfContained := h.selfContained
  result t layout pending := by
    have hend : (∃ f log, f ≠ .badOp ∧
          (Machine.mk t layout code.length).drive { code } = .fault f log) ∨
        ∃ v log, (Machine.mk t layout code.length).drive { code } = .halt ⟨[], [v], log⟩ := by
      obtain ⟨f, log, hf, hd⟩ | ⟨v, log, hd⟩ := h ⟨t, layout, code.length⟩ [] [] (Nat.zero_le _)
      · refine .inl ⟨f, log, ?_, ?_⟩
        · rintro rfl
          exact hf (by decide)
        · rw [← hd [], List.append_nil]
      · refine .inr ⟨v, log, ?_⟩
        rw [← Machine.drive_nil, ← hd [], List.append_nil]
    have hn (reads : List MemoryRead) :
        (Machine.mk t layout code.length).drive { code } ≠ .fault .badOp reads := by
      intro hb
      obtain ⟨f, log, hf, hd⟩ | ⟨v, log, hd⟩ := hend
      · rw [hd] at hb
        cases hb
        exact hf rfl
      · rw [hd] at hb
        cases hb
    have habove := Machine.drive_above _ pending { code } hn
    simp only [List.nil_append] at habove
    simp only [value, List.length_nil, Nat.zero_add, Nat.add_comm pending.length, habove]
    obtain ⟨f, log, -, hd⟩ | ⟨v, log, hd⟩ := hend
    · rw [hd]
      rfl
    · rw [hd]
      rfl

end Fragment

theorem Computation.result_bind_congr {α β : Type} {x x' : Computation α}
    {f f' : α → Computation β} (hx : x.result = x'.result)
    (hf : ∀ a, (f a).result = (f' a).result) : (x >>= f).result = (x' >>= f').result := by
  cases h : x.result with
  | ok a =>
    rw [bind_ok h, bind_ok (hx.symm.trans h)]
    exact hf a
  | error e => rw [bind_error h, bind_error (hx.symm.trans h)]

namespace Node

variable {n x y : Node}

/-- The value of a tree does not depend on the operands that are pending. -/
theorem Built.result_eval (h : n.Built Fragment.Isolated) (t : Option Target) (layout : Arch)
    (pending : List Slot) :
    (n.eval t layout pending).result = (n.eval t layout []).result := by
  induction n generalizing pending with
  | missing => rfl
  | const v signed => rfl
  | unary op g x ih =>
    apply Computation.result_bind_congr (ih h.2 pending)
    intro a
    rfl
  | binary op g x y ihx ihy =>
    apply Computation.result_bind_congr (ihx h.2.1 pending)
    intro a
    apply Computation.result_bind_congr
    · rw [ihy h.2.2 (a :: pending), ihy h.2.2 [a]]
    · intro b
      rfl
  | cond c yes no ihc ihyes ihno =>
    apply Computation.result_bind_congr (ihc h.1 pending)
    intro v
    split
    · exact ihyes h.2.1 pending
    · exact ihno h.2.2 pending
  | read size a ih =>
    apply Computation.result_bind_congr (ih h pending)
    intro address
    rfl
  | register o ih =>
    apply Computation.result_bind_congr (ih h pending)
    intro offset
    rfl
  | convert source result x ih =>
    apply Computation.result_bind_congr (ih h.2.2 pending)
    intro v
    rfl
  | trunc bits signed x ih =>
    apply Computation.result_bind_congr (ih h pending)
    intro v
    rfl
  | splice code => exact h.result t layout pending

def sum (x y : Node) : Node := .binary (.binary .add) .u x y

theorem Built.sum {p : List UInt8 → Prop} (hx : x.Built p) (hy : y.Built p) : (sum x y).Built p :=
  ⟨.inl ⟨_, rfl⟩, hx, hy⟩

theorem result_sum_eq_ok (hy : y.Built Fragment.Isolated) (t : Option Target) (layout : Arch)
    (v : Slot) :
    ((sum x y).eval t layout []).result = .ok v ↔
      ∃ a b, (x.eval t layout []).result = .ok a ∧ (y.eval t layout []).result = .ok b ∧
        a + b = v := by
  constructor
  · intro h
    obtain ⟨a, ha, h⟩ := Computation.result_bind_ok h
    obtain ⟨b, hb, h⟩ := Computation.result_bind_ok h
    rw [hy.result_eval t layout [a]] at hb
    cases h
    exact ⟨a, b, ha, hb, rfl⟩
  · rintro ⟨a, b, ha, hb, rfl⟩
    rw [← hy.result_eval t layout [a]] at hb
    simp only [sum, eval, Computation.bind_ok ha, Computation.bind_ok hb]
    rfl

theorem emit_sum : (∃ code, (sum x y).emit = .ok code) ↔
    (∃ code, x.emit = .ok code) ∧ ∃ code, y.emit = .ok code := by
  constructor
  · rintro ⟨code, h⟩
    obtain ⟨cx, hcx, h⟩ := bind_eq_ok h
    obtain ⟨cy, hcy, -⟩ := bind_eq_ok h
    exact ⟨⟨cx, hcx⟩, cy, hcy⟩
  · rintro ⟨⟨cx, hcx⟩, cy, hcy⟩
    refine ⟨cx ++ cy ++ Code.emitGroup [] (.binary .add) .u, ?_⟩
    simp only [sum, emit, hcx, hcy]
    rfl

theorem Built.encode_iff_emit {p : List UInt8 → Prop} (h : n.Built p) :
    (∃ code, n.encode = .ok code) ↔ ∃ code, n.emit = .ok code := by
  constructor
  · rintro ⟨code, he⟩
    exact ⟨code, emit_of_encode he⟩
  · rintro ⟨code, he⟩
    exact ⟨code, h.encode_of_emit he⟩

/-- Two trees that stand for one address: both have a program or none, and given room the programs
succeed on the same targets and leave the same slot. -/
def SameAddress (n n' : Node) : Prop :=
  ((∃ code, n.encode = .ok code) ↔ ∃ code, n'.encode = .ok code) ∧
  ∀ code code', n.encode = .ok code → n'.encode = .ok code' →
    ∀ m : Machine, n.need ≤ m.capacity → n'.need ≤ m.capacity →
      ∀ v, (m.execute code).result = .ok v ↔ (m.execute code').result = .ok v

theorem sameAddress_sum_comm (hx : x.Built Fragment.Isolated) (hy : y.Built Fragment.Isolated) :
    SameAddress (sum x y) (sum y x) := by
  have hxy := hx.sum hy
  have hyx := hy.sum hx
  constructor
  · rw [hxy.encode_iff_emit, hyx.encode_iff_emit, emit_sum, emit_sum, and_comm]
  · intro code code' he he' m hm hm' v
    have hw := hxy.wellFormed fun _ h => h.selfContained
    have hw' := hyx.wellFormed fun _ h => h.selfContained
    rw [execute_emit m hw (emit_of_encode he) hm, execute_emit m hw' (emit_of_encode he') hm']
    simp only [Computation.outcome, result_sum_eq_ok hx, result_sum_eq_ok hy]
    constructor
    · rintro ⟨a, b, ha, hb, rfl⟩
      exact ⟨b, a, hb, ha, UInt64.add_comm b a⟩
    · rintro ⟨b, a, hb, ha, rfl⟩
      exact ⟨a, b, ha, hb, UInt64.add_comm a b⟩

end Node

end WatchExpr
