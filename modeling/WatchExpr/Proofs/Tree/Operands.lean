import WatchExpr.Proofs.Lowering.Built
import WatchExpr.Proofs.Tree.JumpLimit

namespace WatchExpr

namespace Outcome

/-- A run that leaves a value and reads nothing. -/
def ofValue (v : Slot) : Outcome := ⟨.ok v, []⟩

/-- A run that goes on from the value of another. A failure ends both. -/
def andThen (o : Outcome) (next : Slot → Outcome) : Outcome :=
  match o.result with
  | .ok v => ⟨(next v).result, o.reads ++ (next v).reads⟩
  | .error f => ⟨.error f, o.reads⟩

theorem andThen_of_failed {o : Outcome} {next : Slot → Outcome} {f : Fault}
    (h : o.status = .failed f) : o.andThen next = o := by
  obtain ⟨result, reads⟩ := o
  cases result with
  | ok v => cases h
  | error f => rfl

end Outcome

namespace Computation

theorem outcome_bind (x : Computation Slot) (f : Slot → Computation Slot) :
    (x >>= f).outcome = x.outcome.andThen fun v => (f v).outcome := by
  cases hx : x.result with
  | ok v => simp only [bind_ok hx, outcome, Outcome.andThen, hx]
  | error f => simp only [bind_error hx, outcome, Outcome.andThen, hx]

end Computation

namespace Node

variable {p : List UInt8 → Prop} {n : Node} {code : List UInt8}

theorem Built.admissible (h : n.Built p) (he : n.emit = .ok code) :
    ∀ m ∈ n.subtrees, m.Admissible := by
  induction n generalizing code with
  | missing => cases he
  | const v signed => simp [subtrees, Admissible]
  | unary op g x ih =>
    obtain ⟨⟨o, rfl⟩, hx⟩ := h
    obtain ⟨cx, hcx, he⟩ := bind_eq_ok he
    obtain ⟨cg, hcg, -⟩ := bind_eq_ok he
    simp only [subtrees, List.forall_mem_cons]
    exact ⟨⟨rfl, (encodeGroup_eq_ok hcg).1⟩, ih hx hcx⟩
  | binary op g x y ihx ihy =>
    obtain ⟨hop, hx, hy⟩ := h
    obtain ⟨cx, hcx, he⟩ := bind_eq_ok he
    obtain ⟨cy, hcy, he⟩ := bind_eq_ok he
    obtain ⟨cg, hcg, -⟩ := bind_eq_ok he
    have hg : op.hasGroup := by
      obtain ⟨o, rfl⟩ | ⟨o, rfl⟩ := hop
      · rfl
      · rfl
    simp only [subtrees, List.forall_mem_cons, List.forall_mem_append]
    exact ⟨⟨hg, (encodeGroup_eq_ok hcg).1⟩, ihx hx hcx, ihy hy hcy⟩
  | cond c yes no ihc ihyes ihno =>
    obtain ⟨hc, hyes, hno⟩ := h
    obtain ⟨cc, hcc, he⟩ := bind_eq_ok he
    obtain ⟨cno, hcno, he⟩ := bind_eq_ok he
    obtain ⟨toYes, -, he⟩ := bind_eq_ok he
    obtain ⟨cyes, hcyes, -⟩ := bind_eq_ok he
    simp only [subtrees, List.forall_mem_cons, List.forall_mem_append]
    exact ⟨trivial, ⟨ihc hc hcc, ihyes hyes hcyes⟩, ihno hno hcno⟩
  | read size a ih =>
    simp only [emit] at he
    split at he
    · cases he
    · rename_i hs
      rw [not_or, UInt8.not_lt, UInt8.not_lt] at hs
      obtain ⟨ca, hca, -⟩ := bind_eq_ok he
      simp only [subtrees, List.forall_mem_cons]
      exact ⟨hs, ih h hca⟩
  | register o ih =>
    obtain ⟨co, hco, -⟩ := bind_eq_ok he
    simp only [subtrees, List.forall_mem_cons]
    exact ⟨trivial, ih h hco⟩
  | convert source result x ih =>
    obtain ⟨cx, hcx, -⟩ := bind_eq_ok he
    simp only [subtrees, List.forall_mem_cons]
    exact ⟨trivial, ih h.2.2 hcx⟩
  | trunc bits signed x ih =>
    obtain ⟨cx, hcx, -⟩ := bind_eq_ok he
    simp only [subtrees, List.forall_mem_cons]
    exact ⟨trivial, ih h hcx⟩
  | splice fragment =>
    simp only [emit] at he
    split at he
    · rename_i hv
      simpa [subtrees, Admissible] using hv
    · cases he

theorem Built.encode_of_emit (h : n.Built p) (he : n.emit = .ok code) : n.encode = .ok code := by
  have ha := h.admissible he
  rw [emit_eq ha] at he
  rw [encode_eq_ite ha, he]

end Node

end WatchExpr
