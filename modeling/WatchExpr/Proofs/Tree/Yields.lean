import WatchExpr.Proofs.Tree.Meaning
import WatchExpr.Proofs.Types.Range

namespace WatchExpr

namespace Node

/-- All results of a tree have a property, whatever the target and the operands pending. -/
def Yields (n : Node) (P : Slot → Prop) : Prop :=
  ∀ (t : Option Target) (layout : Arch) (pending : List Slot) (v : Slot),
    (n.eval t layout pending).result = .ok v → P v

variable {P Q : Slot → Prop} {n x y c yes no : Node}

theorem Yields.mono (h : n.Yields P) (hPQ : ∀ v, P v → Q v) : n.Yields Q := by
  intro t layout pending v hv
  exact hPQ v (h t layout pending v hv)

theorem yields_missing : missing.Yields P := by
  intro t layout pending v hv
  cases hv

theorem yields_const {v : UInt64} {signed : Bool} (h : P v) : (const v signed).Yields P := by
  intro t layout pending w hw
  cases hw
  exact h

theorem yields_unary {o : UnaryOp} {g : Group} (h : ∀ a, P (o.apply g a)) :
    (unary (.unary o) g x).Yields P := by
  intro t layout pending v hv
  obtain ⟨a, -, hv⟩ := Computation.result_bind_ok hv
  cases hv
  exact h a

theorem yields_compare {o : Comparison} {g : Group} (h : ∀ b, P (Slot.ofBool b)) :
    (binary (.compare o) g x y).Yields P := by
  intro t layout pending v hv
  obtain ⟨a, -, hv⟩ := Computation.result_bind_ok hv
  obtain ⟨b, -, hv⟩ := Computation.result_bind_ok hv
  cases hv
  exact h _

theorem yields_binary {o : BinaryOp} {g : Group} (hx : x.Yields P) (hy : y.Yields Q)
    {R : Slot → Prop} (h : ∀ a b v, P a → Q b → o.apply g a b = .ok v → R v) :
    (binary (.binary o) g x y).Yields R := by
  intro t layout pending v hv
  obtain ⟨a, ha, hv⟩ := Computation.result_bind_ok hv
  obtain ⟨b, hb, hv⟩ := Computation.result_bind_ok hv
  exact h a b v (hx _ _ _ a ha) (hy _ _ _ b hb) hv

theorem yields_cond (hyes : yes.Yields P) (hno : no.Yields P) : (cond c yes no).Yields P := by
  intro t layout pending v hv
  obtain ⟨a, -, hv⟩ := Computation.result_bind_ok hv
  split at hv
  · exact hyes _ _ _ v hv
  · exact hno _ _ _ v hv

/-- Remainders, right shifts and bitwise operations need no narrowing. -/
theorem yields_closed {b : BasicKind} {o : BinaryOp} {x y : Node}
    (ho : o ∈ [.mod, .shr, .bitAnd, .bitXor, .bitOr]) (hb : b.IsNarrow)
    (hx : x.Yields fun v => b.extend v = v)
    (hy : o.isShift = false → y.Yields fun v => b.extend v = v) :
    (binary (.binary o) b.group x y).Yields fun v => b.extend v = v := by
  have hy' : y.Yields fun v => o.isShift = false → b.extend v = v := by
    intro t layout pending v hv hs
    exact hy hs t layout pending v hv
  refine yields_binary hx hy' ?_
  intro a c v ha hc hv
  obtain ⟨i, hi, rfl⟩ := (BasicKind.extend_eq_self_iff hb.isWord).1 ha
  obtain ⟨j, hj, rfl⟩ : ∃ j, (o.isShift = false → b.InRange j) ∧ c = Slot.ofInt j := by
    by_cases hs : o.isShift = false
    · obtain ⟨j, hj, rfl⟩ := (BasicKind.extend_eq_self_iff hb.isWord).1 (hc hs)
      exact ⟨j, fun _ => hj, rfl⟩
    · exact ⟨c.toInt, fun h => absurd h hs, (Slot.ofInt_toInt c).symm⟩
  rw [BinaryOp.apply_group hb.isWord, BinaryOp.onIntegers_ofInt o (hi.holds hb.isWord)
    fun hs => (hj hs).holds hb.isWord] at hv
  cases hr : o.onInts i j with
  | error f =>
    rw [hr] at hv
    cases hv
  | ok r =>
    rw [hr] at hv
    cases hv
    exact (BasicKind.extend_eq_self_iff hb.isWord).2 ⟨r, hi.onInts hj ho hr, rfl⟩

end Node

end WatchExpr
