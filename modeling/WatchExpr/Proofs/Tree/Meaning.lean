import WatchExpr.Proofs.Machine.Fragment

namespace WatchExpr

namespace Node

/-- The value of a tree on pending operands, top first. A group counts by its byte. -/
def eval (t : Option Target) (layout : Arch) : Node → (pending : List Slot) → Computation Slot
  | missing, _ => .fail .badOp
  | const v _, _ => pure v
  | unary op g x, pending => do
    let a ← x.eval t layout pending
    match op with
    | .unary o => pure (o.apply g a)
    | _ => .fail .badOp
  | binary op g x y, pending => do
    let a ← x.eval t layout pending
    let b ← y.eval t layout (a :: pending)
    match op with
    | .binary o => .ofResult (o.apply g a b)
    | .compare o => pure (Slot.ofBool (o.apply g a b))
    | _ => .fail .badOp
  | cond c yes no, pending => do
    let v ← c.eval t layout pending
    if Slot.isTrue v then yes.eval t layout pending else no.eval t layout pending
  | read size a, pending => do
    let address ← a.eval t layout pending
    Target.loadWord t address size.toNat
  | register o, pending => do
    let offset ← o.eval t layout pending
    Target.loadBlock t offset layout.pointerSize
  | convert source result x, pending => do
    let v ← x.eval t layout pending
    let source := Group.ofByte source.toByte
    let result := Group.ofByte result.toByte
    if source.isScalar && result.isScalar then pure (Slot.convert source result v)
    else .fail .badOpTypes
  | trunc bits signed x, pending => do
    let v ← x.eval t layout pending
    pure (if signed then Slot.signExtend bits.toNat v else Slot.truncate bits.toNat v)
  | splice code, pending => Fragment.value t layout code pending

/-- The stack a tree needs above the operands that are pending. -/
noncomputable def need : Node → Nat
  | missing | const .. => 1
  | unary _ _ x | read _ x | register x | convert _ _ x | trunc _ _ x => x.need
  | binary _ _ x y => max x.need (1 + y.need)
  | cond c yes no => max c.need (max yes.need no.need)
  | splice code => max 1 (Fragment.room code)

theorem one_le_need (n : Node) : 1 ≤ n.need := by
  induction n with
  | missing => exact Nat.le_refl _
  | const => exact Nat.le_refl _
  | binary op g x y ihx ihy => exact Nat.le_trans ihx (Nat.le_max_left _ _)
  | cond c yes no ihc ihyes ihno => exact Nat.le_trans ihc (Nat.le_max_left _ _)
  | splice code => exact Nat.le_max_left _ _
  | unary _ _ x ih => exact ih
  | read _ x ih => exact ih
  | register x ih => exact ih
  | convert _ _ x ih => exact ih
  | trunc _ _ x ih => exact ih

/-- Operations carry opcodes of their arity, and fragments are self-contained. -/
def WellFormed : Node → Prop
  | missing | const .. => True
  | unary op _ x => (∃ o, op = .unary o) ∧ x.WellFormed
  | binary op _ x y => ((∃ o, op = .binary o) ∨ ∃ o, op = .compare o) ∧ x.WellFormed ∧ y.WellFormed
  | cond c yes no => c.WellFormed ∧ yes.WellFormed ∧ no.WellFormed
  | read _ x | register x | convert _ _ x | trunc _ _ x => x.WellFormed
  | splice code => Fragment.SelfContained code

end Node

end WatchExpr
