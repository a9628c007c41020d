import WatchExpr.Proofs.Lowering.Conversion
import WatchExpr.Proofs.Tree.Operands

namespace WatchExpr

theorem Slot.isTrue_ofBool (b : Bool) : Slot.isTrue (Slot.ofBool b) = b := by
  cases b <;> rfl

theorem Slot.isTrue_of_not_isFloat {g : Group} (h : g.isFloat = false) (v : Slot) :
    Slot.isTrue v = !Slot.isZero g v := by
  cases g <;> first | rfl | cases h

namespace Lowering

def operand (x : Expr) : M (Option Lowered) := do asValue x.start (← lower x)

structure HasProgram (x : Expr) (s : State) (v : Lowered) (code : List UInt8) (s' : State) :
    Prop where
  run : (operand x).run s = (some v, s')
  encode : v.node.encode = .ok code

section
variable {t : TypeTable} {x : Lowered} {target : Option Target} {layout : Arch}
  {pending : List Slot}

theorem eval_cond_testOf (yes no : Node) :
    (Node.cond (testOf t x) yes no).eval target layout pending =
      x.node.eval target layout pending >>= fun v =>
        if Slot.isZero (t.scalarGroup x.type) v then no.eval target layout pending
        else yes.eval target layout pending := by
  simp only [testOf, Node.eval]
  cases hg : (t.scalarGroup x.type).isFloat with
  | true =>
    simp only [if_true, TypeTable.eval_differsFromZero, bind_assoc, pure_bind, Slot.isTrue_ofBool]
    apply bind_congr
    intro v
    cases Slot.isZero (t.scalarGroup x.type) v <;> rfl
  | false =>
    simp only [Bool.false_eq_true, if_false, Slot.isTrue_of_not_isFloat hg]
    apply bind_congr
    intro v
    cases Slot.isZero (t.scalarGroup x.type) v <;> rfl

end

section
variable {s s' : State} {r v : Lowered} {code : List UInt8} {x y c yes no : Expr} {span : Span}

theorem operand_run {o w : Option Lowered} {s₁ s₂ : State} (h : (lower x).run s = (o, s₁))
    (hv : (asValue x.start o).run s₁ = (w, s₂)) : (operand x).run s = (w, s₂) := by
  change (asValue x.start ((lower x).run s).1).run ((lower x).run s).2 = _
  rw [h]
  exact hv

theorem operands_run {op : InfixOp} (h : (lower (.binary span op x y)).run s = (some r, s')) :
    ∃ vx s₁ vy s₂, (operand x).run s = (some vx, s₁) ∧ (operand y).run s₁ = (some vy, s₂) ∧
      (lowerBinary span.start op vx vy).run s₂ = (some r, s') := by
  obtain ⟨ox, s₁, hx, h₁⟩ := bind_run h
  obtain ⟨wx, s₂, hvx, h₂⟩ := bind_run h₁
  obtain ⟨oy, s₃, hy, h₃⟩ := bind_run h₂
  obtain ⟨wy, s₄, hvy, h₄⟩ := bind_run h₃
  split at h₄
  · exact ⟨_, s₂, _, s₄, operand_run hx hvx, operand_run hy hvy, h₄⟩
  · cases congrArg Prod.fst h₄

theorem binary_run {op : InfixOp} (h : (lower (.binary span op x y)).run s = (some r, s')) :
    ∃ vx s₁ vy, (operand x).run s = (some vx, s₁) ∧ (operand y).run s₁ = (some vy, s') ∧
      BinaryRule s'.types op vx vy r := by
  obtain ⟨vx, s₁, vy, s₂, hx, hy, h₂⟩ := operands_run h
  obtain ⟨rfl, hr⟩ := lowerBinary_run h₂
  exact ⟨vx, s₁, vy, hx, hy, hr⟩

theorem ternary_run (h : (lower (.ternary span c yes no)).run s = (some r, s')) :
    ∃ vc s₁ vyes s₂ vno, (operand c).run s = (some vc, s₁) ∧
      (operand yes).run s₁ = (some vyes, s₂) ∧ (operand no).run s₂ = (some vno, s') ∧
      TernaryRule s'.types vc vyes vno r := by
  obtain ⟨oc, s₁, hc, h₁⟩ := bind_run h
  obtain ⟨wc, s₂, hvc, h₂⟩ := bind_run h₁
  obtain ⟨oy, s₃, hy, h₃⟩ := bind_run h₂
  obtain ⟨wy, s₄, hvy, h₄⟩ := bind_run h₃
  obtain ⟨on, s₅, hn, h₅⟩ := bind_run h₄
  obtain ⟨wn, s₆, hvn, h₆⟩ := bind_run h₅
  split at h₆
  · obtain ⟨rfl, hr⟩ := lowerTernary_run h₆
    exact ⟨_, s₂, _, s₄, _, operand_run hc hvc, operand_run hy hvy, operand_run hn hvn, hr⟩
  · cases congrArg Prod.fst h₆

theorem built_operand {p : List UInt8 → Prop} (h : (operand x).run s = (some v, s'))
    (ha : x.Atoms (FragmentHas p)) : v.node.Built p := by
  obtain ⟨o, s₁, hx, hv⟩ := bind_run h
  obtain ⟨rx, rfl, hl⟩ := asValue_run hv
  exact TypeTable.built_load ((lowers_of_run hx).built ha) hl

/-- An operand that was emitted has a program, which runs as its tree does. -/
theorem exists_program (ha : x.Atoms (FragmentHas Fragment.SelfContained))
    (h : (operand x).run s = (some v, s')) (he : ∃ code, v.node.emit = .ok code) :
    ∃ code, HasProgram x s v code s' ∧ ∀ m : Machine, v.node.need ≤ m.capacity →
      m.execute code = (v.node.eval m.target m.layout []).outcome := by
  obtain ⟨code, he⟩ := he
  have hb := built_operand h ha
  exact ⟨code, ⟨h, hb.encode_of_emit he⟩, fun m =>
    Node.execute_emit m (hb.wellFormed fun _ hc => hc) he⟩

theorem emit_of_testOf {t : TypeTable} {x : Lowered} (h : (testOf t x).emit = .ok code) :
    ∃ code, x.node.emit = .ok code := by
  rw [testOf] at h
  split at h
  · exact TypeTable.emit_of_differsFromZero h
  · exact ⟨code, h⟩

theorem need_le_testOf (t : TypeTable) (x : Lowered) : x.node.need ≤ (testOf t x).need := by
  rw [testOf]
  split
  · exact TypeTable.need_le_differsFromZero _ _
  · exact Nat.le_refl _

theorem need_cond_le {c yes no : Node} {n : Nat} :
    (Node.cond c yes no).need ≤ n ↔ c.need ≤ n ∧ yes.need ≤ n ∧ no.need ≤ n := by
  simp only [Node.need, max_le_iff]

theorem emit_of_cond {c yes no : Node} (h : (Node.cond c yes no).emit = .ok code) :
    (∃ code, c.emit = .ok code) ∧ (∃ code, yes.emit = .ok code) ∧ ∃ code, no.emit = .ok code := by
  obtain ⟨cc, hcc, he⟩ := Node.bind_eq_ok h
  obtain ⟨cno, hcno, he⟩ := Node.bind_eq_ok he
  obtain ⟨toYes, -, he⟩ := Node.bind_eq_ok he
  obtain ⟨cyes, hcyes, -⟩ := Node.bind_eq_ok he
  exact ⟨⟨cc, hcc⟩, ⟨cyes, hcyes⟩, cno, hcno⟩

theorem BinaryRule.eq_of_logAnd {t : TypeTable} {x y : Lowered} (h : BinaryRule t .logAnd x y r) :
    r = truthOf (.cond (testOf t x) (TypeTable.differsFromZero (t.scalarGroup y.type) y.node)
      (.unsigned 0)) := by
  cases h with
  | conjunction => rfl
  | pointerCompare hop => cases hop
  | compare hop => cases hop
  | wrapping hop => cases hop
  | closed hop => simp at hop

theorem BinaryRule.eq_of_logOr {t : TypeTable} {x y : Lowered} (h : BinaryRule t .logOr x y r) :
    r = truthOf (.cond (testOf t x) (.unsigned 1)
      (TypeTable.differsFromZero (t.scalarGroup y.type) y.node)) := by
  cases h with
  | disjunction => rfl
  | pointerCompare hop => cases hop
  | compare hop => cases hop
  | wrapping hop => cases hop
  | closed hop => simp at hop

/-- A tree gives the value of another, converted to a type. -/
structure Converts (t : TypeTable) (v : Lowered) (k : TypeKey) (n : Node) : Prop where
  emit : ∃ code, v.node.emit = .ok code
  need : v.node.need ≤ n.need
  eval (target : Option Target) (layout : Arch) (pending : List Slot) :
    n.eval target layout pending =
      v.node.eval target layout pending >>= fun w => pure (t.convertSlot v.type k w)

theorem converts_converted {t : TypeTable} {v : Lowered} {k : TypeKey} {b : BasicKind}
    (hv : t.isArithmetic v.type) (hk : (t.unwrapEnum k).kind = .basic b) (hb : b.group ≠ .other)
    (he : (t.converted v k).emit = .ok code) : Converts t v k (t.converted v k) where
  emit := TypeTable.emit_of_converted he
  need := TypeTable.need_le_converted he
  eval _ _ _ := by
    obtain ⟨a, ha, hga⟩ := TypeTable.basic_of_isArithmetic hv
    simp only [TypeTable.eval_converted ha hga hk hb, TypeTable.convertSlot, ha, hk]

theorem converts_pointer {t : TypeTable} {v : Lowered} {k : TypeKey} (hk : t.isPointer k)
    (he : v.node.emit = .ok code) : Converts t v k v.node where
  emit := ⟨code, he⟩
  need := Nat.le_refl _
  eval _ _ _ := by
    simp only [TypeTable.convertSlot_pointer hk, bind_pure]

theorem TernaryRule.converts {t : TypeTable} {c yes no : Lowered} (h : TernaryRule t c yes no r)
    (he : r.node.emit = .ok code) :
    ∃ nyes nno, r.node = .cond c.node nyes nno ∧ Converts t yes r.type nyes ∧
      Converts t no r.type nno := by
  cases h with
  | arithmetic _ hyes hno =>
    obtain ⟨b, hk, hb⟩ := TypeTable.isArithmetic_coerce hyes hno
    obtain ⟨-, ⟨_, hey⟩, _, hen⟩ := emit_of_cond he
    exact ⟨_, _, rfl, converts_converted hyes hk hb hey, converts_converted hno hk hb hen⟩
  | pointer _ hyes =>
    obtain ⟨-, ⟨_, hey⟩, _, hen⟩ := emit_of_cond he
    exact ⟨_, _, rfl, converts_pointer hyes hey, converts_pointer hyes hen⟩

section
variable {e : Expr} (ha : e.Atoms (FragmentHas Fragment.SelfContained))
  (h : (lower e).run s = (some r, s')) (hc : r.node.encode = .ok code)
include ha h hc

theorem execute_lowered {m : Machine} (hm : r.node.need ≤ m.capacity) :
    m.execute code = (r.node.eval m.target m.layout []).outcome :=
  Node.execute_emit m (((lowers_of_run h).built ha).wellFormed fun _ hc => hc)
    (Node.emit_of_encode hc) hm

/-- The operands of a logical operator have programs, and the operator a tree over both. -/
theorem exists_logical_programs {op : InfixOp} (hop : op = .logAnd ∨ op = .logOr)
    (he : e = .binary span op x y) :
    ∃ vx cx s₁ vy cy, HasProgram x s vx cx s₁ ∧ HasProgram y s₁ vy cy s' ∧
      BinaryRule s'.types op vx vy r ∧ ∀ m : Machine, r.node.need ≤ m.capacity →
        m.execute cx = (vx.node.eval m.target m.layout []).outcome ∧
          m.execute cy = (vy.node.eval m.target m.layout []).outcome := by
  subst he
  obtain ⟨vx, s₁, vy, hx, hy, hr⟩ := binary_run h
  have hparts : (∃ code, vx.node.emit = .ok code) ∧ (∃ code, vy.node.emit = .ok code) ∧
      vx.node.need ≤ r.node.need ∧ vy.node.need ≤ r.node.need := by
    have hemit := Node.emit_of_encode hc
    obtain rfl | rfl := hop
    · obtain rfl := hr.eq_of_logAnd
      obtain ⟨⟨_, htest⟩, ⟨_, hright⟩, -⟩ := emit_of_cond hemit
      obtain ⟨hmx, hmy, -⟩ := need_cond_le.1 (Nat.le_refl _)
      exact ⟨emit_of_testOf htest, TypeTable.emit_of_differsFromZero hright,
        Nat.le_trans (need_le_testOf _ _) hmx,
        Nat.le_trans (TypeTable.need_le_differsFromZero _ _) hmy⟩
    · obtain rfl := hr.eq_of_logOr
      obtain ⟨⟨_, htest⟩, -, _, hright⟩ := emit_of_cond hemit
      obtain ⟨hmx, -, hmy⟩ := need_cond_le.1 (Nat.le_refl _)
      exact ⟨emit_of_testOf htest, TypeTable.emit_of_differsFromZero hright,
        Nat.le_trans (need_le_testOf _ _) hmx,
        Nat.le_trans (TypeTable.need_le_differsFromZero _ _) hmy⟩
  obtain ⟨hex, hey, hnx, hny⟩ := hparts
  obtain ⟨cx, hpx, hcx⟩ := exists_program ha.1 hx hex
  obtain ⟨cy, hpy, hcy⟩ := exists_program ha.2 hy hey
  exact ⟨vx, cx, s₁, vy, cy, hpx, hpy, hr, fun m hm =>
    ⟨hcx m (Nat.le_trans hnx hm), hcy m (Nat.le_trans hny hm)⟩⟩

theorem execute_conjunction (he : e = .binary span .logAnd x y) :
    ∃ vx cx s₁ vy cy, HasProgram x s vx cx s₁ ∧ HasProgram y s₁ vy cy s' ∧
      ∀ m : Machine, r.node.need ≤ m.capacity →
        m.execute code = (m.execute cx).andThen fun v =>
          if Slot.isZero (s'.types.scalarGroup vx.type) v then .ofValue 0
          else (m.execute cy).andThen fun w =>
            .ofValue (Slot.ofBool (!Slot.isZero (s'.types.scalarGroup vy.type) w)) := by
  obtain ⟨vx, cx, s₁, vy, cy, hpx, hpy, hr, hrun⟩ := exists_logical_programs ha h hc (.inl rfl) he
  refine ⟨vx, cx, s₁, vy, cy, hpx, hpy, fun m hm => ?_⟩
  obtain ⟨hcx, hcy⟩ := hrun m hm
  rw [execute_lowered ha h hc hm, hcx, hcy, hr.eq_of_logAnd, truthOf, eval_cond_testOf,
    Computation.outcome_bind]
  congr 1
  funext v
  rw [TypeTable.eval_differsFromZero, apply_ite Computation.outcome, Computation.outcome_bind]
  rfl

theorem execute_disjunction (he : e = .binary span .logOr x y) :
    ∃ vx cx s₁ vy cy, HasProgram x s vx cx s₁ ∧ HasProgram y s₁ vy cy s' ∧
      ∀ m : Machine, r.node.need ≤ m.capacity →
        m.execute code = (m.execute cx).andThen fun v =>
          if Slot.isZero (s'.types.scalarGroup vx.type) v then
            (m.execute cy).andThen fun w =>
              .ofValue (Slot.ofBool (!Slot.isZero (s'.types.scalarGroup vy.type) w))
          else .ofValue 1 := by
  obtain ⟨vx, cx, s₁, vy, cy, hpx, hpy, hr, hrun⟩ := exists_logical_programs ha h hc (.inr rfl) he
  refine ⟨vx, cx, s₁, vy, cy, hpx, hpy, fun m hm => ?_⟩
  obtain ⟨hcx, hcy⟩ := hrun m hm
  rw [execute_lowered ha h hc hm, hcx, hcy, hr.eq_of_logOr, truthOf, eval_cond_testOf,
    Computation.outcome_bind]
  congr 1
  funext v
  rw [TypeTable.eval_differsFromZero, apply_ite Computation.outcome, Computation.outcome_bind]
  rfl

/-- A conditional gives the value of the selected branch, converted to the type of both. -/
theorem execute_conditional (he : e = .ternary span c yes no) :
    ∃ vc cc s₁ vyes cyes s₂ vno cno, HasProgram c s vc cc s₁ ∧ HasProgram yes s₁ vyes cyes s₂ ∧
      HasProgram no s₂ vno cno s' ∧ ∀ m : Machine, r.node.need ≤ m.capacity →
        m.execute code = (m.execute cc).andThen fun v =>
          if v = 0 then
            (m.execute cno).andThen fun w => .ofValue (s'.types.convertSlot vno.type r.type w)
          else
            (m.execute cyes).andThen fun w =>
              .ofValue (s'.types.convertSlot vyes.type r.type w) := by
  subst he
  obtain ⟨vc, s₁, vyes, s₂, vno, hvc, hvyes, hvno, hr⟩ := ternary_run h
  have hemit := Node.emit_of_encode hc
  obtain ⟨nyes, nno, hnode, hyes, hno⟩ := hr.converts hemit
  have hrun {m : Machine} := execute_lowered (m := m) ha h hc
  rw [hnode] at hemit hrun ⊢
  obtain ⟨hec, -⟩ := emit_of_cond hemit
  obtain ⟨cc, hpc, hcc⟩ := exists_program ha.1 hvc hec
  obtain ⟨cyes, hpyes, hcyes⟩ := exists_program ha.2.1 hvyes hyes.emit
  obtain ⟨cno, hpno, hcno⟩ := exists_program ha.2.2 hvno hno.emit
  refine ⟨vc, cc, s₁, vyes, cyes, s₂, vno, cno, hpc, hpyes, hpno, fun m hm => ?_⟩
  obtain ⟨hmc, hmyes, hmno⟩ := need_cond_le.1 hm
  rw [hrun hm, hcc m hmc, hcyes m (Nat.le_trans hyes.need hmyes),
    hcno m (Nat.le_trans hno.need hmno)]
  simp only [Node.eval, hyes.eval, hno.eval, Computation.outcome_bind]
  congr 1
  funext v
  by_cases hv : v = 0
  · have ht : Slot.isTrue v = false := by rw [hv]; rfl
    rw [if_pos hv, ht, if_neg Bool.false_ne_true, Computation.outcome_bind]
    rfl
  · have ht : Slot.isTrue v = true := by simp [Slot.isTrue, hv]
    rw [if_neg hv, ht, if_pos rfl, Computation.outcome_bind]
    rfl

end

/-- What runs of a conjunction, a disjunction and a conditional, in terms of the programs of the
operands: the first operand, and then only the one it selects. A negative floating zero selects as
zero does. -/
theorem execute_selected {e : Expr} (ha : e.Atoms (FragmentHas Fragment.SelfContained))
    (h : (lower e).run s = (some r, s')) (hc : r.node.encode = .ok code) :
    (∀ span x y, e = .binary span .logAnd x y → ∃ vx cx s₁ vy cy,
      HasProgram x s vx cx s₁ ∧ HasProgram y s₁ vy cy s' ∧
      ∀ m : Machine, r.node.need ≤ m.capacity →
        m.execute code = (m.execute cx).andThen fun v =>
          if Slot.isZero (s'.types.scalarGroup vx.type) v then .ofValue 0
          else (m.execute cy).andThen fun w =>
            .ofValue (Slot.ofBool (!Slot.isZero (s'.types.scalarGroup vy.type) w))) ∧
    (∀ span x y, e = .binary span .logOr x y → ∃ vx cx s₁ vy cy,
      HasProgram x s vx cx s₁ ∧ HasProgram y s₁ vy cy s' ∧
      ∀ m : Machine, r.node.need ≤ m.capacity →
        m.execute code = (m.execute cx).andThen fun v =>
          if Slot.isZero (s'.types.scalarGroup vx.type) v then
            (m.execute cy).andThen fun w =>
              .ofValue (Slot.ofBool (!Slot.isZero (s'.types.scalarGroup vy.type) w))
          else .ofValue 1) ∧
    (∀ span c yes no, e = .ternary span c yes no → ∃ vc cc s₁ vyes cyes s₂ vno cno,
      HasProgram c s vc cc s₁ ∧ HasProgram yes s₁ vyes cyes s₂ ∧ HasProgram no s₂ vno cno s' ∧
      ∀ m : Machine, r.node.need ≤ m.capacity →
        m.execute code = (m.execute cc).andThen fun v =>
          if v = 0 then
            (m.execute cno).andThen fun w => .ofValue (s'.types.convertSlot vno.type r.type w)
          else
            (m.execute cyes).andThen fun w =>
              .ofValue (s'.types.convertSlot vyes.type r.type w)) ∧
    Slot.isZero .f32 0x80000000 ∧ Slot.isZero .f64 0x8000000000000000 :=
  ⟨fun _ _ _ => execute_conjunction ha h hc, fun _ _ _ => execute_disjunction ha h hc,
    fun _ _ _ _ => execute_conditional ha h hc, by decide, by decide⟩

end

/-- The text `f && 1 / 0`: a floating-point number in the frame guards a quotient that does not
exist. -/
def guardedQuotient : Expr :=
  .binary ⟨0, 10⟩ .logAnd
    (.leaf ⟨0, 1⟩ "f" (Instruction.encode ⟨.base .frame, 16⟩) (.basic .f32) .address)
    (.binary ⟨5, 10⟩ .div (.int ⟨5, 6⟩ 1 false) (.int ⟨9, 10⟩ 0 false))

/-- All words of memory are the negative zero of single precision. -/
def negativeZeroTarget : Target where
  memory _ size := some (Vector.ofFn fun i : Fin size => if i.val = 3 then 0x80 else 0)
  registerBlock := []
  base _ := some 0x4000

def guardedQuotientNode : Node :=
  .cond (TypeTable.differsFromZero .f32 (.read 4 (.splice (Instruction.encode ⟨.base .frame, 16⟩))))
    (TypeTable.differsFromZero .s
      (.trunc 32 true (.binary (.binary .div) .s (.const 1 true) (.const 0 true))))
    (.unsigned 0)

def guardedQuotientCode : List UInt8 :=
  [7, 16, 0, 0, 0, 4, 4, 10, 0, 31, 3, 2, 5, 0, 10, 0, 3, 16, 0, 10, 1, 37, 8, 10, 0, 37, 8, 21, 2,
    37, 32, 10, 0, 31, 2]

theorem lower_guardedQuotient :
    (lower guardedQuotient).run { types := .empty 8 } =
      (some (truthOf guardedQuotientNode), { types := .empty 8 }) := by
  with_unfolding_all rfl

theorem need_guardedQuotientNode : guardedQuotientNode.need ≤ 5 := by
  have h : Fragment.room (Instruction.encode ⟨.base .frame, 16⟩) ≤ 5 := Fragment.room_le_length _
  simp only [guardedQuotientNode, TypeTable.differsFromZero, Node.need, Node.unsigned]
  omega

/-- The quotient fails when it runs, and behind a negative zero it does not run. -/
theorem execute_guardedQuotient :
    guardedQuotient.Atoms (FragmentHas Fragment.SelfContained) ∧
      (lower guardedQuotient).run { types := .empty 8 } =
        (some (truthOf guardedQuotientNode), { types := .empty 8 }) ∧
      guardedQuotientNode.encode = .ok guardedQuotientCode ∧ guardedQuotientNode.need ≤ 5 ∧
      Machine.execute ⟨some negativeZeroTarget, .none, 5⟩ guardedQuotientCode =
        ⟨.ok 0, [{ address := 0x4010, size := 4 }]⟩ := by
  have ha : guardedQuotient.Atoms (FragmentHas Fragment.SelfContained) :=
    ⟨(Fragment.harmless_base _ _).selfContained, trivial, trivial⟩
  have hc : guardedQuotientNode.encode = .ok guardedQuotientCode := by decide +kernel
  refine ⟨ha, lower_guardedQuotient, hc, need_guardedQuotientNode, ?_⟩
  obtain ⟨vx, cx, s₁, vy, cy, hx, -, hrun⟩ :=
    (execute_selected ha lower_guardedQuotient hc).1 _ _ _ rfl
  have hvx : some vx = some ⟨.read 4 (.splice (Instruction.encode ⟨.base .frame, 16⟩)),
      .basic .f32, .value⟩ :=
    (congrArg Prod.fst hx.run).symm.trans (by with_unfolding_all rfl)
  cases hvx
  have hcx : cx = [7, 16, 0, 0, 0, 4, 4] := by
    have he : Except.ok cx = Except.ok [7, 16, 0, 0, 0, 4, 4] :=
      hx.encode.symm.trans (by decide +kernel)
    cases he
    rfl
  rw [hrun ⟨some negativeZeroTarget, .none, 5⟩ need_guardedQuotientNode, hcx]
  with_unfolding_all rfl

end Lowering

end WatchExpr
