import WatchExpr.Proofs.Lowering.IntegerMeaning

namespace WatchExpr

theorem Expr.IsIntegral.fragments {t : TypeTable} {e : Expr} (h : e.IsIntegral t) :
    e.Atoms (Lowering.FragmentHas Fragment.SelfContained) := by
  induction e with
  | int => trivial
  | leaf =>
    obtain ⟨-, hc, -⟩ := h
    exact hc
  | unary _ _ _ ih => exact ih h
  | binary _ _ _ _ ihx ihy => exact ⟨ihx h.1, ihy h.2⟩
  | ternary _ _ _ _ ihc ihyes ihno => exact ⟨ihc h.1, ihyes h.2.1, ihno h.2.2⟩
  | cast _ type _ ih =>
    cases type with
    | named => exact ih h.2
    | _ => cases h
  | _ => cases h

theorem Computation.outcome_bind_ofInt (c : Computation Int) :
    (c >>= fun i => pure (Slot.ofInt i)).outcome = ⟨c.result.map Slot.ofInt, c.reads⟩ := by
  cases hc : c.result with
  | ok i =>
    rw [bind_ok hc, pure_eq, List.append_nil]
    rfl
  | error f =>
    rw [bind_error hc]
    rfl

/-- The value code of an integer expression ends with the integer that the expression means, or with
its fault, after the same reads; its type is of the kind of the expression. -/
theorem execute_integral {s s' : Lowering.State} {e : Expr} {r v : Lowered} {table : TypeTable}
    {code : List UInt8} (hd : e.IsIntegral s.types)
    (hl : (Lowering.lower e).run s = (some r, s')) (hv : s'.types.load r = (some v, table))
    (he : v.node.encode = .ok code) (m : Machine) (hm : v.node.need ≤ m.capacity) :
    (table.unwrapEnum v.type).kind = .basic (e.integerKind s.types) ∧
      m.execute code =
        ⟨(e.integerValue s.types m.target m.layout []).result.map Slot.ofInt,
          (e.integerValue s.types m.target m.layout []).reads⟩ ∧
      ((m.execute code).status = .failed .divideByZero ↔
        (e.integerValue s.types m.target m.layout []).result = .error .divideByZero) := by
  have hlow := Lowering.lowers_of_run hl
  obtain ⟨ht, w, hw, hmeans⟩ := hlow.means m.target m.layout hd
  rw [ht, hw] at hv
  cases hv
  have hbuilt := TypeTable.built_load (hlow.built hd.fragments) (ht ▸ hw)
  have hrun := Node.execute_emit m (hbuilt.wellFormed fun _ h => h) (Node.emit_of_encode he) hm
  rw [hmeans.node, Computation.outcome_bind_ofInt] at hrun
  refine ⟨hmeans.kind, hrun, ?_⟩
  rw [hrun, Outcome.status]
  cases (e.integerValue s.types m.target m.layout []).result with
  | ok i => simp [Except.map]
  | error f => simp [Except.map]

/-- The least 32-bit integer in memory, divided by minus one. -/
def leastQuotient : Expr :=
  .binary ⟨0, 6⟩ .div
    (.leaf ⟨0, 1⟩ "x" (Instruction.encode ⟨.base .frame, 8⟩) (.basic .s32) .address)
    (.unary ⟨4, 6⟩ .neg (.int ⟨5, 6⟩ 1 false))

def leastQuotientTree : Node :=
  .trunc 32 true (.binary (.binary .div) .s
    (.trunc 32 true (.read 4 (.splice (Instruction.encode ⟨.base .frame, 8⟩))))
    (.trunc 32 true (.unary (.unary .neg) .s (.const 1 true))))

def leastQuotientCode : List UInt8 :=
  [7, 8, 0, 0, 0, 4, 4, 37, 32, 10, 1, 37, 8, 15, 2, 37, 32, 21, 2, 37, 32]

/-- Every number in memory has only its top bit set. -/
def leastTarget : Target where
  memory _ size := some (Vector.ofFn fun i => if i.val + 1 = size then 0x80 else 0)
  registerBlock := []
  base _ := some 0x4000

theorem isIntegral_leastQuotient (t : TypeTable) : leastQuotient.IsIntegral t :=
  ⟨⟨rfl, (Fragment.harmless_base _ _).selfContained, .s32, t.kind_unwrapEnum rfl, by decide,
    by decide⟩, by rintro ⟨⟩⟩

theorem need_leastQuotientTree : leastQuotientTree.need ≤ 8 := by
  have hr : Fragment.room (Instruction.encode ⟨.base .frame, 8⟩) ≤ 5 := Fragment.room_le_length _
  simp only [leastQuotientTree, Node.need]
  omega

/-- The quotient leaves the range of 32 bits and wraps. -/
theorem execute_leastQuotient :
    leastQuotient.IsIntegral (.empty 8) ∧
      (Lowering.lower leastQuotient).run { types := .empty 8 } =
        (some ⟨leastQuotientTree, .basic .s32, .value⟩, { types := .empty 8 }) ∧
      leastQuotientTree.encode = .ok leastQuotientCode ∧
      leastQuotientTree.need ≤ 8 ∧
      Machine.execute ⟨some leastTarget, .none, 8⟩ leastQuotientCode =
        ⟨.ok 0xffffffff80000000, [{ address := 0x4008, size := 4 }]⟩ := by
  have hl : (Lowering.lower leastQuotient).run { types := .empty 8 } =
      (some ⟨leastQuotientTree, .basic .s32, .value⟩, { types := .empty 8 }) := by
    with_unfolding_all rfl
  have he : leastQuotientTree.encode = .ok leastQuotientCode := by decide +kernel
  obtain ⟨-, hx, -⟩ := execute_integral (isIntegral_leastQuotient _) hl rfl he
    ⟨some leastTarget, .none, 8⟩ need_leastQuotientTree
  refine ⟨isIntegral_leastQuotient _, hl, he, need_leastQuotientTree, ?_⟩
  rw [hx]
  with_unfolding_all rfl

end WatchExpr
