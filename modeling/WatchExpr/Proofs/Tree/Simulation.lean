import WatchExpr.Proofs.Tree.Meaning

namespace WatchExpr

namespace Node

theorem bind_eq_ok {ε α β : Type} {x : Except ε α} {f : α → Except ε β} {b : β}
    (h : (x >>= f) = .ok b) : ∃ a, x = .ok a ∧ f a = .ok b := by
  cases x with
  | ok a => exact ⟨a, rfl, h⟩
  | error e => cases h

theorem encodeGroup_eq_ok {op : Opcode} {g : Group} {code : List UInt8}
    (h : encodeGroup op g = .ok code) : op.accepts g ∧ code = Code.emitGroup [] op g := by
  rw [encodeGroup] at h
  split at h
  · rename_i ha
    cases h
    exact ⟨ha, rfl⟩
  · cases h

theorem encodeJump_eq_ok {op : Opcode} {d : Nat} {code : List UInt8}
    (h : encodeJump op d = .ok code) : d ≤ 0xffff ∧ code = Instruction.encode ⟨op, d.toUInt64⟩ := by
  rw [encodeJump] at h
  split at h
  · rename_i hd
    cases h
    exact ⟨hd, rfl⟩
  · cases h

/-- The two jumps of a conditional lead to the selected branch and from either branch to the code
behind. -/
theorem drive_branches {m : Machine} {cyes cno : List UInt8}
    (hno : cno.length + Opcode.skip.length ≤ 0xffff) (hyes : cyes.length ≤ 0xffff)
    (rest : List UInt8) {stack : List Slot} (hc : stack.length + 1 ≤ m.capacity)
    {yes no : Computation Slot}
    (hn : ∀ behind reads, m.drive ⟨cno ++ behind, stack, reads⟩ = m.resume no behind stack reads)
    (hy : ∀ reads, m.drive ⟨cyes ++ rest, stack, reads⟩ = m.resume yes rest stack reads)
    (v : Slot) (reads : List MemoryRead) :
    m.drive ⟨Instruction.encode ⟨.cond, (cno.length + Opcode.skip.length).toUInt64⟩ ++
        (cno ++ (Instruction.encode ⟨.skip, cyes.length.toUInt64⟩ ++ (cyes ++ rest))),
        v :: stack, reads⟩ =
      m.resume (if Slot.isTrue v then yes else no) rest stack reads := by
  have hs (operand : UInt64) :
      (Instruction.encode ⟨.skip, operand⟩).length = Opcode.skip.length := rfl
  have hl : cno.length + Opcode.skip.length ≤
      (cno ++ (Instruction.encode ⟨.skip, cyes.length.toUInt64⟩ ++ (cyes ++ rest))).length := by
    simp only [List.length_append, hs]
    omega
  rw [Machine.drive_cond m _ stack reads hno hl v (by omega)]
  split
  · have hd : (cno ++ (Instruction.encode ⟨.skip, cyes.length.toUInt64⟩ ++ (cyes ++ rest))).drop
        (cno.length + Opcode.skip.length) = cyes ++ rest := by
      rw [← List.append_assoc]
      exact List.drop_left' (by simp only [List.length_append, hs])
    rw [hd, hy]
  · rw [hn, Machine.resume, Machine.resume]
    cases no.result with
    | error f => rfl
    | ok v =>
      simp only
      have hl : cyes.length ≤ (cyes ++ rest).length := by simp
      rw [Machine.drive_skip m (cyes ++ rest) (v :: stack) _ hyes hl hc, List.drop_left' rfl]

/-- The code of a tree, put in front of any code and run on any operands, computes the value of
the tree. -/
theorem drive_emit (m : Machine) {n : Node} (hw : n.WellFormed) {code : List UInt8}
    (he : n.emit = .ok code) (rest : List UInt8) {stack : List Slot}
    (hc : stack.length + n.need ≤ m.capacity) (reads : List MemoryRead) :
    m.drive ⟨code ++ rest, stack, reads⟩ =
      m.resume (n.eval m.target m.layout stack) rest stack reads := by
  have hroom {stack : List Slot} (n : Node) (h : stack.length + n.need ≤ m.capacity) :
      stack.length + 1 ≤ m.capacity := by
    have := n.one_le_need
    omega
  -- An operand runs in front of the code of its siblings and above their slots, so all but the
  -- machine stays open.
  induction n generalizing code rest stack reads with
  | missing => cases he
  | const v signed =>
    cases he
    rw [Machine.drive_encodeConst m rest stack reads v signed hc, eval,
      Machine.resume_ok _ _ _ _ rfl, Computation.pure_eq, List.append_nil]
  | unary op g x ih =>
    obtain ⟨⟨o, rfl⟩, hx⟩ := hw
    obtain ⟨cx, hcx, he⟩ := bind_eq_ok he
    obtain ⟨cg, hcg, he⟩ := bind_eq_ok he
    obtain ⟨ha, rfl⟩ := encodeGroup_eq_ok hcg
    cases he
    rw [List.append_assoc, ih hx hcx _ hc reads]
    apply Machine.resume_bind
    intro v log
    exact Machine.drive_unary m rest stack log ha v (hroom x hc)
  | binary op g x y ihx ihy =>
    obtain ⟨hop, hx, hy⟩ := hw
    obtain ⟨cx, hcx, he⟩ := bind_eq_ok he
    obtain ⟨cy, hcy, he⟩ := bind_eq_ok he
    obtain ⟨cg, hcg, he⟩ := bind_eq_ok he
    obtain ⟨ha, rfl⟩ := encodeGroup_eq_ok hcg
    cases he
    simp only [need] at hc
    have hcx' : stack.length + x.need ≤ m.capacity := by omega
    rw [List.append_assoc, List.append_assoc, ihx hx hcx _ hcx' reads]
    apply Machine.resume_bind
    intro a log
    have hcy' : (a :: stack).length + y.need ≤ m.capacity := by
      simp only [List.length_cons]
      omega
    rw [ihy hy hcy _ hcy' log]
    apply Machine.resume_bind
    intro b log
    obtain ⟨o, rfl⟩ | ⟨o, rfl⟩ := hop
    · exact Machine.drive_binary m rest stack log ha a b (hroom x hcx')
    · exact Machine.drive_compare m rest stack log ha a b (hroom x hcx')
  | cond c yes no ihc ihyes ihno =>
    obtain ⟨hc', hyes, hno⟩ := hw
    obtain ⟨cc, hcc, he⟩ := bind_eq_ok he
    obtain ⟨cno, hcno, he⟩ := bind_eq_ok he
    obtain ⟨toYes, htoYes, he⟩ := bind_eq_ok he
    obtain ⟨cyes, hcyes, he⟩ := bind_eq_ok he
    obtain ⟨toEnd, htoEnd, he⟩ := bind_eq_ok he
    obtain ⟨hdno, rfl⟩ := encodeJump_eq_ok htoYes
    obtain ⟨hdyes, rfl⟩ := encodeJump_eq_ok htoEnd
    cases he
    simp only [need] at hc
    have hcc' : stack.length + c.need ≤ m.capacity := by omega
    have hcyes' : stack.length + yes.need ≤ m.capacity := by omega
    have hcno' : stack.length + no.need ≤ m.capacity := by omega
    simp only [List.append_assoc]
    rw [ihc hc' hcc _ hcc' reads]
    apply Machine.resume_bind
    intro v log
    rw [drive_branches hdno hdyes rest (hroom c hcc')
      (fun behind reads => ihno hno hcno behind hcno' reads)
      (fun reads => ihyes hyes hcyes rest hcyes' reads)]
  | read size a ih =>
    simp only [emit] at he
    split at he
    · cases he
    · rename_i hs
      obtain ⟨ca, hca, he⟩ := bind_eq_ok he
      cases he
      rw [List.append_assoc, ih hw hca _ hc reads]
      apply Machine.resume_bind
      intro v log
      exact Machine.drive_memRead m rest stack log hs v (hroom a hc)
  | register o ih =>
    obtain ⟨co, hco, he⟩ := bind_eq_ok he
    cases he
    rw [List.append_assoc, ih hw hco _ hc reads]
    apply Machine.resume_bind
    intro v log
    exact Machine.drive_regReadDyn m rest stack log v (hroom o hc)
  | convert source result x ih =>
    obtain ⟨cx, hcx, he⟩ := bind_eq_ok he
    cases he
    rw [Code.emitConvert, Code.emitWith, List.append_assoc, ih hw hcx _ hc reads]
    apply Machine.resume_bind
    intro v log
    exact Machine.drive_convert m rest stack log source result v (hroom x hc)
  | trunc bits signed x ih =>
    obtain ⟨cx, hcx, he⟩ := bind_eq_ok he
    cases he
    rw [List.append_assoc, ih hw hcx _ hc reads]
    apply Machine.resume_bind
    intro v log
    exact Machine.drive_trunc m rest stack log bits signed v (hroom x hc)
  | splice fragment =>
    have hcode : fragment = code := by
      simp only [emit] at he
      split at he <;> cases he
      rfl
    subst hcode
    simp only [need] at hc
    exact Fragment.drive_eq_resume hw (by omega) rest reads

theorem emit_of_encode {n : Node} {code : List UInt8} (h : n.encode = .ok code) :
    n.emit = .ok code := by
  rw [encode_eq] at h
  obtain ⟨code', he, h⟩ := bind_eq_ok h
  split at h
  · cases h
    exact he
  · cases h

theorem execute_emit (m : Machine) {n : Node} (hw : n.WellFormed) {code : List UInt8}
    (he : n.emit = .ok code) (hc : n.need ≤ m.capacity) :
    m.execute code = (n.eval m.target m.layout []).outcome := by
  have hn : ([] : List Slot).length + n.need ≤ m.capacity := by simpa using hc
  have hd := drive_emit m hw he [] hn []
  rw [List.append_nil] at hd
  exact m.execute_eq_outcome hd

/-- The program of a tree ends as the tree does: with the same status and value and after the same
reads of memory. -/
theorem execute_encode (m : Machine) {n : Node} (hw : n.WellFormed) {code : List UInt8}
    (he : n.encode = .ok code) (hc : n.need ≤ m.capacity) :
    m.execute code = (n.eval m.target m.layout []).outcome :=
  execute_emit m hw (emit_of_encode he) hc

/-- A word in the frame guards a division by zero; the address of a global is subtracted. -/
def guardedDifference : Node :=
  .binary (.binary .sub) .s
    (.cond (.read 2 (.splice (Instruction.encode ⟨.base .frame, 16⟩)))
      (.const 0xfffffffffffffffe true)
      (.binary (.binary .div) .u (.unsigned 1) (.unsigned 0)))
    (.splice (Instruction.encode ⟨.base .image, 300⟩))

def guardedDifferenceCode : List UInt8 :=
  [7, 16, 0, 0, 0, 4, 2, 2, 9, 0, 10, 1, 10, 0, 21, 1, 3, 4, 0, 10, 0xfe, 37, 8,
    8, 44, 1, 0, 0, 19, 2]

theorem wellFormed_guardedDifference : guardedDifference.WellFormed :=
  ⟨.inl ⟨_, rfl⟩,
    ⟨(Fragment.harmless_base _ _).selfContained, trivial, .inl ⟨_, rfl⟩, trivial, trivial⟩,
    (Fragment.harmless_base _ _).selfContained⟩

theorem need_guardedDifference : guardedDifference.need ≤ 6 := by
  have h (b : Base) (o : UInt64) : Fragment.room (Instruction.encode ⟨.base b, o⟩) ≤ 5 :=
    Fragment.room_le_length _
  have hf := h .frame 16
  have hi := h .image 300
  simp only [guardedDifference, need, unsigned]
  omega

/-- All memory holds ones, and the bases are alike. -/
def uniformTarget : Target where
  memory _ size := some (Vector.replicate size 1)
  registerBlock := []
  base _ := some 0x4000

theorem execute_guardedDifference :
    guardedDifference.WellFormed ∧ guardedDifference.encode = .ok guardedDifferenceCode ∧
      guardedDifference.need ≤ 6 ∧
      Machine.execute ⟨some uniformTarget, .none, 6⟩ guardedDifferenceCode =
        ⟨.ok 0xffffffffffffbed2, [{ address := 0x4010, size := 2 }]⟩ := by
  have he : guardedDifference.encode = .ok guardedDifferenceCode := by decide +kernel
  refine ⟨wellFormed_guardedDifference, he, need_guardedDifference, ?_⟩
  rw [execute_encode _ wellFormed_guardedDifference he need_guardedDifference]
  with_unfolding_all rfl

end Node

end WatchExpr
