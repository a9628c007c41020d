import Mathlib.Data.List.Basic
import WatchExpr.Proofs.Machine.Drive

namespace WatchExpr

namespace Machine

section
variable {α : Type}

/-- The elements from one index up to another, absent unless all of them are there. -/
def slice? (l : List α) (lo hi : Nat) : Option (List α) :=
  if lo ≤ hi ∧ hi ≤ l.length then some ((l.drop lo).take (hi - lo)) else none

/-- Puts elements in the place of those from an index on, absent unless all of them are there. -/
def overwrite? (l : List α) (start : Nat) (new : List α) : Option (List α) :=
  if start + new.length ≤ l.length then
    some (l.take start ++ new ++ l.drop (start + new.length))
  else none

theorem slice?_eq_some {l : List α} {lo hi : Nat} (h : lo ≤ hi) (h' : hi ≤ l.length) :
    slice? l lo hi = some ((l.drop lo).take (hi - lo)) :=
  if_pos ⟨h, h'⟩

theorem overwrite?_eq_some {l new : List α} {start : Nat} (h : start + new.length ≤ l.length) :
    overwrite? l start new = some (l.take start ++ new ++ l.drop (start + new.length)) :=
  if_pos h

end

structure Position where
  ip : Nat := 0
  /-- The stack, bottom first. -/
  cells : List Slot := []
  reads : List MemoryRead := []

inductive Move where
  | next (p : Position)
  | halt (p : Position)
  | fault (f : Fault) (reads : List MemoryRead)

section
variable (m : Machine) (code : List UInt8) (p : Position)

/-- Pushes a value or fails; there are as many cells as the capacity says. -/
def push? : Except Fault Slot → Option Move
  | .error f => some (.fault f p.reads)
  | .ok v =>
    if p.cells.length < m.capacity then some (.next { p with cells := p.cells ++ [v] }) else none

/-- Goes on at another place of the code; the furthest is its end. -/
def jumpTo (target : Nat) : Move :=
  if code.length < target then .fault .badOp p.reads else .next { p with ip := target }

/-- Reads memory and logs the attempt. -/
def load? (address : Slot) (size : Nat) : Option Move :=
  if size < 1 ∨ 8 < size then some (.fault .badOp p.reads)
  else
    match m.target with
    | none => some (.fault .badMemRead p.reads)
    | some t =>
      let logged := { p with reads := p.reads ++ [{ address, size : MemoryRead }] }
      match t.word? address size with
      | some v => m.push? logged (.ok v)
      | none => some (.fault .badMemRead logged.reads)

/-- A read of the register block; the second comparison cannot overflow after the first. -/
def blockRead? (offset : Slot) (size : Nat) : Option (Except Fault Slot) :=
  match m.target with
  | none => some (.error .badRegRead)
  | some t =>
    let block := t.registerBlock
    if size < 1 ∨ 8 < size ∨ block.length < offset.toNat ∨ block.length - offset.toNat < size then
      some (.error .badRegRead)
    else (slice? block offset.toNat (offset.toNat + size)).map fun bytes =>
      .ok (ofLittleEndian bytes)

def registerRead? (operand : UInt64) : Option (Except Fault Slot) :=
  let size := (operand >>> 8).toUInt8.toNat
  let offset := (operand >>> 16).toUInt16.toNat
  match m.layout.byCode? operand.toUInt8.toNat with
  | none => some (.error .badRegRead)
  | some r =>
    if r.size < offset + size then some (.error .badRegRead)
    else m.blockRead? (r.offset + offset).toUInt64 size

/-- Moves the top cell down to a depth. -/
def insert? (depth : Nat) : Option Move := do
  let top := p.cells.length - 1
  let v ← p.cells[top]?
  let above ← slice? p.cells (top - depth) top
  let cells ← overwrite? p.cells (top - depth + 1) above
  let cells ← overwrite? cells (top - depth) [v]
  return .next { p with cells }

/-- What an instruction does with the operands it has taken off the stack; `p` is the position
after it. -/
def act? (i : Instruction) (args : List Slot) : Option Move :=
  match i.op, args with
  | .stop, _ => some (.halt p)
  | .noop, _ => some (.next p)
  | .cond, [c] =>
    if Slot.isTrue c then some (jumpTo code p (p.ip + i.operand.toNat)) else some (.next p)
  | .skip, _ => some (jumpTo code p (p.ip + i.operand.toNat))
  | .memRead, [a] => m.load? p a i.operand.toNat
  | .regRead, _ => (m.registerRead? i.operand).bind (m.push? p)
  | .regReadDyn, [a] => (m.blockRead? a m.layout.pointerSize).bind (m.push? p)
  | .base b, _ => m.push? p (m.baseAddress b i.operand)
  | .const _, _ => m.push? p (.ok i.operand)
  | .unary op, [x] => m.push? p (.ok (op.apply i.group x))
  | .binary op, [x, y] => m.push? p (op.apply i.group x y)
  | .compare op, [x, y] => m.push? p (.ok (Slot.ofBool (op.apply i.group x y)))
  | .trunc, [x] => m.push? p (.ok (Slot.truncate i.operand.toNat x))
  | .truncSigned, [x] => m.push? p (.ok (Slot.signExtend i.operand.toNat x))
  | .convert, [x] =>
    let source := Group.ofByte i.operand.toUInt8
    let result := Group.ofByte (i.operand >>> 8).toUInt8
    if source.isScalar && result.isScalar then m.push? p (.ok (Slot.convert source result x))
    else some (.fault .badOpTypes p.reads)
  | .pick, _ =>
    if p.cells.length ≤ i.operand.toNat then some (.fault .badOp p.reads)
    else p.cells[p.cells.length - 1 - i.operand.toNat]?.bind fun v => m.push? p (.ok v)
  | .pop, _ => some (.next p)
  | .insert, _ =>
    if p.cells.length ≤ i.operand.toNat then some (.fault .badOp p.reads)
    else insert? p i.operand.toNat
  | _, _ => none

def step? : Option Move := do
  let op := Opcode.ofByte (← code[p.ip]?)
  let next := p.ip + op.length
  if !op.isValid then return .fault .badOp p.reads
  if code.length < next then return .fault .badOp p.reads
  let i : Instruction := ⟨op, ofLittleEndian (← slice? code (p.ip + 1) next)⟩
  if p.cells.length < op.pops then return .fault .badOp p.reads
  if op.hasGroup && !op.accepts i.group then return .fault .badOpTypes p.reads
  let args ← slice? p.cells (p.cells.length - op.pops) p.cells.length
  let cells ← slice? p.cells 0 (p.cells.length - op.pops)
  if m.capacity < cells.length + op.pushes then return .fault .insufficientStackSpace p.reads
  m.act? code { p with ip := next, cells } i args

end

namespace Position

/-- A finished program has to leave exactly one value. -/
def finish (p : Position) : Outcome :=
  match p.cells with
  | [v] => ⟨.ok v, p.reads⟩
  | _ => ⟨.error .malformedBytecode, p.reads⟩

def state (code : List UInt8) (p : Position) : State :=
  ⟨code.drop p.ip, p.cells.reverse, p.reads⟩

/-- The pointer is in the code or at its end, and the stack has no more cells than it may. -/
structure InBounds (m : Machine) (code : List UInt8) (p : Position) : Prop where
  ip_le : p.ip ≤ code.length
  cells_le : p.cells.length ≤ m.capacity

end Position

namespace Move

def progress (code : List UInt8) : Move → Progress
  | .next p => .next (p.state code)
  | .halt p => .halt (p.state code)
  | .fault f reads => .fault f reads

def Safe (m : Machine) (code : List UInt8) (ip : Nat) : Move → Prop
  | .next p => ip ≤ p.ip ∧ p.InBounds m code
  | .halt p => p.InBounds m code
  | .fault _ _ => True

end Move

/-- An instruction with bounded places has a result, and it is a given one. -/
def Agrees (m : Machine) (code : List UInt8) (ip : Nat) (o : Option Move) (q : Progress) : Prop :=
  ∃ move, o = some move ∧ move.progress code = q ∧ move.Safe m code ip

section
variable {m : Machine} {code : List UInt8} {p : Position}

theorem agrees_fault (f : Fault) (reads : List MemoryRead) (ip : Nat) :
    Agrees m code ip (some (.fault f reads)) (.fault f reads) :=
  ⟨_, rfl, rfl, trivial⟩

theorem agrees_next (hp : p.InBounds m code) :
    Agrees m code p.ip (some (.next p)) (.next (p.state code)) :=
  ⟨_, rfl, rfl, Nat.le_refl _, hp⟩

theorem agrees_push (hi : p.ip ≤ code.length) (hc : p.cells.length + 1 ≤ m.capacity)
    (v : Except Fault Slot) : Agrees m code p.ip (m.push? p v) ((p.state code).push v) := by
  cases v with
  | error f => exact agrees_fault f _ _
  | ok v =>
    refine ⟨.next { p with cells := p.cells ++ [v] }, if_pos hc, ?_, Nat.le_refl _, hi, ?_⟩
    · simp [Move.progress, Position.state, State.push]
    · simpa using hc

theorem agrees_jumpTo (hp : p.InBounds m code) (distance : Nat) :
    Agrees m code p.ip (some (jumpTo code p (p.ip + distance)))
      (jump distance (p.state code)) := by
  have hi := hp.ip_le
  simp only [jumpTo, jump, Position.state, List.length_drop]
  by_cases h : code.length < p.ip + distance
  · rw [if_pos h, if_pos (by omega)]
    exact agrees_fault _ _ _
  · rw [if_neg h, if_neg (by omega)]
    refine ⟨_, rfl, ?_, Nat.le_add_right _ _, Nat.le_of_not_lt h, hp.cells_le⟩
    simp [Move.progress, Position.state, List.drop_drop]

theorem agrees_load (hi : p.ip ≤ code.length) (hc : p.cells.length + 1 ≤ m.capacity)
    (address : Slot) (size : Nat) :
    Agrees m code p.ip (m.load? p address size) (m.readMemory address size (p.state code)) := by
  simp only [load?, readMemory]
  split
  · exact agrees_fault _ _ _
  · cases m.target with
    | none => exact agrees_fault _ _ _
    | some t =>
      simp only
      cases t.word? address size with
      | none => exact agrees_fault _ _ _
      | some v =>
        exact agrees_push (p := { p with reads := p.reads ++ [⟨address, size⟩] }) hi hc (.ok v)

theorem blockRead?_eq (m : Machine) (offset : Slot) (size : Nat) :
    m.blockRead? offset size = some (m.readBlock offset size) := by
  simp only [blockRead?, readBlock]
  cases m.target with
  | none => rfl
  | some t =>
    simp only [Target.blockWord?]
    split
    · rename_i h
      rw [if_neg (by omega)]
    · rename_i h
      rw [if_pos (by omega), slice?_eq_some (by omega) (by omega)]
      simp

theorem registerRead?_eq (m : Machine) (operand : UInt64) :
    m.registerRead? operand = some (m.readRegister operand) := by
  simp only [registerRead?, readRegister]
  cases m.layout.byCode? operand.toUInt8.toNat with
  | none => rfl
  | some r =>
    simp only
    split
    · rfl
    · exact blockRead?_eq m _ _

/-- Shifting the cells above a place up by one and putting the top there is the move on lists. -/
theorem insert?_eq (p : Position) {depth : Nat} (h : depth < p.cells.length) :
    ∃ cells, insert? p depth = some (.next { p with cells }) ∧
      cells.reverse = sink depth p.cells.reverse ∧ cells.length = p.cells.length := by
  obtain ⟨ip, cells, reads⟩ := p
  have hne : cells ≠ [] := List.ne_nil_of_length_pos (Nat.zero_lt_of_lt h)
  obtain ⟨below, v, rfl⟩ : ∃ below v, cells = below ++ [v] :=
    ⟨cells.dropLast, cells.getLast hne, (List.dropLast_concat_getLast hne).symm⟩
  simp only [List.length_append, List.length_singleton] at h
  obtain ⟨left, right, rfl, hr⟩ : ∃ left right, below = left ++ right ∧ right.length = depth :=
    ⟨below.take (below.length - depth), below.drop (below.length - depth),
      (List.take_append_drop _ _).symm, by rw [List.length_drop]; omega⟩
  have htop : (left ++ right ++ [v]).length - 1 = left.length + right.length := by simp
  have hplace : left.length + right.length - depth = left.length := by omega
  have hv : (left ++ right ++ [v])[left.length + right.length]? = some v := by simp
  have habove : slice? (left ++ right ++ [v]) left.length (left.length + right.length) =
      some right := by
    rw [slice?_eq_some (by omega) (by simp)]
    simp
  have hshift : overwrite? (left ++ right ++ [v]) (left.length + 1) right =
      some (left ++ (right ++ [v]).take 1 ++ right) := by
    rw [overwrite?_eq_some (by simp; omega), List.append_assoc left,
      List.take_length_add_append, List.drop_eq_nil_of_le (by simp; omega), List.append_nil]
  have hput : overwrite? (left ++ (right ++ [v]).take 1 ++ right) left.length [v] =
      some (left ++ v :: right) := by
    have hone : ((right ++ [v]).take 1).length = 1 := by simp
    rw [overwrite?_eq_some (by simp), List.append_assoc left, List.take_left,
      List.length_singleton, List.drop_length_add_append, List.drop_left' hone]
    simp
  refine ⟨left ++ v :: right, ?_, ?_, ?_⟩
  · simp only [insert?, htop, hplace, hv, habove, hshift, hput, Option.bind_eq_bind,
      Option.bind_some]
    rfl
  · simp [sink, ← hr]
  · simp only [List.length_append, List.length_cons, List.length_nil]
    omega

/-- The instructions do what they do on lists, with all operands in their cells. -/
theorem agrees_act (hi : p.ip ≤ code.length) (i : Instruction) {args : List Slot}
    (hv : i.op.isValid) (ha : args.length = i.op.pops)
    (hc : p.cells.length + i.op.pushes ≤ m.capacity) :
    Agrees m code p.ip (m.act? code p i args)
      (m.perform i ⟨code.drop p.ip, args.reverse ++ p.cells.reverse, p.reads⟩) := by
  have hp : p.InBounds m code := ⟨hi, Nat.le_of_add_right_le hc⟩
  obtain ⟨op, operand⟩ := i
  cases op with
  | undefined b => cases hv
  | stop =>
    obtain rfl := List.length_eq_zero_iff.1 ha
    exact ⟨_, rfl, rfl, hp⟩
  | noop =>
    obtain rfl := List.length_eq_zero_iff.1 ha
    exact agrees_next hp
  | cond =>
    obtain ⟨c, rfl⟩ := List.length_eq_one_iff.1 ha
    simp only [act?, perform, List.reverse_singleton, List.singleton_append]
    split
    · exact agrees_jumpTo hp _
    · exact agrees_next hp
  | skip =>
    obtain rfl := List.length_eq_zero_iff.1 ha
    exact agrees_jumpTo hp _
  | memRead =>
    obtain ⟨a, rfl⟩ := List.length_eq_one_iff.1 ha
    exact agrees_load hi hc _ _
  | regRead =>
    obtain rfl := List.length_eq_zero_iff.1 ha
    simp only [act?, registerRead?_eq, Option.bind_some]
    exact agrees_push hi hc _
  | regReadDyn =>
    obtain ⟨a, rfl⟩ := List.length_eq_one_iff.1 ha
    simp only [act?, blockRead?_eq, Option.bind_some]
    exact agrees_push hi hc _
  | base b =>
    obtain rfl := List.length_eq_zero_iff.1 ha
    exact agrees_push hi hc _
  | const w =>
    obtain rfl := List.length_eq_zero_iff.1 ha
    exact agrees_push hi hc (.ok _)
  | unary op =>
    obtain ⟨x, rfl⟩ := List.length_eq_one_iff.1 ha
    exact agrees_push hi hc (.ok _)
  | binary op =>
    obtain ⟨x, y, rfl⟩ := List.length_eq_two.1 ha
    exact agrees_push hi hc _
  | compare op =>
    obtain ⟨x, y, rfl⟩ := List.length_eq_two.1 ha
    exact agrees_push hi hc (.ok _)
  | trunc =>
    obtain ⟨x, rfl⟩ := List.length_eq_one_iff.1 ha
    exact agrees_push hi hc (.ok _)
  | truncSigned =>
    obtain ⟨x, rfl⟩ := List.length_eq_one_iff.1 ha
    exact agrees_push hi hc (.ok _)
  | convert =>
    obtain ⟨x, rfl⟩ := List.length_eq_one_iff.1 ha
    simp only [act?, perform, List.reverse_singleton, List.singleton_append]
    split
    · exact agrees_push hi hc (.ok _)
    · exact agrees_fault _ _ _
  | pick =>
    obtain rfl := List.length_eq_zero_iff.1 ha
    simp only [act?, perform, List.reverse_nil, List.nil_append]
    by_cases h : p.cells.length ≤ operand.toNat
    · rw [if_pos h, List.getElem?_eq_none (by simpa using h)]
      exact agrees_fault _ _ _
    · rw [if_neg h, List.getElem?_reverse (Nat.lt_of_not_le h)]
      -- slots are counted from the top, cells from the bottom
      have hlt : p.cells.length - 1 - operand.toNat < p.cells.length := by omega
      rw [List.getElem?_eq_getElem hlt]
      exact agrees_push hi hc (.ok _)
  | pop =>
    obtain ⟨x, rfl⟩ := List.length_eq_one_iff.1 ha
    exact agrees_next hp
  | insert =>
    obtain rfl := List.length_eq_zero_iff.1 ha
    simp only [act?, perform, List.reverse_nil, List.nil_append, List.length_reverse]
    by_cases h : p.cells.length ≤ operand.toNat
    · rw [if_pos h, if_pos h]
      exact agrees_fault _ _ _
    · rw [if_neg h, if_neg h]
      obtain ⟨cells, hmove, hcells, hlen⟩ := insert?_eq p (Nat.lt_of_not_le h)
      rw [hmove, ← hcells]
      exact agrees_next ⟨hi, hlen ▸ hp.cells_le⟩

theorem Agrees.mono {ip ip' : Nat} {o : Option Move} {q : Progress} (h : ip' ≤ ip)
    (ha : Agrees m code ip o q) : Agrees m code ip' o q := by
  obtain ⟨move, ho, hq, hs⟩ := ha
  refine ⟨move, ho, hq, ?_⟩
  cases move with
  | next p => exact ⟨Nat.le_trans h hs.1, hs.2⟩
  | halt p => exact hs
  | fault f reads => trivial

theorem agrees_step {b : UInt8} {rest : List UInt8}
    (hcode : code.drop p.ip = b :: rest) :
    Agrees m code (p.ip + 1) (m.step? code p) (m.step b rest (p.state code)) := by
  have hlt : p.ip < code.length := by
    by_contra h
    rw [List.drop_eq_nil_of_le (Nat.le_of_not_lt h)] at hcode
    cases hcode
  have hb : code[p.ip]? = some b := by
    rw [← List.head?_drop, hcode, List.head?_cons]
  have hrest : code.drop (p.ip + 1) = rest := by
    rw [← List.drop_drop, hcode, List.drop_one, List.tail_cons]
  have hlen : rest.length = code.length - (p.ip + 1) := by rw [← hrest, List.length_drop]
  simp only [step?, hb, step, Instruction.decode, Option.bind_eq_bind, Option.bind_some, pure]
  generalize Opcode.ofByte b = op
  have hl : op.length = 1 + op.operandLength := rfl
  cases hv : op.isValid with
  | false => exact agrees_fault _ _ _
  | true =>
    simp only [Bool.not_true, Bool.false_eq_true, if_false]
    by_cases hcut : code.length < p.ip + op.length
    · rw [if_pos hcut, if_pos (by rw [List.length_take]; omega)]
      exact agrees_fault _ _ _
    rw [if_neg hcut, if_neg (by rw [List.length_take]; omega),
      slice?_eq_some (by omega) (by omega), hrest,
      show p.ip + op.length - (p.ip + 1) = op.operandLength by omega, Option.bind_some]
    simp only [check, Position.state, List.length_reverse]
    generalize hi : (⟨op, ofLittleEndian (rest.take op.operandLength)⟩ : Instruction) = i
    obtain rfl : i.op = op := by rw [← hi]
    by_cases hpops : p.cells.length < i.op.pops
    · rw [if_pos hpops, if_pos hpops]
      exact agrees_fault _ _ _
    rw [if_neg hpops, if_neg hpops]
    cases hg : i.op.hasGroup && !i.op.accepts i.group with
    | true => exact agrees_fault _ _ _
    | false =>
      rw [slice?_eq_some (Nat.sub_le _ _) (Nat.le_refl _),
        slice?_eq_some (Nat.zero_le _) (Nat.sub_le _ _)]
      have htake : (p.cells.take (p.cells.length - i.op.pops)).length =
          p.cells.length - i.op.pops := by
        rw [List.length_take]
        omega
      simp only [Bool.false_eq_true, if_false, Option.bind_some, List.drop_zero, Nat.sub_zero, htake]
      by_cases hroom : m.capacity < p.cells.length - i.op.pops + i.op.pushes
      · rw [if_pos hroom, if_pos hroom]
        exact agrees_fault _ _ _
      rw [if_neg hroom, if_neg hroom]
      have hnext : rest.drop i.op.operandLength = code.drop (p.ip + i.op.length) := by
        rw [← hrest, List.drop_drop, hl, Nat.add_assoc]
      have hstack : p.cells.reverse =
          ((p.cells.drop (p.cells.length - i.op.pops)).take
            (p.cells.length - (p.cells.length - i.op.pops))).reverse ++
          (p.cells.take (p.cells.length - i.op.pops)).reverse := by
        rw [List.take_of_length_le (Nat.le_of_eq List.length_drop), ← List.reverse_append,
          List.take_append_drop]
      rw [hnext, hstack]
      have hle : p.ip + 1 ≤ p.ip + i.op.length := by omega
      refine Agrees.mono hle (agrees_act (p := ⟨_, _, p.reads⟩) (Nat.le_of_not_lt hcut) i hv ?_ ?_)
      · rw [List.length_take, List.length_drop]
        omega
      · rw [htake]
        omega

end

/-- Runs at most a number of instructions; a run that is not over by then has no result. -/
def run? (m : Machine) (code : List UInt8) : (instructions : Nat) → Position → Option Outcome
  | 0, p => if p.ip < code.length then none else some p.finish
  | n + 1, p =>
    if p.ip < code.length then
      (m.step? code p).bind fun
        | .next q => run? m code n q
        | .halt q => some q.finish
        | .fault f reads => some ⟨.error f, reads⟩
    else some p.finish

/-- The positions a run comes to, with the number of instructions before. -/
inductive Reaches (m : Machine) (code : List UInt8) : Nat → Position → Prop
  | start : Reaches m code 0 {}
  | step {n : Nat} {p q : Position} (hp : Reaches m code n p) (hlt : p.ip < code.length)
      (hs : m.step? code p = some (.next q)) : Reaches m code (n + 1) q

/-- The positions where a run is over: behind the code, or at an instruction that stops. -/
def Ends (m : Machine) (code : List UInt8) (q : Position) : Prop :=
  ∃ n p, m.Reaches code n p ∧
    (p = q ∧ p.ip = code.length ∨ p.ip < code.length ∧ m.step? code p = some (.halt q))

section
variable {m : Machine} {code : List UInt8} {p : Position}

theorem step?_cases (m : Machine) (hlt : p.ip < code.length) :
    ∃ move b rest, m.step? code p = some move ∧ code.drop p.ip = b :: rest ∧
      move.progress code = m.step b rest (p.state code) ∧ move.Safe m code (p.ip + 1) := by
  have hcode := List.drop_eq_getElem_cons hlt
  obtain ⟨move, hs, hq, hsafe⟩ := agrees_step (m := m) hcode
  exact ⟨move, _, _, hs, hcode, hq, hsafe⟩

theorem finish_state (code : List UInt8) (p : Position) : (p.state code).finish = p.finish := by
  obtain ⟨ip, cells, reads⟩ := p
  match cells with
  | [] => rfl
  | [v] => rfl
  | v :: w :: cells =>
    have h : ∃ x y l, (v :: w :: cells).reverse = x :: y :: l := by
      match hr : (v :: w :: cells).reverse with
      | [] => simp at hr
      | [x] => simpa using congrArg List.length hr
      | x :: y :: l => exact ⟨x, y, l, rfl⟩
    obtain ⟨x, y, l, h⟩ := h
    simp only [Position.state, State.finish, Position.finish, h]

/-- As many instructions as there are bytes left suffice. -/
theorem run?_eq_some (m : Machine) {n : Nat} (hn : code.length ≤ p.ip + n) :
    m.run? code n p = some (m.run (p.state code)) := by
  have hdone {p : Position} (h : code.length ≤ p.ip) : m.run (p.state code) = p.finish := by
    rw [run, Position.state, List.drop_eq_nil_of_le h]
    simp only
    rw [← List.drop_eq_nil_of_le h]
    exact finish_state code p
  induction n generalizing p with
  | zero =>
    rw [Nat.add_zero] at hn
    rw [run?, if_neg (Nat.not_lt.2 hn), hdone hn]
  | succ n ih =>
    rw [run?]
    split
    · rename_i hlt
      obtain ⟨move, b, rest, hs, hcode, hq, hsafe⟩ := step?_cases m hlt
      have hrun : m.run (p.state code) = ((m.step b rest (p.state code)).andThen m.drive).outcome := by
        rw [run_eq_drive, Position.state, hcode, drive_cons]
      rw [hs, Option.bind_some, hrun, ← hq]
      cases move with
      | next q =>
        have hle := hsafe.1
        have hq := ih (p := q) (by omega)
        rw [run_eq_drive] at hq
        exact hq
      | halt q => exact congrArg some (finish_state code q).symm
      | fault f reads => rfl
    · rename_i hlt
      rw [hdone (Nat.le_of_not_lt hlt)]

theorem inBounds_start (m : Machine) (code : List UInt8) : Position.InBounds m code {} :=
  ⟨Nat.zero_le _, Nat.zero_le _⟩

theorem Reaches.inBounds {n : Nat} (h : m.Reaches code n p) : n ≤ p.ip ∧ p.InBounds m code := by
  induction h with
  | start => exact ⟨Nat.le_refl _, inBounds_start m code⟩
  | step hp hlt hs ih =>
    obtain ⟨move, _, _, hmove, -, -, hsafe⟩ := step?_cases m hlt
    rw [hs] at hmove
    cases hmove
    exact ⟨Nat.le_trans (Nat.succ_le_succ ih.1) hsafe.1, hsafe.2⟩

theorem ends_of_run? {k n : Nat} (hp : m.Reaches code k p) {v : Slot} {reads : List MemoryRead}
    (h : m.run? code n p = some ⟨.ok v, reads⟩) : ∃ q, m.Ends code q ∧ q.cells = [v] := by
  have hone {q : Position} (h : q.finish = ⟨.ok v, reads⟩) : q.cells = [v] := by
    simp only [Position.finish] at h
    split at h
    · rename_i w hw
      cases h
      exact hw
    · cases h
  have hover {k : Nat} {p : Position} (hp : m.Reaches code k p) (hlt : ¬ p.ip < code.length)
      (h : some p.finish = some ⟨.ok v, reads⟩) : ∃ q, m.Ends code q ∧ q.cells = [v] :=
    ⟨p, ⟨k, p, hp, .inl ⟨rfl, Nat.le_antisymm hp.inBounds.2.ip_le (Nat.le_of_not_lt hlt)⟩⟩,
      hone (Option.some.inj h)⟩
  induction n generalizing k p with
  | zero =>
    rw [run?] at h
    split at h
    · cases h
    · rename_i hlt
      exact hover hp hlt h
  | succ n ih =>
    rw [run?] at h
    split at h
    · rename_i hlt
      obtain ⟨move, hs, h⟩ := Option.bind_eq_some_iff.1 h
      cases move with
      | next q => exact ih (.step hp hlt hs) h
      | halt q => exact ⟨q, ⟨k, p, hp, .inr ⟨hlt, hs⟩⟩, hone (Option.some.inj h)⟩
      | fault f reads => cases h
    · rename_i hlt
      exact hover hp hlt h

end

/-- Whatever the code, the target, the layout and the capacity, the machine with bounded places
ends after at most as many instructions as the code has bytes, with the outcome of the machine on
lists. Every position on the way is in bounds and has a next move; a value is the one cell left at
the end, and a run that fails has the value zero. -/
theorem execute_in_bounds (m : Machine) (code : List UInt8) :
    m.run? code code.length {} = some (m.execute code) ∧
    (∀ n p, m.Reaches code n p →
      n ≤ p.ip ∧ p.ip ≤ code.length ∧ p.cells.length ≤ m.capacity ∧
        (p.ip < code.length → ∃ move, m.step? code p = some move)) ∧
    ((m.execute code).status = .good →
      ∃ p, m.Ends code p ∧ p.cells = [(m.execute code).value]) ∧
    ((m.execute code).status ≠ .good → (m.execute code).value = 0) := by
  have hrun : m.run? code code.length {} = some (m.execute code) :=
    run?_eq_some m (Nat.le_add_left _ _)
  refine ⟨hrun, ?_, ?_, ?_⟩
  · intro n p h
    obtain ⟨hn, hp⟩ := h.inBounds
    refine ⟨hn, hp.ip_le, hp.cells_le, ?_⟩
    intro hlt
    obtain ⟨move, _, _, hs, -⟩ := step?_cases m hlt
    exact ⟨move, hs⟩
  · intro hgood
    cases ho : m.execute code with | mk result reads =>
    rw [ho] at hrun hgood
    cases result with
    | error f => cases hgood
    | ok v => exact ends_of_run? .start hrun
  · intro hbad
    cases ho : m.execute code with | mk result reads =>
    rw [ho] at hbad
    cases result with
    | error f => rfl
    | ok v => exact absurd rfl hbad

end Machine

end WatchExpr
