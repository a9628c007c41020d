import WatchExpr.Proofs.Machine.Boundaries
import WatchExpr.Proofs.Tree.Simulation

namespace WatchExpr

namespace Node

def subtrees : Node → List Node
  | missing => [missing]
  | const v signed => [const v signed]
  | unary op g x => unary op g x :: x.subtrees
  | binary op g x y => binary op g x y :: (x.subtrees ++ y.subtrees)
  | cond c yes no => cond c yes no :: (c.subtrees ++ yes.subtrees ++ no.subtrees)
  | read size a => read size a :: a.subtrees
  | register o => register o :: o.subtrees
  | convert source result x => convert source result x :: x.subtrees
  | trunc bits signed x => trunc bits signed x :: x.subtrees
  | splice code => [splice code]

/-- What code asks of a node, the distances of jumps aside: operands are there, an operation takes
its group, a read fits a slot and a fragment is a program. -/
def Admissible : Node → Prop
  | missing => False
  | unary op g _ | binary op g _ _ => op.hasGroup ∧ op.accepts g
  | read size _ => 1 ≤ size ∧ size ≤ 8
  | splice code => Code.validate code = .ok ()
  | _ => True

def layout : Node → List UInt8
  | missing => []
  | const v signed => encodeConst v signed
  | unary op g x => x.layout ++ Code.emitGroup [] op g
  | binary op g x y => x.layout ++ y.layout ++ Code.emitGroup [] op g
  | cond c yes no =>
    c.layout ++ Instruction.encode ⟨.cond, (no.layout.length + Opcode.skip.length).toUInt64⟩
      ++ no.layout ++ Instruction.encode ⟨.skip, yes.layout.length.toUInt64⟩ ++ yes.layout
  | read size a => a.layout ++ Instruction.encode ⟨.memRead, size.toUInt64⟩
  | register o => o.layout ++ Instruction.encode ⟨.regReadDyn, 0⟩
  | convert source result x => Code.emitConvert x.layout source result
  | trunc bits signed x =>
    x.layout ++ Instruction.encode ⟨if signed then .truncSigned else .trunc, bits.toUInt64⟩
  | splice code => code

/-- A conditional with a branch that no jump leads over. The jump over the second branch also leads
over the jump behind it. -/
def TooFar : Node → Prop
  | cond _ yes no => 65532 < no.layout.length ∨ 65535 < yes.layout.length
  | _ => False

def Reaches (n : Node) : Prop := ∀ m ∈ n.subtrees, ¬ m.TooFar

section
variable {op : Opcode} {g source result : Group} {size bits : UInt8} {signed : Bool}
  {x y c yes no : Node}

theorem reaches_of_subtrees {n : Node} (hs : n.subtrees = n :: x.subtrees) (ht : ¬ n.TooFar) :
    n.Reaches ↔ x.Reaches := by
  rw [Reaches, hs, List.forall_mem_cons]
  exact and_iff_right ht

@[simp] theorem reaches_unary : (unary op g x).Reaches ↔ x.Reaches :=
  reaches_of_subtrees rfl not_false

@[simp] theorem reaches_binary : (binary op g x y).Reaches ↔ x.Reaches ∧ y.Reaches := by
  simp [Reaches, subtrees, TooFar, or_imp, forall_and]

@[simp] theorem reaches_cond :
    (cond c yes no).Reaches ↔ c.Reaches ∧ (no.Reaches ∧ no.layout.length ≤ 65532) ∧
      yes.Reaches ∧ yes.layout.length ≤ 65535 := by
  simp only [Reaches, subtrees, TooFar, List.forall_mem_cons, List.forall_mem_append, not_or,
    Nat.not_lt]
  tauto

@[simp] theorem reaches_read : (read size x).Reaches ↔ x.Reaches :=
  reaches_of_subtrees rfl not_false

@[simp] theorem reaches_register : (register x).Reaches ↔ x.Reaches :=
  reaches_of_subtrees rfl not_false

@[simp] theorem reaches_convert : (convert source result x).Reaches ↔ x.Reaches :=
  reaches_of_subtrees rfl not_false

@[simp] theorem reaches_trunc : (trunc bits signed x).Reaches ↔ x.Reaches :=
  reaches_of_subtrees rfl not_false

end

variable {n : Node} {code : List UInt8}

theorem encodeGroup_of_accepts {op : Opcode} {g : Group} (h : op.accepts g) :
    encodeGroup op g = .ok (Code.emitGroup [] op g) := if_pos h

/-- The first part that is refused decides, and all parts are refused for one reason. -/
theorem bind_eq_ite {ε α β : Type} {p q : Prop} [Decidable p] [Decidable q] {x : Except ε α}
    {f : α → Except ε β} {e : ε} {a : α} {b : β} (hx : x = if p then .ok a else .error e)
    (hf : f a = if q then .ok b else .error e) :
    (x >>= f) = if p ∧ q then .ok b else .error e := by
  subst hx
  by_cases hp : p
  · simp only [hp, if_true, true_and]
    exact hf
  · simp only [hp, if_false, false_and]
    rfl

theorem bind_pure_eq_ite {ε α β : Type} {p : Prop} [Decidable p] {x : Except ε α} {f : α → β}
    {e : ε} {a : α} (hx : x = if p then .ok a else .error e) :
    (x >>= fun a => pure (f a)) = if p then .ok (f a) else .error e := by
  subst hx
  split <;> rfl

open Classical in
/-- A tree of admissible nodes is emitted as it is laid out, unless a jump does not reach. -/
theorem emit_eq (h : ∀ m ∈ n.subtrees, m.Admissible) :
    n.emit = if n.Reaches then .ok n.layout else .error .jumpTooFar := by
  induction n with
  | missing => exact (h _ (.head _)).elim
  | const v signed => simp [emit, layout, Reaches, subtrees, TooFar]
  | unary op g x ih =>
    simp only [subtrees, List.forall_mem_cons] at h
    simp only [emit, encodeGroup_of_accepts h.1.2, reaches_unary]
    exact bind_pure_eq_ite (ih h.2)
  | binary op g x y ihx ihy =>
    simp only [subtrees, List.forall_mem_cons, List.forall_mem_append] at h
    simp only [emit, encodeGroup_of_accepts h.1.2, reaches_binary]
    exact bind_eq_ite (ihx h.2.1) (bind_pure_eq_ite (ihy h.2.2))
  | cond c yes no ihc ihyes ihno =>
    simp only [subtrees, List.forall_mem_cons, List.forall_mem_append] at h
    obtain ⟨-, ⟨hc, hyes⟩, hno⟩ := h
    have hskip : no.layout.length + Opcode.skip.length ≤ 65535 ↔ no.layout.length ≤ 65532 :=
      Nat.add_le_add_iff_right (n := 3)
    simp only [reaches_cond, and_assoc, ← hskip]
    exact bind_eq_ite (ihc hc) (bind_eq_ite (ihno hno) (bind_eq_ite rfl
      (bind_eq_ite (ihyes hyes) (bind_pure_eq_ite rfl))))
  | read size a ih =>
    simp only [subtrees, List.forall_mem_cons] at h
    have hs : ¬ (size < 1 ∨ 8 < size) := by
      rw [not_or, UInt8.not_lt, UInt8.not_lt]
      exact h.1
    simp only [emit, if_neg hs, reaches_read]
    exact bind_pure_eq_ite (ih h.2)
  | register o ih =>
    simp only [subtrees, List.forall_mem_cons] at h
    simp only [reaches_register]
    exact bind_pure_eq_ite (ih h.2)
  | convert source result x ih =>
    simp only [subtrees, List.forall_mem_cons] at h
    simp only [reaches_convert]
    exact bind_pure_eq_ite (ih h.2)
  | trunc bits signed x ih =>
    simp only [subtrees, List.forall_mem_cons] at h
    simp only [reaches_trunc]
    exact bind_pure_eq_ite (ih h.2)
  | splice code =>
    have hv : Code.validate code = .ok () := h _ (.head _)
    simp [emit, hv, layout, Reaches, subtrees, TooFar]

def branches (no yes : List UInt8) : List UInt8 :=
  Instruction.encode ⟨.cond, (no.length + Opcode.skip.length).toUInt64⟩ ++
    (no ++ (Instruction.encode ⟨.skip, yes.length.toUInt64⟩ ++ yes))

/-- What holds of single instructions that do not jump and of fragments, and is kept by putting
code behind code and by the jumps of conditionals, holds of the code of a tree. -/
theorem layout_induction {P : List UInt8 → Prop}
    (single : ∀ i : Instruction, i.op.isValid → i.op.isJump = false → P i.encode)
    (append : ∀ a b, P a → P b → P (a ++ b))
    (jumps : ∀ no yes, no.length ≤ 65532 → yes.length ≤ 65535 → P no → P yes → P (branches no yes))
    (h : ∀ m ∈ n.subtrees, m.Admissible ∧ ∀ fragment, m = splice fragment → P fragment)
    (hr : n.Reaches) : P n.layout := by
  have hgroup {op : Opcode} (g : Group) (ho : op.hasGroup) : P (Code.emitGroup [] op g) := by
    cases op with
    | unary o => exact single _ rfl rfl
    | binary o => exact single _ rfl rfl
    | compare o => exact single _ rfl rfl
    | _ => cases ho
  induction n with
  | missing => exact (h _ (.head _)).1.elim
  | const v signed =>
    rw [layout, encodeConst]
    split
    · exact single _ rfl rfl
    · split
      · exact single _ rfl rfl
      · exact append _ _ (single _ rfl rfl) (single _ rfl rfl)
  | unary op g x ih =>
    simp only [subtrees, List.forall_mem_cons] at h
    exact append _ _ (ih h.2 (reaches_unary.1 hr)) (hgroup g h.1.1.1)
  | binary op g x y ihx ihy =>
    simp only [subtrees, List.forall_mem_cons, List.forall_mem_append] at h
    have hr := reaches_binary.1 hr
    exact append _ _ (append _ _ (ihx h.2.1 hr.1) (ihy h.2.2 hr.2)) (hgroup g h.1.1.1)
  | cond c yes no ihc ihyes ihno =>
    simp only [subtrees, List.forall_mem_cons, List.forall_mem_append] at h
    obtain ⟨-, ⟨hc, hyes⟩, hno⟩ := h
    obtain ⟨hrc, ⟨hrno, hlno⟩, hryes, hlyes⟩ := reaches_cond.1 hr
    simp only [layout, List.append_assoc]
    exact append _ _ (ihc hc hrc) (jumps _ _ hlno hlyes (ihno hno hrno) (ihyes hyes hryes))
  | read size a ih =>
    simp only [subtrees, List.forall_mem_cons] at h
    exact append _ _ (ih h.2 (reaches_read.1 hr)) (single _ rfl rfl)
  | register o ih =>
    simp only [subtrees, List.forall_mem_cons] at h
    exact append _ _ (ih h.2 (reaches_register.1 hr)) (single _ rfl rfl)
  | convert source result x ih =>
    simp only [subtrees, List.forall_mem_cons] at h
    exact append _ _ (ih h.2 (reaches_convert.1 hr)) (single _ rfl rfl)
  | trunc bits signed x ih =>
    simp only [subtrees, List.forall_mem_cons] at h
    refine append _ _ (ih h.2 (reaches_trunc.1 hr)) (single _ ?_ ?_) <;> cases signed <;> rfl
  | splice code => exact (h _ (.head _)).2 code rfl

section
variable {no yes : List UInt8} {offset : Nat}

theorem stored_jump (op : Opcode) (ho : op.operandLength = 2) {d : Nat} (h : d ≤ 65535) :
    d.toUInt64.toNat = d ∧ d.toUInt64.toNat < 2 ^ (8 * op.operandLength) := by
  have hd : d.toUInt64.toNat = d := Nat.mod_eq_of_lt (Nat.lt_of_le_of_lt h (by decide))
  rw [hd, ho]
  exact ⟨rfl, Nat.lt_succ_of_le h⟩

variable (hlno : no.length ≤ 65532) (hlyes : yes.length ≤ 65535)
  (hno : Code.validateFrom offset no = .ok ()) (hyes : Code.validateFrom offset yes = .ok ())
include hlno hlyes hno hyes

theorem validateFrom_branches (offset' : Nat) :
    Code.validateFrom offset' (branches no yes) = .ok () := by
  obtain ⟨hdno, hbno⟩ := stored_jump .cond rfl
    (show no.length + Opcode.skip.length ≤ 65535 from Nat.add_le_add_right hlno 3)
  obtain ⟨hdyes, hbyes⟩ := stored_jump .skip rfl hlyes
  have hskip := Code.validateFrom_jump (i := ⟨.skip, _⟩) rfl hbyes (Nat.le_of_eq hdyes) hyes
  refine Code.validateFrom_jump rfl hbno ?_ (Code.validateFrom_append hno hskip) offset'
  rw [hdno]
  simp only [List.length_append, Instruction.encode, List.length_cons, length_littleEndian,
    Opcode.length]
  omega

theorem jumpsLand_branches (hjno : Code.JumpsLand no) (hjyes : Code.JumpsLand yes) :
    Code.JumpsLand (branches no yes) := by
  obtain ⟨hdno, hbno⟩ := stored_jump .cond rfl
    (show no.length + Opcode.skip.length ≤ 65535 from Nat.add_le_add_right hlno 3)
  obtain ⟨hdyes, hbyes⟩ := stored_jump .skip rfl hlyes
  have hend : Code.Boundary yes yes.length.toUInt64.toNat := by
    rw [hdyes]
    exact Code.boundary_length hyes
  have hskip := Code.jumpsLand_jump (i := ⟨.skip, _⟩) rfl hbyes hend hjyes
  refine Code.jumpsLand_jump rfl hbno ?_ (Code.jumpsLand_append hno hjno hskip)
  rw [hdno]
  exact Code.boundary_append hno (.next (Code.decode_encode_append rfl hbyes yes) .start)

end

section
variable (h : ∀ m ∈ n.subtrees, m.Admissible)
include h

section
variable (hr : n.Reaches)
include hr

theorem validateFrom_layout (offset : Nat) : Code.validateFrom offset n.layout = .ok () := by
  revert offset
  refine layout_induction (P := fun code => ∀ offset, Code.validateFrom offset code = .ok ()) ?_ ?_
    ?_ ?_ hr
  · intro i hv hj
    exact Code.validateFrom_encode hv hj
  · intro a b ha hb offset
    exact Code.validateFrom_append (ha offset) hb
  · intro no yes hlno hlyes hno hyes
    exact validateFrom_branches hlno hlyes (hno 0) (hyes 0)
  · intro m hm
    refine ⟨h m hm, ?_⟩
    rintro fragment rfl
    exact Code.validateFrom_offset (h _ hm)

/-- The jumps of a tree land where instructions start, if those of its fragments do. -/
theorem jumpsLand_layout (hf : ∀ fragment, splice fragment ∈ n.subtrees → Code.JumpsLand fragment) :
    Code.JumpsLand n.layout := by
  suffices hp : Code.validate n.layout = .ok () ∧ Code.JumpsLand n.layout from hp.2
  refine layout_induction (P := fun code => Code.validate code = .ok () ∧ Code.JumpsLand code) ?_ ?_
    ?_ ?_ hr
  · intro i hv hj
    exact ⟨Code.validateFrom_encode hv hj 0, Code.jumpsLand_encode hv hj⟩
  · intro a b ha hb
    exact ⟨Code.validateFrom_append ha.1 (Code.validateFrom_offset hb.1),
      Code.jumpsLand_append ha.1 ha.2 hb.2⟩
  · intro no yes hlno hlyes hno hyes
    exact ⟨validateFrom_branches hlno hlyes hno.1 hyes.1 0,
      jumpsLand_branches hlno hlyes hno.1 hyes.1 hno.2 hyes.2⟩
  · intro m hm
    refine ⟨h m hm, ?_⟩
    rintro fragment rfl
    exact ⟨h _ hm, hf fragment hm⟩

end

open Classical in
/-- Checking the code once more refuses nothing. -/
theorem encode_eq_ite :
    n.encode = if n.Reaches then .ok n.layout else .error .jumpTooFar := by
  rw [encode_eq, emit_eq h]
  split
  · rename_i hr
    have hv : Code.validate n.layout = .ok () := validateFrom_layout h hr 0
    simp only [Except.bind, hv]
  · rfl

end

theorem subtrees_subset {m : Node} (hm : m ∈ n.subtrees) : m.subtrees ⊆ n.subtrees := by
  have hcons {k : Node} {l : List Node} (hk : k.subtrees = k :: l)
      (ih : m ∈ l → m.subtrees ⊆ l) (hm : m ∈ k.subtrees) : m.subtrees ⊆ k.subtrees := by
    rw [hk] at hm ⊢
    obtain rfl | hm := List.mem_cons.1 hm
    · rw [hk]
      exact List.Subset.refl _
    · exact List.subset_cons_of_subset _ (ih hm)
  induction n with
  | missing => exact hcons rfl (fun h => by cases h) hm
  | const => exact hcons rfl (fun h => by cases h) hm
  | splice => exact hcons rfl (fun h => by cases h) hm
  | unary op g x ih => exact hcons rfl ih hm
  | read size a ih => exact hcons rfl ih hm
  | register o ih => exact hcons rfl ih hm
  | convert source result x ih => exact hcons rfl ih hm
  | trunc bits signed x ih => exact hcons rfl ih hm
  | binary op g x y ihx ihy =>
    refine hcons rfl (fun h => ?_) hm
    obtain h | h := List.mem_append.1 h
    · exact List.subset_append_of_subset_left _ (ihx h)
    · exact List.subset_append_of_subset_right _ (ihy h)
  | cond c yes no ihc ihyes ihno =>
    refine hcons rfl (fun h => ?_) hm
    obtain h | h := List.mem_append.1 h
    · refine List.subset_append_of_subset_left _ ?_
      obtain h | h := List.mem_append.1 h
      · exact List.subset_append_of_subset_left _ (ihc h)
      · exact List.subset_append_of_subset_right _ (ihyes h)
    · exact List.subset_append_of_subset_right _ (ihno h)

theorem subtrees_of_cond {c yes no : Node} (hm : cond c yes no ∈ n.subtrees) :
    c.subtrees ⊆ n.subtrees ∧ yes.subtrees ⊆ n.subtrees ∧ no.subtrees ⊆ n.subtrees := by
  have hs := subtrees_subset hm
  simp only [subtrees, List.cons_subset, List.append_subset] at hs
  exact ⟨hs.2.1.1, hs.2.1.2, hs.2.2⟩

/-- A conditional inside has a branch with code that no jump leads over. -/
def HasLongBranch (n : Node) : Prop :=
  ∃ c yes no, cond c yes no ∈ n.subtrees ∧
    ((no.Reaches ∧ 65532 < no.layout.length) ∨ (yes.Reaches ∧ 65535 < yes.layout.length))

theorem HasLongBranch.mono {m : Node} (hm : m.HasLongBranch) (hs : m.subtrees ⊆ n.subtrees) :
    n.HasLongBranch := by
  obtain ⟨c, yes, no, hmem, hlong⟩ := hm
  exact ⟨c, yes, no, hs hmem, hlong⟩

theorem not_reaches_of_hasLongBranch (hn : n.HasLongBranch) : ¬ n.Reaches := by
  obtain ⟨c, yes, no, hm, hlong⟩ := hn
  exact fun hr => hr _ hm (hlong.imp And.right And.right)

/-- Where a jump does not reach, the innermost one that does not leads over a branch with code. -/
theorem reaches_of_not_hasLongBranch (hn : ¬ n.HasLongBranch) : n.Reaches := by
  have inside {k m : Node} (hk : ¬ k.HasLongBranch) (hs : m.subtrees ⊆ k.subtrees) :
      ¬ m.HasLongBranch := fun h => hk (h.mono hs)
  induction n with
  | missing => simp [Reaches, subtrees, TooFar]
  | const => simp [Reaches, subtrees, TooFar]
  | splice => simp [Reaches, subtrees, TooFar]
  | unary op g x ih => exact reaches_unary.2 (ih (inside hn (List.subset_cons_self _ _)))
  | read size a ih => exact reaches_read.2 (ih (inside hn (List.subset_cons_self _ _)))
  | register o ih => exact reaches_register.2 (ih (inside hn (List.subset_cons_self _ _)))
  | convert source result x ih =>
    exact reaches_convert.2 (ih (inside hn (List.subset_cons_self _ _)))
  | trunc bits signed x ih => exact reaches_trunc.2 (ih (inside hn (List.subset_cons_self _ _)))
  | binary op g x y ihx ihy =>
    have hx := ihx (inside hn (List.subset_cons_of_subset _ (List.subset_append_left _ _)))
    have hy := ihy (inside hn (List.subset_cons_of_subset _ (List.subset_append_right _ _)))
    exact reaches_binary.2 ⟨hx, hy⟩
  | cond c yes no ihc ihyes ihno =>
    have hself : cond c yes no ∈ (cond c yes no).subtrees := .head _
    obtain ⟨hc, hyes, hno⟩ := subtrees_of_cond hself
    have hyes := ihyes (inside hn hyes)
    have hno := ihno (inside hn hno)
    refine reaches_cond.2 ⟨ihc (inside hn hc), ⟨hno, ?_⟩, hyes, ?_⟩
    · exact Nat.not_lt.1 fun hlong => hn ⟨c, yes, no, hself, .inl ⟨hno, hlong⟩⟩
    · exact Nat.not_lt.1 fun hlong => hn ⟨c, yes, no, hself, .inr ⟨hyes, hlong⟩⟩

/-- A tree of admissible nodes has no code exactly when the code of the second branch of a
conditional inside it takes more than 65532 bytes or that of the first more than 65535. Its code is
a program, and where the jumps of its fragments land on starts of instructions or at the end, so do
all. -/
theorem encode_error_iff_branch_too_long (h : ∀ m ∈ n.subtrees, m.Admissible) :
    ((∃ e, n.encode = .error e) ↔ ∃ c yes no, cond c yes no ∈ n.subtrees ∧
      ((∃ code, no.encode = .ok code ∧ 65532 < code.length) ∨
        ∃ code, yes.encode = .ok code ∧ 65535 < code.length)) ∧
    (∀ e, n.encode = .error e → e = .jumpTooFar) ∧
    ∀ code, n.encode = .ok code → Code.validate code = .ok () ∧
      ((∀ fragment, splice fragment ∈ n.subtrees → Code.JumpsLand fragment) →
        Code.JumpsLand code) := by
  have hbranch {m : Node} (hs : m.subtrees ⊆ n.subtrees) {code : List UInt8} :
      m.encode = .ok code ↔ m.Reaches ∧ code = m.layout := by
    rw [encode_eq_ite fun k hk => h k (hs hk)]
    split <;> simp_all [eq_comm]
  have hlong : n.HasLongBranch ↔ ∃ c yes no, cond c yes no ∈ n.subtrees ∧
      ((∃ code, no.encode = .ok code ∧ 65532 < code.length) ∨
        ∃ code, yes.encode = .ok code ∧ 65535 < code.length) := by
    refine exists_congr fun c => exists_congr fun yes => exists_congr fun no =>
      and_congr_right fun hm => ?_
    obtain ⟨-, hyes, hno⟩ := subtrees_of_cond hm
    simp only [hbranch hyes, hbranch hno, and_assoc, exists_and_left, exists_eq_left]
  rw [← hlong, encode_eq_ite h]
  by_cases hr : n.Reaches
  · rw [if_pos hr]
    refine ⟨⟨?_, fun hn => absurd hr (not_reaches_of_hasLongBranch hn)⟩, ?_, ?_⟩
    · rintro ⟨e, ⟨⟩⟩
    · rintro e ⟨⟩
    · rintro code ⟨⟩
      exact ⟨validateFrom_layout h hr 0, jumpsLand_layout h hr⟩
  · rw [if_neg hr]
    refine ⟨⟨fun _ => ?_, fun _ => ⟨_, rfl⟩⟩, ?_, ?_⟩
    · exact not_not.1 fun hn => hr (reaches_of_not_hasLongBranch hn)
    · rintro e ⟨⟩
      rfl
    · rintro code ⟨⟩

/-- A fragment of instructions that do nothing. -/
def idle (count : Nat) : List UInt8 := List.replicate count Opcode.noop.toByte

theorem decode_idle (count : Nat) :
    Instruction.decode Opcode.noop.toByte (idle count) = .ok (⟨.noop, 0⟩, idle count) :=
  Instruction.decode_encode (i := ⟨.noop, 0⟩) rfl (idle count)

theorem validate_idle (count : Nat) : Code.validate (idle count) = .ok () := by
  suffices h : ∀ offset, Code.validateFrom offset (idle count) = .ok () from h 0
  induction count with
  | zero =>
    intro offset
    rw [idle, List.replicate_zero, Code.validateFrom]
  | succ count ih =>
    intro offset
    refine (Code.validateFrom_cons (decode_idle count)).2 ⟨?_, ih _⟩
    intro hj
    cases hj

theorem jumpsLand_idle (count : Nat) : Code.JumpsLand (idle count) := by
  induction count with
  | zero => exact Code.jumpsLand_nil
  | succ count ih =>
    refine (Code.jumpsLand_cons (decode_idle count)).2 ⟨?_, ih⟩
    intro hj
    cases hj

/-- A choice between a constant and an idle fragment. -/
def choice (count : Nat) : Node := .cond (.unsigned 1) (.unsigned 0) (.splice (idle count))

theorem admissible_choice (count : Nat) : ∀ m ∈ (choice count).subtrees, m.Admissible := by
  simp only [choice, unsigned, subtrees, List.forall_mem_cons, List.forall_mem_append, Admissible,
    true_and]
  simpa using validate_idle count

/-- One more byte in the second branch, and there is no code. -/
theorem encode_choice_at_limit :
    (∃ code, (choice 65532).encode = .ok code ∧ Code.validate code = .ok () ∧
      Code.JumpsLand code) ∧
    (choice 65533).encode = .error .jumpTooFar := by
  have hbranch (count : Nat) : (splice (idle count)).encode = .ok (idle count) := by
    simp only [encode_eq, emit, validate_idle, Except.bind]
  have hl (count : Nat) : (idle count).length = count := List.length_replicate
  obtain ⟨hiff, -, hok⟩ := encode_error_iff_branch_too_long (admissible_choice 65532)
  obtain ⟨hiff', herror, -⟩ := encode_error_iff_branch_too_long (admissible_choice 65533)
  constructor
  · cases hc : (choice 65532).encode with
    | ok code =>
      refine ⟨code, rfl, (hok code hc).1, (hok code hc).2 fun fragment hf => ?_⟩
      have hf : fragment = idle 65532 := by
        simpa [choice, unsigned, subtrees] using hf
      rw [hf]
      exact jumpsLand_idle 65532
    | error e =>
      obtain ⟨c, yes, no, hm, hlong⟩ := hiff.1 ⟨e, hc⟩
      obtain ⟨rfl, rfl, rfl⟩ : c = unsigned 1 ∧ yes = unsigned 0 ∧ no = splice (idle 65532) := by
        simpa [choice, unsigned, subtrees] using hm
      obtain ⟨code, hno, hlong⟩ | ⟨code, hyes, hlong⟩ := hlong
      · rw [hbranch] at hno
        cases hno
        rw [hl] at hlong
        exact absurd hlong (Nat.lt_irrefl _)
      · rw [show (unsigned 0).encode = .ok [10, 0] by decide +kernel] at hyes
        cases hyes
        exact absurd hlong (by decide)
  · have hlong : ∃ code, (splice (idle 65533)).encode = .ok code ∧ 65532 < code.length :=
      ⟨_, hbranch _, by rw [hl]; exact Nat.lt_succ_self _⟩
    obtain ⟨e, he⟩ := hiff'.2 ⟨_, _, _, .head _, .inl hlong⟩
    rw [he, herror e he]

end Node

end WatchExpr
