import WatchExpr.Lowering.Compile
import WatchExpr.Proofs.Expression.Missing
import WatchExpr.Proofs.Lowering.Rules
import WatchExpr.Proofs.Tree.Simulation

namespace WatchExpr

namespace Lowering

/-- An error that is recorded stays recorded. -/
def Keeps (x : M (Option Lowered)) (s : State) : Prop :=
  Diagnostic.anyError s.diagnostics → Diagnostic.anyError (x.run s).2.diagnostics

/-- Errors stay recorded, and one is recorded when nothing is given back. -/
structure Explains (x : M (Option Lowered)) (s : State) : Prop where
  keeps : Keeps x s
  error : (x.run s).1 = none → Diagnostic.anyError (x.run s).2.diagnostics

variable {s : State}

theorem explains_refuse {offset : Nat} {c : Complaint} (hc : c.isWarning = false) :
    Explains (refuse offset c) s where
  keeps hs := by
    change Diagnostic.anyError (s.diagnostics ++ [⟨offset, c⟩])
    rw [Diagnostic.anyError_append, hs, Bool.true_or]
  error _ := Diagnostic.anyError_concat hc

theorem explains_some (r : Lowered) : Explains (pure (some r)) s where
  keeps hs := hs
  error h := by cases h

theorem explains_set (types : TypeTable) (r : Lowered) :
    Explains (do set { s with types }; return some r) s where
  keeps hs := hs
  error h := by cases h

theorem explains_get {f : State → M (Option Lowered)} (hf : Explains (f s) s) :
    Explains (get >>= f) s where
  keeps := hf.keeps
  error := hf.error

theorem explains_typeKey {f : TypeKey → M (Option Lowered)} {t : TypeExpr}
    (hf : ∀ k s, Explains (f k) s) : Explains (typeKey t >>= f) s where
  keeps hs := (hf _ _).keeps hs
  error h := (hf _ _).error h

theorem keeps_none : Keeps (pure none) s := fun hs => hs

theorem Keeps.bind {x : M (Option Lowered)} {f : Option Lowered → M (Option Lowered)}
    (hx : Keeps x s) (hf : ∀ o s, Keeps (f o) s) : Keeps (x >>= f) s :=
  fun hs => hf _ _ (hx hs)

/-- Where one part fails, what follows has only to keep its error. -/
theorem Explains.bind {x : M (Option Lowered)} {f : Option Lowered → M (Option Lowered)}
    (hx : Explains x s) (hnone : ∀ s, Keeps (f none) s) (hsome : ∀ r s, Explains (f (some r)) s) :
    Explains (x >>= f) s := by
  obtain ⟨⟨o, s₁⟩, hr⟩ : ∃ out, x.run s = out := ⟨_, rfl⟩
  have hrun : (x >>= f).run s = (f o).run s₁ := by
    change (f (x.run s).1).run (x.run s).2 = _
    rw [hr]
  cases o with
  | none =>
    have he := hx.error (by rw [hr])
    rw [hr] at he
    constructor
    · intro _
      rw [hrun]
      exact hnone s₁ he
    · intro _
      rw [hrun]
      exact hnone s₁ he
  | some r =>
    constructor
    · intro hs
      have hk := hx.keeps hs
      rw [hr] at hk
      rw [hrun]
      exact (hsome r s₁).keeps hk
    · intro hn
      rw [hrun] at hn ⊢
      exact (hsome r s₁).error hn

theorem explains_asValue (offset : Nat) (r : Lowered) (s : State) :
    Explains (asValue offset (some r)) s := by
  apply explains_get
  split
  · exact explains_set _ _
  · exact explains_refuse rfl

theorem Explains.asValue {x : M (Option Lowered)} (hx : Explains x s) (offset : Nat) :
    Explains (x >>= Lowering.asValue offset) s :=
  hx.bind (fun _ => keeps_none) (explains_asValue offset)

theorem Explains.value {x : M (Option Lowered)} {f : Option Lowered → M (Option Lowered)}
    {offset : Nat} (hx : Explains x s) (hnone : ∀ s, Keeps (f none) s)
    (hsome : ∀ r s, Explains (f (some r)) s) :
    Explains (x >>= fun r => Lowering.asValue offset r >>= f) s := by
  rw [← bind_assoc]
  exact (hx.asValue offset).bind hnone hsome

theorem Keeps.value {x : M (Option Lowered)} {f : Option Lowered → M (Option Lowered)}
    {offset : Nat} (hx : Explains x s) (hf : ∀ o s, Keeps (f o) s) :
    Keeps (x >>= fun r => Lowering.asValue offset r >>= f) s := by
  rw [← bind_assoc]
  exact (hx.asValue offset).keeps.bind hf

section
variable (start : Nat)

theorem explains_lowerLeaf (name : Text) (code : List UInt8) (type : TypeKey) (mode : Mode) :
    Explains (lowerLeaf start name code type mode) s := by
  rw [lowerLeaf]
  split
  · exact explains_refuse rfl
  · split
    · exact explains_some _
    · exact explains_refuse rfl

theorem explains_lowerUnary (op : PrefixOp) (x : Lowered) :
    Explains (lowerUnary start op x) s := by
  apply explains_get
  simp only
  split
  · exact explains_some _
  · split
    · exact explains_refuse rfl
    · split
      · exact explains_refuse rfl
      · split <;> exact explains_some _

theorem explains_lowerLogical (op : InfixOp) (x y : Lowered) :
    Explains (lowerLogical start op x y) s := by
  apply explains_get
  simp only
  split
  · exact explains_refuse rfl
  · split <;> exact explains_some _

theorem explains_lowerPointerCompare (op : InfixOp) (x y : Lowered) :
    Explains (lowerPointerCompare start op x y) s := by
  apply explains_get
  simp only
  split
  · exact explains_refuse rfl
  · split
    · exact explains_refuse rfl
    · exact explains_some _

theorem explains_lowerPointerOffset (op : BinaryOp) (p i : Lowered) :
    Explains (lowerPointerOffset start op p i) s := by
  apply explains_get
  simp only
  split
  · exact explains_refuse rfl
  · split
    · exact explains_refuse rfl
    · exact explains_some _

theorem explains_lowerPointerDifference (x y : Lowered) :
    Explains (lowerPointerDifference start x y) s := by
  apply explains_get
  simp only
  split
  · exact explains_refuse rfl
  · split
    · exact explains_refuse rfl
    · exact explains_some _

theorem explains_lowerArithmetic (op : InfixOp) (x y : Lowered) :
    Explains (lowerArithmetic start op x y) s := by
  apply explains_get
  change Explains
    (if !s.types.isArithmetic x.type || !s.types.isArithmetic y.type then refuse start .badOperands
      else if !op.opcode.accepts (operandType s.types op x y).group then refuse start .badOperands
      else if op.isShift ∧ !(s.types.scalarGroup y.type).isInteger then refuse start .badOperands
      else if op.isComparison then pure (truth (operation s.types op x y))
      else if mayOverflow op then
        pure (value (s.types.truncateTo (operation s.types op x y) (operandType s.types op x y))
          (operandType s.types op x y))
      else pure (value (operation s.types op x y) (operandType s.types op x y))) s
  split
  · exact explains_refuse rfl
  split
  · exact explains_refuse rfl
  split
  · exact explains_refuse rfl
  split
  · exact explains_some _
  · split <;> exact explains_some _

theorem explains_lowerBinary (op : InfixOp) (x y : Lowered) :
    Explains (lowerBinary start op x y) s := by
  apply explains_get
  simp only
  split
  · exact explains_lowerLogical start op x y
  split
  · exact explains_lowerPointerCompare start op x y
  split
  · exact explains_lowerPointerOffset start _ x y
  split
  · exact explains_lowerPointerOffset start _ y x
  split
  · exact explains_lowerPointerOffset start _ x y
  split
  · exact explains_lowerPointerDifference start x y
  · exact explains_lowerArithmetic start op x y

theorem explains_lowerTernary (conditionStart : Nat) (c yes no : Lowered) :
    Explains (lowerTernary start conditionStart c yes no) s := by
  apply explains_get
  simp only
  split
  · exact explains_refuse rfl
  · split
    · exact explains_some _
    · split
      · exact explains_some _
      · exact explains_refuse rfl

theorem explains_lowerCast (k : TypeKey) (x : Lowered) : Explains (lowerCast start k x) s := by
  apply explains_get
  simp only
  split
  · exact explains_refuse rfl
  · split
    · exact explains_some _
    · exact explains_refuse rfl

theorem explains_lowerDeref (x : Lowered) : Explains (lowerDeref start x) s := by
  apply explains_get
  simp only
  split
  · exact explains_refuse rfl
  · split
    · exact explains_refuse rfl
    · split
      · exact explains_refuse rfl
      · exact explains_some _

theorem explains_lowerAddressOf (x : Lowered) : Explains (lowerAddressOf start x) s := by
  apply explains_get
  split
  · exact explains_refuse rfl
  · exact explains_set _ _

theorem explains_element (address index : Node) (elem : TypeKey) :
    Explains (element start address index elem) s := by
  apply explains_get
  simp only
  split
  · exact explains_refuse rfl
  · exact explains_some _

theorem explains_lowerIndex (baseStart indexStart : Nat) (base index : Lowered) :
    Explains (lowerIndex start baseStart indexStart base index) s := by
  apply explains_get
  simp only
  split
  · exact explains_refuse rfl
  split
  · split
    · exact explains_refuse rfl
    · exact explains_element start _ _ _
  split
  · exact (explains_asValue baseStart base s).bind (fun _ => keeps_none)
      fun p _ => explains_element start _ _ _
  · exact explains_refuse rfl

theorem explains_member (base : Node) (mode : Mode) (record : TypeKey) (field : Field) :
    Explains (member start base mode record field) s := by
  apply explains_get
  simp only
  split
  · exact explains_refuse rfl
  · split
    · exact explains_some _
    · exact explains_refuse rfl

theorem explains_lowerMember (baseStart : Nat) (base : Lowered) (field : Field) :
    Explains (lowerMember start baseStart base field) s := by
  apply explains_get
  simp only
  split
  · exact (explains_asValue baseStart base s).bind (fun _ => keeps_none)
      fun p _ => explains_member start _ _ _ _
  · split
    · exact explains_refuse rfl
    · exact explains_member start _ _ _ _

theorem explains_lowerSize (k : TypeKey) : Explains (lowerSize start k) s := by
  rw [lowerSize]
  split
  · exact explains_refuse rfl
  · exact explains_get (explains_some _)

end

/-- Checking a tree without gaps gives up only after an error. -/
theorem explains_lower {e : Expr} (h : e.Complete) (s : State) : Explains (lower e) s := by
  induction e generalizing s with
  | missing => cases h
  | int => exact explains_some _
  | float => exact explains_some _
  | leaf span name code type mode => exact explains_lowerLeaf _ _ _ _ _
  | type t => exact explains_refuse rfl
  | unary span op x ih => exact (ih h s).value (fun _ => keeps_none) fun v _ => explains_lowerUnary ..
  | binary span op x y ihx ihy =>
    refine (ihx h.1 s).value (fun s => ?_) fun a s => ?_
    · exact .value (ihy h.2 s) fun _ _ => keeps_none
    · exact (ihy h.2 s).value (fun _ => keeps_none) fun b _ => explains_lowerBinary ..
  | ternary span c yes no ihc ihyes ihno =>
    refine (ihc h.1 s).value (fun s => ?_) fun a s => (ihyes h.2.1 s).value (fun s => ?_) fun b s => ?_
    · exact .value (ihyes h.2.1 s) fun _ s => .value (ihno h.2.2 s) fun _ _ => keeps_none
    · exact .value (ihno h.2.2 s) fun _ _ => keeps_none
    · exact (ihno h.2.2 s).value (fun _ => keeps_none) fun d _ => explains_lowerTernary ..
  | cast span type x ih =>
    refine explains_typeKey fun k s => ?_
    split
    · exact explains_refuse rfl
    · exact (ih h s).value (fun _ => keeps_none) fun v _ => explains_lowerCast ..
  | sizeof span x ih =>
    cases x with
    | type t => exact explains_typeKey fun k s => explains_lowerSize ..
    | _ => exact (ih h s).bind (fun _ => keeps_none) fun r _ => explains_lowerSize ..
  | deref span x ih => exact (ih h s).value (fun _ => keeps_none) fun v _ => explains_lowerDeref ..
  | addressOf span x ih =>
    exact (ih h s).bind (fun _ => keeps_none) fun r _ => explains_lowerAddressOf ..
  | index span x i ihx ihi =>
    refine (ihx h.1 s).bind (fun s => ?_) fun b s => ?_
    · exact .value (ihi h.2 s) fun _ _ => keeps_none
    · exact (ihi h.2 s).value (fun _ => keeps_none) fun v _ => explains_lowerIndex ..
  | member span x field arrow ih =>
    exact (ih h s).bind (fun _ => keeps_none) fun b _ => explains_lowerMember ..

end Lowering

namespace Node

/-- A tree that can be encoded can be encoded with one more instruction behind it. -/
theorem encode_concat {n n' : Node} {code : List UInt8} {i : Instruction}
    (h : n.encode = .ok code) (hn : n'.emit = .ok (code ++ i.encode)) (hv : i.op.isValid)
    (hj : i.op.isJump = false) : n'.encode = .ok (code ++ i.encode) := by
  rw [encode_eq] at h ⊢
  obtain ⟨code', he, h⟩ := bind_eq_ok h
  split at h
  · rename_i hc
    cases h
    rw [hn]
    simp only [Except.bind, Code.validate_concat hc hv hj]
  · cases h

theorem encode_trunc {n : Node} {code : List UInt8} (bits : UInt8) (signed : Bool)
    (h : n.encode = .ok code) : ∃ code', (trunc bits signed n).encode = .ok code' := by
  have he := emit_of_encode h
  refine ⟨_, encode_concat
    (i := ⟨if signed then .truncSigned else .trunc, bits.toUInt64⟩) h ?_ ?_ ?_⟩
  · simp [emit, he, bind, Except.bind, pure, Except.pure]
  · cases signed <;> rfl
  · cases signed <;> rfl

theorem encode_read {n : Node} {code : List UInt8} {size : UInt8} (hs : ¬ (size < 1 ∨ 8 < size))
    (h : n.encode = .ok code) : ∃ code', (read size n).encode = .ok code' := by
  have he := emit_of_encode h
  refine ⟨_, encode_concat (i := ⟨.memRead, size.toUInt64⟩) h ?_ rfl rfl⟩
  rw [emit, if_neg hs, he]
  rfl

theorem encode_register {n : Node} {code : List UInt8} (h : n.encode = .ok code) :
    ∃ code', (register n).encode = .ok code' := by
  have he := emit_of_encode h
  refine ⟨_, encode_concat (i := ⟨.regReadDyn, 0⟩) h ?_ rfl rfl⟩
  simp [emit, he, bind, Except.bind, pure, Except.pure]

end Node

/-- Loading a value adds instructions that can always be encoded. -/
theorem TypeTable.encode_load {t t' : TypeTable} {r v : Lowered} {code : List UInt8}
    (hv : t.load r = (some v, t')) (hr : r.node.encode = .ok code) :
    ∃ code', v.node.encode = .ok code' := by
  have htrunc {n : Node} {code : List UInt8} (k : TypeKey) (h : n.encode = .ok code) :
      ∃ code', (t.truncateTo n k).encode = .ok code' := by
    simp only [truncateTo]
    split
    · exact ⟨code, h⟩
    · exact Node.encode_trunc _ _ h
  simp only [load] at hv
  split at hv
  · cases hv
    exact ⟨code, hr⟩
  · split at hv
    · cases hv
      exact ⟨code, hr⟩
    · split at hv
      · cases hv
      · rename_i hsize
        cases hv
        have hs : ¬ ((t.byteSize (t.unwrap r.type)).toUInt8 < 1 ∨
            8 < (t.byteSize (t.unwrap r.type)).toUInt8) := by
          generalize t.byteSize (t.unwrap r.type) = size at hsize
          simp only [UInt8.lt_iff_toNat_lt, UInt64.lt_iff_toNat_lt, ← UInt64.toNat_inj,
            UInt64.toNat_toUInt8] at hsize ⊢
          have h0 : (0 : UInt64).toNat = 0 := rfl
          have h8 : (8 : UInt64).toNat = 8 := rfl
          have h1' : (1 : UInt8).toNat = 1 := rfl
          have h8' : (8 : UInt8).toNat = 8 := rfl
          omega
        obtain ⟨code', hcode'⟩ := Node.encode_read hs hr
        split
        · exact Node.encode_trunc _ _ hcode'
        · exact ⟨code', hcode'⟩
  · split at hv
    · cases hv
    · cases hv
      obtain ⟨code', hcode'⟩ := Node.encode_register hr
      exact htrunc _ hcode'

section
variable (c : Context) (text : Text)

/-- What the checking of a text gives, and its diagnostics behind those of the reading. -/
def checked : Option Lowered × Lowering.State :=
  let (ast, diagnostics) := Parser.parse c text (Lexer.scan text)
  let (r, s) := (Lowering.lower ast).run { types := c.types }
  (r, { s with diagnostics := diagnostics ++ s.diagnostics })

theorem anyError_of_checked (h : (checked c text).1 = none) :
    Diagnostic.anyError (checked c text).2.diagnostics := by
  change Diagnostic.anyError ((Parser.parse c text (Lexer.scan text)).2 ++ _) = true
  rw [Diagnostic.anyError_append, Bool.or_eq_true]
  cases hd : Diagnostic.anyError (Parser.parse c text (Lexer.scan text)).2 with
  | true => exact .inl rfl
  | false => exact .inr ((Lowering.explains_lower (Parser.complete_parse hd) _).error h)

theorem compile_code_iff_anyError :
    (compile c text).1.code = none ↔ Diagnostic.anyError (compile c text).1.diagnostics := by
  have herror := anyError_of_checked c text
  obtain ⟨⟨ast, ds⟩, hp⟩ : ∃ out, Parser.parse c text (Lexer.scan text) = out := ⟨_, rfl⟩
  obtain ⟨⟨o, s⟩, hl⟩ : ∃ out, (Lowering.lower ast).run { types := c.types } = out := ⟨_, rfl⟩
  simp only [checked, compile, hp, hl] at herror ⊢
  cases o with
  | none =>
    have he := herror rfl
    simp only [Diagnostic.anyError_append, he, Bool.true_or]
  | some r =>
    simp only
    split
    · rename_i he
      simp [he]
    · rename_i he
      split
      · simp [Diagnostic.isError, Complaint.isWarning]
      · rename_i code hcode
        split
        · simp [he]
        · rename_i v t hv
          obtain ⟨code', hcode'⟩ := TypeTable.encode_load hv hcode
          simp [hcode', he]

end

/-- A text has no code exactly when there is an error among its diagnostics. A gap in the tree and
a check that gives up come with an error, warnings alone leave the code in place, and the value of
what was encoded can be encoded. A size that runs in a circle counts as 0 (`TypeTable.byteSize`). -/
theorem compile_code_eq_none_iff (c : Context) (text : Text) :
    ((compile c text).1.code = none ↔ ∃ d ∈ (compile c text).1.diagnostics, d.isError) ∧
    (¬ (Parser.parse c text (Lexer.scan text)).1.Complete →
      ∃ d ∈ (Parser.parse c text (Lexer.scan text)).2, d.isError) ∧
    ((checked c text).1 = none → ∃ d ∈ (checked c text).2.diagnostics, d.isError) ∧
    ((∀ d ∈ (compile c text).1.diagnostics, d.complaint.isWarning) →
      ∃ code, (compile c text).1.code = some code) ∧
    (∀ r code v t, (checked c text).1 = some r → r.node.encode = .ok code →
      (checked c text).2.types.load r = (some v, t) → ∃ valueCode, v.node.encode = .ok valueCode) := by
  have hcode := compile_code_iff_anyError c text
  rw [Diagnostic.anyError, List.any_eq_true] at hcode
  refine ⟨hcode, fun hc => ?_, fun hn => ?_, fun hw => ?_, fun r code v t _ he hv => ?_⟩
  · by_contra he
    rw [← List.any_eq_true, Bool.not_eq_true] at he
    exact hc (Parser.complete_parse he)
  · exact List.any_eq_true.1 (anyError_of_checked c text hn)
  · apply Option.ne_none_iff_exists'.1
    intro hn
    obtain ⟨d, hd, he⟩ := hcode.1 hn
    rw [Diagnostic.isError, hw d hd] at he
    cases he
  · exact TypeTable.encode_load hv he

end WatchExpr
