import WatchExpr.Proofs.Expression.Nesting

namespace WatchExpr.Parser

/-- The same surroundings with another limit on nesting. -/
def Env.withLimit (env : Env) (limit : Int) : Env :=
  ⟨{ env.context with maxDepth := limit }, env.text⟩

/-- What one reader reads without hitting the limit, the other one reads in the same way. -/
def Reader.Covers (sub sub' : Reader) : Prop :=
  ∀ ceiling ts, (sub.read ceiling ts).tooDeep = false → sub'.read ceiling ts = sub.read ceiling ts

variable {env : Env} {limit : Int} {sub sub' : Reader} {ts : List Token} {p : Parsed}

section
variable (hc : sub.Covers sub') (hs : sub.Ends env)
include hc

theorem read_of_covers {ceiling : Nat} {ts : List Token} {i : Parsed}
    (hi : sub.read ceiling ts = i) (hd : i.tooDeep = false) : sub'.read ceiling ts = i := by
  subst hi
  exact hc ceiling ts hd

theorem atomRun_of_covers (h : AtomRun env sub ts p) (hd : p.tooDeep = false) :
    AtomRun (env.withLimit limit) sub' ts p := by
  cases h with
  | nil => exact .nil
  | closed hopen hi hr hclose => exact .closed hopen (read_of_covers hc hi hd) hr hclose
  | unclosed hopen hi hclose => exact .unclosed hopen (read_of_covers hc hi hd) hclose
  | written hw hp => exact .written hw hp
  | token hopen hw => exact .token hopen hw

include hs

theorem read_of_covers_of_cons {ceiling : Nat} {ts after : List Token} {i : Parsed} {tok : Token}
    (hi : sub.read ceiling ts = i) (hr : i.rest = tok :: after) : sub'.read ceiling ts = i := by
  subst hi
  exact hc ceiling ts ((hs ceiling ts).finished_of_cons hr).1

theorem postfixRun_of_covers {x : Expr} (h : PostfixRun sub x ts p) (hd : p.tooDeep = false) :
    PostfixRun sub' x ts p := by
  induction h with
  | stop h => exact .stop h
  | noName hdot hname => exact .noName hdot hname
  | member hdot hname _ ih => exact .member hdot hname (ih hd)
  | unclosed hdot hopen hi hclose => exact .unclosed hdot hopen (read_of_covers hc hi hd) hclose
  | index hdot hopen hi hr hclose _ ih =>
    exact .index hdot hopen (read_of_covers_of_cons hc hs hi hr) hr hclose (ih hd)

theorem operandRun_of_covers {budget budget' : Nat} (hle : budget ≤ budget') {marks : List Prefixed}
    (h : OperandRun env sub budget marks ts p) (hd : p.tooDeep = false) :
    OperandRun (env.withLimit limit) sub' budget' marks ts p := by
  induction h with
  | core hstep ha hf =>
    obtain ⟨hda, hdf⟩ := Bool.or_eq_false_iff.1 hd
    exact .core hstep (atomRun_of_covers hc ha hda) (postfixRun_of_covers hc hs hf hdf)
  | sizeOfType hstep => exact .sizeOfType hstep
  | tooDeep => cases hd
  | mark hstep hb _ ih => exact .mark hstep (Nat.lt_of_lt_of_le hb hle) (ih hd)

theorem climbRun_of_covers {ceiling : Nat} {left : Expr} (h : ClimbRun env sub ceiling left ts p)
    (hd : p.tooDeep = false) : ClimbRun (env.withLimit limit) sub' ceiling left ts p := by
  induction h with
  | stop h => exact .stop h
  | noColon hk hq hceiling hyes hcolon =>
    exact .noColon hk hq hceiling (read_of_covers hc hyes hd) hcolon
  | noBranch hk hq hceiling hyes hr hcolon =>
    exact .noBranch hk hq hceiling (read_of_covers hc hyes hd) hr hcolon
  | conditional hk hq hceiling hyes hr hcolon hne hno _ ih =>
    obtain ⟨hdn, hdw⟩ := Bool.or_eq_false_iff.1 hd
    exact .conditional hk hq hceiling (read_of_covers_of_cons hc hs hyes hr) hr hcolon hne
      (read_of_covers hc hno hdn) (ih hdw)
  | noOperand hk hop hceiling => exact .noOperand hk hop hceiling
  | operator hk hop hceiling hne hright _ ih =>
    obtain ⟨hdr, hdw⟩ := Bool.or_eq_false_iff.1 hd
    exact .operator hk hop hceiling hne (read_of_covers hc hright hdr) (ih hdw)

end

theorem covers_reader (env : Env) (limit : Int) {budget budget' : Nat} (hle : budget ≤ budget') :
    (reader env budget).Covers (reader (env.withLimit limit) budget') := by
  induction budget generalizing budget' with
  | zero =>
    intro ceiling ts hd
    cases hd
  | succ budget ih =>
    obtain ⟨budget', rfl⟩ : ∃ b, budget' = b + 1 := ⟨budget' - 1, by omega⟩
    have hle := Nat.le_of_succ_le_succ hle
    have hs := ends_reader env budget
    intro ceiling ts hd
    obtain ⟨first, whole, hfirst, hwhole, hr⟩ := reader_run env budget ceiling ts
    rw [hr] at hd ⊢
    obtain ⟨hdf, hdw⟩ := Bool.or_eq_false_iff.1 hd
    exact reader_eq (operandRun_of_covers (ih hle) hs hle hfirst hdf)
      (climbRun_of_covers (ih hle) hs hwhole hdw)

theorem parse_of_depthLimit_le (c : Context) (text : Text) (ts : List Token) (limit : Int)
    (hle : c.depthLimit ≤ { c with maxDepth := limit }.depthLimit)
    (hs : Shallow (parse c text ts).2) :
    parse { c with maxDepth := limit } text ts = parse c text ts := by
  by_cases hne : ts = []
  · subst hne
    rfl
  have hempty : ts.isEmpty = false := List.isEmpty_eq_false_iff.2 hne
  obtain ⟨hdeep, -⟩ | ⟨hdeep, hp⟩ := parse_cases c text hne rfl
  · have hread : (reader ⟨{ c with maxDepth := limit }, text⟩
        { c with maxDepth := limit }.depthLimit).read maxPrecedence ts =
          (reader ⟨c, text⟩ c.depthLimit).read maxPrecedence ts :=
      covers_reader ⟨c, text⟩ limit hle maxPrecedence ts hdeep
    simp only [parse, hempty, hread]
  · rw [hp] at hs
    rw [(ends_reader ⟨c, text⟩ c.depthLimit maxPrecedence ts).shallow_iff.1 hs] at hdeep
    cases hdeep

/-- What is read without hitting the limit on nesting is read in the same way under a higher one:
the tree, its places and what is complained about are the same. A size that runs in a circle counts
as 0 (`TypeTable.byteSize`). -/
theorem parse_withLimit (c : Context) (text : Text) (ts : List Token) {limit limit' : Int}
    (hpos : 0 < limit) (hle : limit ≤ limit')
    (hs : Shallow (parse { c with maxDepth := limit } text ts).2) :
    parse { c with maxDepth := limit' } text ts = parse { c with maxDepth := limit } text ts := by
  refine parse_of_depthLimit_le { c with maxDepth := limit } text ts limit' ?_ hs
  simp only [Context.depthLimit, gt_iff_lt, if_pos hpos, if_pos (Int.lt_of_lt_of_le hpos hle)]
  omega

/-- Under a limit that is just high enough, and under a higher one. -/
theorem parse_withLimit_four :
    0 < (4 : Int) ∧ (4 : Int) ≤ 100 ∧
      Shallow (parse (.bare .x64 4) "(1 ? 2 : -3" (Lexer.scan "(1 ? 2 : -3")).2 ∧
      parse (.bare .x64 100) "(1 ? 2 : -3" (Lexer.scan "(1 ? 2 : -3") =
        parse (.bare .x64 4) "(1 ? 2 : -3" (Lexer.scan "(1 ? 2 : -3") := by
  have hs : Shallow (parse (.bare .x64 4) "(1 ? 2 : -3" (Lexer.scan "(1 ? 2 : -3")).2 := by
    decide +kernel
  exact ⟨by decide, by decide, hs,
    parse_withLimit (.bare .x64) _ _ (by decide) (by decide) hs⟩

end WatchExpr.Parser
