import Mathlib.Data.List.Basic
import WatchExpr.Lexical.Lexer

namespace WatchExpr.Lexer

inductive TemplateRun : Nat → Text → Prop
  | opened {depth : Nat} {u : Text} (h : TemplateRun (depth + 1) u) : TemplateRun depth (0x3c :: u)
  | last {depth : Nat} (hd : depth ≤ 1) : TemplateRun depth [0x3e]
  | closed {depth : Nat} {u : Text} (hd : ¬ depth ≤ 1) (h : TemplateRun (depth - 1) u) :
      TemplateRun depth (0x3e :: u)
  | part {depth : Nat} {c : UInt8} {u : Text} (hc : isTemplatePart c) (h : TemplateRun depth u) :
      TemplateRun depth (c :: u)

theorem templateRun {depth n : Nat} {t : Text} (h : templateLength? depth t = some n) :
    ∃ u rest, t = u ++ rest ∧ u.length = n ∧ TemplateRun depth u := by
  fun_induction templateLength? depth t generalizing n with
  | case1 => cases h
  | case2 depth c rest hc ih =>
    obtain ⟨m, hm, rfl⟩ := Option.map_eq_some_iff.1 h
    obtain ⟨u, rest, rfl, rfl, hu⟩ := ih hm
    rw [eq_of_beq hc]
    exact ⟨0x3c :: u, rest, rfl, Nat.add_comm _ _, .opened hu⟩
  | case3 depth c rest _ hc hd =>
    cases h
    rw [eq_of_beq hc]
    exact ⟨[0x3e], rest, rfl, rfl, .last hd⟩
  | case4 depth c rest _ hc hd ih =>
    obtain ⟨m, hm, rfl⟩ := Option.map_eq_some_iff.1 h
    obtain ⟨u, rest, rfl, rfl, hu⟩ := ih hm
    rw [eq_of_beq hc]
    exact ⟨0x3e :: u, rest, rfl, Nat.add_comm _ _, .closed hd hu⟩
  | case5 depth c rest _ _ hc ih =>
    obtain ⟨m, hm, rfl⟩ := Option.map_eq_some_iff.1 h
    obtain ⟨u, rest, rfl, rfl, hu⟩ := ih hm
    exact ⟨c :: u, rest, rfl, Nat.add_comm _ _, .part hc hu⟩
  | case6 => cases h

namespace TemplateRun

variable {depth : Nat} {u : Text}

/-- A list of template arguments is taken whatever comes behind it. -/
theorem eq (h : TemplateRun depth u) (rest : Text) :
    templateLength? depth (u ++ rest) = some u.length := by
  induction h with
  | opened _ ih =>
    rw [List.cons_append, templateLength?, if_pos (by decide), ih, List.length_cons, Nat.add_comm]
    rfl
  | last hd =>
    rw [List.cons_append, templateLength?, if_neg (by decide), if_pos (by decide), if_pos hd]
    rfl
  | closed hd _ ih =>
    rw [List.cons_append, templateLength?, if_neg (by decide), if_pos (by decide), if_neg hd,
      ih, List.length_cons, Nat.add_comm]
    rfl
  | @part _ c u hc _ ih =>
    have hopen : ¬ (c == 0x3c) = true := by
      intro h
      rw [eq_of_beq h] at hc
      cases hc
    have hclose : ¬ (c == 0x3e) = true := by
      intro h
      rw [eq_of_beq h] at hc
      cases hc
    rw [List.cons_append, templateLength?, if_neg hopen, if_neg hclose, if_pos hc, ih,
      List.length_cons, Nat.add_comm]
    rfl

theorem getLast?_eq (h : TemplateRun depth u) : u.getLast? = some 0x3e := by
  induction h with
  | opened _ ih => rw [List.getLast?_cons, ih]; rfl
  | last => rfl
  | closed _ _ ih => rw [List.getLast?_cons, ih]; rfl
  | part _ _ ih => rw [List.getLast?_cons, ih]; rfl

end TemplateRun

theorem identifierLength_cons (c : UInt8) (t : Text) :
    identifierLength (c :: t) =
      if isIdentifierPart c then 1 + identifierLength t
      else if c == 0x3a then
        if t.head? = some 0x3a ∧ t.tail.head?.any isScopeFollow then 2 + identifierLength t.tail
        else 0
      else if c == 0x3c then
        (templateLength? 0 (c :: t)).elim 0 fun n => n + identifierLength (t.drop (n - 1))
      else 0 := by
  generalize hct : c :: t = ct
  fun_cases identifierLength ct with
  | case1 => cases hct
  | case2 c rest hc =>
    cases hct
    rw [if_pos hc]
  | case3 c hp hc d after hd =>
    cases hct
    rw [if_neg hp, if_pos hc, if_pos ⟨rfl, hd⟩]
    rfl
  | case4 c hp hc d after hd =>
    cases hct
    rw [if_neg hp, if_pos hc, if_neg fun h => hd h.2]
  | case5 c rest hp hc hrest =>
    cases hct
    rw [if_neg hp, if_pos hc, if_neg]
    rintro ⟨hhead, hd⟩
    obtain ⟨after, rfl⟩ := List.head?_eq_some_iff.1 hhead
    cases after with
    | nil => cases hd
    | cons d after => exact hrest d after rfl
  | case6 c rest hp hc hl n hn =>
    cases hct
    rw [if_neg hp, if_neg hc, if_pos hl, hn]
    rfl
  | case7 c rest hp hc hl hn =>
    cases hct
    rw [if_neg hp, if_neg hc, if_pos hl, hn]
    rfl
  | case8 c rest hp hc hl =>
    cases hct
    rw [if_neg hp, if_neg hc, if_neg hl]

/-- The runs of `identifierLength` over what it takes, in front of what it leaves. -/
inductive IdentifierRun : Text → Text → Prop
  | stop {rest : Text} (h : identifierLength rest = 0) : IdentifierRun [] rest
  | part {c : UInt8} {u rest : Text} (hc : isIdentifierPart c) (h : IdentifierRun u rest) :
      IdentifierRun (c :: u) rest
  | separator {u rest : Text} (hd : (u ++ rest).head?.any isScopeFollow)
      (h : IdentifierRun u rest) : IdentifierRun (0x3a :: 0x3a :: u) rest
  | arguments {l u rest : Text} (hl : TemplateRun 0 (0x3c :: l)) (h : IdentifierRun u rest) :
      IdentifierRun (0x3c :: (l ++ u)) rest

theorem exists_identifierRun (t : Text) : ∃ u rest, t = u ++ rest ∧ IdentifierRun u rest := by
  induction hn : t.length using Nat.strongRecOn generalizing t with
  | _ n ih =>
    subst hn
    -- by length: one part is taken off in front, unless nothing is taken at all
    obtain hz | hpos := Nat.eq_zero_or_pos (identifierLength t)
    · exact ⟨[], t, rfl, .stop hz⟩
    cases t with
    | nil =>
      rw [identifierLength] at hpos
      cases hpos
    | cons c t =>
      rw [identifierLength_cons] at hpos
      split at hpos
      · rename_i hc
        obtain ⟨u, rest, rfl, hu⟩ := ih t.length (Nat.lt_succ_self _) t rfl
        exact ⟨c :: u, rest, rfl, .part hc hu⟩
      split at hpos
      · rename_i hc
        split at hpos
        · rename_i hd
          obtain ⟨t, rfl⟩ := List.head?_eq_some_iff.1 hd.1
          obtain ⟨u, rest, rfl, hu⟩ := ih t.length (by simp only [List.length_cons]; omega) t rfl
          rw [eq_of_beq hc]
          exact ⟨0x3a :: 0x3a :: u, rest, rfl, .separator hd.2 hu⟩
        · cases hpos
      split at hpos
      · rename_i hc
        cases hn : templateLength? 0 (c :: t) with
        | none =>
          rw [hn] at hpos
          cases hpos
        | some n =>
          obtain ⟨l, behind, hl, -, hrun⟩ := templateRun hn
          cases l with
          | nil => cases hrun
          | cons b l =>
            cases hl
            rw [eq_of_beq hc] at hrun
            have hlt : behind.length < (c :: (l ++ behind)).length := by
              rw [List.length_cons, List.length_append]
              omega
            obtain ⟨u, rest, rfl, hu⟩ := ih behind.length hlt behind rfl
            rw [eq_of_beq hc]
            exact ⟨0x3c :: (l ++ u), rest, congrArg (0x3c :: ·) (List.append_assoc l u rest).symm,
              .arguments hrun hu⟩
      · cases hpos

namespace IdentifierRun

variable {u rest : Text}

theorem eq (h : IdentifierRun u rest) : identifierLength (u ++ rest) = u.length := by
  induction h with
  | stop h => exact h
  | part hc _ ih =>
    rw [List.cons_append, identifierLength_cons, if_pos hc, ih, List.length_cons, Nat.add_comm]
  | separator hd _ ih =>
    rw [List.cons_append, identifierLength_cons, if_neg (by decide),
      if_pos (by decide), if_pos ⟨rfl, hd⟩, List.cons_append, List.tail_cons, ih, List.length_cons, List.length_cons,
      Nat.add_comm]
  | @arguments l u rest hl _ ih =>
    have hlength := hl.eq (u ++ rest)
    rw [List.cons_append] at hlength
    rw [List.cons_append, List.append_assoc, identifierLength_cons, if_neg (by decide),
      if_neg (by decide), if_pos (by decide), hlength]
    simp only [Option.elim_some, List.length_cons, Nat.add_sub_cancel, List.drop_left, ih, List.length_append]
    omega

/-- An identifier ends in a colon only with a separator, and then something follows that may. -/
theorem of_getLast? (h : IdentifierRun u rest) (hl : u.getLast? = some 0x3a) :
    [0x3a, 0x3a] <:+ u ∧ rest.head?.any isScopeFollow := by
  induction h with
  | stop => cases hl
  | @part c u rest hc _ ih =>
    cases u with
    | nil =>
      cases hl
      cases hc
    | cons d u =>
      obtain ⟨hs, hd⟩ := ih hl
      exact ⟨hs.trans (List.suffix_cons _ _), hd⟩
  | @separator u rest hd _ ih =>
    cases u with
    | nil => exact ⟨List.suffix_refl _, hd⟩
    | cons d u =>
      obtain ⟨hs, hd⟩ := ih hl
      exact ⟨hs.trans ((List.suffix_cons _ _).trans (List.suffix_cons _ _)), hd⟩
  | @arguments l u rest hrun _ ih =>
    cases u with
    | nil =>
      rw [List.append_nil, hrun.getLast?_eq] at hl
      cases hl
    | cons d u =>
      rw [← List.cons_append, List.getLast?_append_cons] at hl
      obtain ⟨hs, hd⟩ := ih hl
      exact ⟨hs.trans ((List.suffix_append _ _).trans (List.suffix_cons _ _)), hd⟩

/-- What does not end in a separator is taken in front of everything that ends an identifier. -/
theorem before (h : IdentifierRun u rest) (hl : u.getLast? ≠ some 0x3a) {rest' : Text}
    (hrest : identifierLength rest' = 0) : IdentifierRun u rest' := by
  induction h with
  | stop => exact .stop hrest
  | @part c u rest hc _ ih =>
    cases u with
    | nil => exact .part hc (ih nofun)
    | cons d u => exact .part hc (ih hl)
  | @separator u rest hd _ ih =>
    cases u with
    | nil => exact absurd rfl hl
    | cons d u => exact .separator hd (ih hl)
  | @arguments l u rest hrun _ ih =>
    cases u with
    | nil => exact .arguments hrun (ih nofun)
    | cons d u =>
      rw [← List.cons_append, List.getLast?_append_cons] at hl
      exact .arguments hrun (ih hl)

end IdentifierRun

theorem identifierRun (t : Text) :
    IdentifierRun (t.take (identifierLength t)) (t.drop (identifierLength t)) := by
  obtain ⟨u, rest, rfl, h⟩ := exists_identifierRun t
  rw [h.eq, List.take_left, List.drop_left]
  exact h

theorem identifierRun_of_length {t rest : Text} (h : identifierLength (t ++ rest) = t.length) :
    IdentifierRun t rest := by
  have hrun := identifierRun (t ++ rest)
  rwa [h, List.take_left, List.drop_left] at hrun

theorem identifierLength_le (t : Text) : identifierLength t ≤ t.length := by
  obtain ⟨u, rest, rfl, h⟩ := exists_identifierRun t
  rw [h.eq, List.length_append]
  exact Nat.le_add_right _ _

end WatchExpr.Lexer
