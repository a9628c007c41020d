import WatchExpr.Proofs.Expression.Cursor

namespace WatchExpr.Cursor

open WatchExpr.Parser

/-- A walk that starts in a state comes to an end, and there something holds. -/
def Arrives {α : Type} (x : Walk α) (s : State) (P : α → State → Prop) : Prop :=
  ∃ a s', x s = some (a, s') ∧ P a s'

namespace Arrives

variable {α β : Type} {x : Walk α} {f : α → Walk β} {s s' : State} {a : α}

theorem pure {P : α → State → Prop} (h : P a s) : Arrives (Pure.pure a) s P := ⟨a, s, rfl, h⟩

theorem bind {P : β → State → Prop} (hx : x s = some (a, s')) (h : Arrives (f a) s' P) :
    Arrives (x >>= f) s P := by
  obtain ⟨b, s'', hf, hP⟩ := h
  refine ⟨b, s'', ?_, hP⟩
  change (x s).bind (fun r => f r.1 r.2) = some (b, s'')
  rw [hx]
  exact hf

theorem mono {P Q : α → State → Prop} (h : Arrives x s P) (hPQ : ∀ a s', P a s' → Q a s') :
    Arrives x s Q := by
  obtain ⟨a, s', hx, hP⟩ := h
  exact ⟨a, s', hx, hPQ a s' hP⟩

end Arrives

section
variable {env : Env} {ts : List Token} {last : Token}

/-- The tokens of a walk: only the last one is an end mark. -/
structure EndMarked (ts : List Token) (last : Token) : Prop where
  inner : ∀ t ∈ ts, t.kind ≠ .eof
  mark : last.kind = .eof

namespace EndMarked

theorem cases (h : EndMarked ts last) {i : Nat} (hi : i ≤ ts.length) :
    (∃ tok, (∀ s, look (ts ++ [last]) i s = some (tok, s)) ∧ ts.drop i = tok :: ts.drop (i + 1) ∧
      tok.kind ≠ .eof ∧ i < ts.length) ∨
    (∀ s, look (ts ++ [last]) i s = some (last, s)) ∧ ts.drop i = [] ∧ i = ts.length := by
  obtain hlt | rfl := Nat.lt_or_eq_of_le hi
  · refine .inl ⟨ts[i], fun s => ?_, List.drop_eq_getElem_cons hlt, h.inner _ (List.getElem_mem _),
      hlt⟩
    simp [look, List.getElem?_append_left hlt, List.getElem?_eq_getElem hlt]
  · exact .inr ⟨fun s => by simp [look], List.drop_length, rfl⟩

theorem is_mark (h : EndMarked ts last) (w : Text) : last.is w = false := by
  simp [Token.is, h.mark]

end EndMarked

theorem endMark_eq (ts : List Token) (last : Token) : endMark (ts ++ [last]) = ts.length := by
  simp [endMark]

/-- What a walk over a type did, where a reader found something at its start. -/
structure TypeRead (ts : List Token) (report : Bool) (i : Nat) (s : State) (p : TypeParse)
    (r : Option TypeExpr × Nat) (s' : State) : Prop where
  le : i ≤ r.2
  inside : r.2 ≤ ts.length
  type : r.1 = p.type
  rest : ts.drop r.2 = p.rest
  state : s' = { s with
    diagnostics := s.diagnostics ++ if report then p.diagnostics else [] }

namespace TypeRead

variable {report : Bool} {i j : Nat} {s s' : State} {p : TypeParse} {r : Option TypeExpr × Nat}

theorem trans (h : TypeRead ts report j s p r s') (hij : i ≤ j) : TypeRead ts report i s p r s' :=
  { h with le := Nat.le_trans hij h.le }

theorem quiet (hi : i ≤ ts.length) (t : Option TypeExpr) :
    TypeRead ts report i s ⟨t, ts.drop i, []⟩ (t, i) s := by
  refine ⟨Nat.le_refl i, hi, rfl, rfl, ?_⟩
  rw [ite_self, List.append_nil]

end TypeRead

theorem complain_eq (ds : List Diagnostic) (s : State) :
    complain ds s = some ((), { s with diagnostics := s.diagnostics ++ ds }) := rfl

theorem arrives_suffixes (h : EndMarked ts last) (report : Bool) (start : Nat) {steps i : Nat}
    (t : TypeExpr) (hi : i ≤ ts.length) (hsteps : ts.length < steps + i) (s : State) :
    Arrives (suffixes (ts ++ [last]) report start steps t i) s
      (TypeRead ts report i s (TypeExpr.readSuffixes start t (ts.drop i))) := by
  induction steps generalizing t i with
  | zero => omega
  | succ steps ih =>
    have hstop (hp : TypeExpr.readSuffixes start t (ts.drop i) = ⟨some t, ts.drop i, []⟩) :
        Arrives (pure (some t, i)) s
          (TypeRead ts report i s (TypeExpr.readSuffixes start t (ts.drop i))) :=
      .pure (hp ▸ .quiet hi (some t))
    have hmore {t' : TypeExpr} {j : Nat} (hij : i < j) (hj : j ≤ ts.length)
        (hp : TypeExpr.readSuffixes start t (ts.drop i) =
          TypeExpr.readSuffixes start t' (ts.drop j)) :
        Arrives (suffixes (ts ++ [last]) report start steps t' j) s
          (TypeRead ts report i s (TypeExpr.readSuffixes start t (ts.drop i))) := by
      rw [hp]
      exact (ih t' hj (by omega)).mono fun _ _ hr => hr.trans (Nat.le_of_lt hij)
    rw [suffixes]
    obtain ⟨tok, hlook, hdrop, -, hlt⟩ | ⟨hlook, hdrop, -⟩ := h.cases hi
    · refine .bind (hlook s) ?_
      by_cases hstar : tok.is "*" = true
      · rw [if_pos hstar]
        exact hmore (Nat.lt_succ_self i) hlt
          (by rw [hdrop, TypeExpr.readSuffixes_cons, if_pos hstar])
      by_cases hopen : tok.is "[" = true
      · have hread := TypeExpr.readSuffixes_cons start t tok (ts.drop (i + 1))
        rw [if_neg hstar, if_pos hopen, ← hdrop] at hread
        rw [if_neg hstar, if_pos hopen]
        obtain ⟨n, hlook₁, hdrop₁, -, hlt₁⟩ | ⟨hlook₁, hdrop₁, -⟩ := h.cases hlt
        · refine .bind (hlook₁ s) ?_
          by_cases hn : n.kind = .numeric
          · rw [if_pos hn]
            obtain ⟨close, hlook₂, hdrop₂, -, hlt₂⟩ | ⟨hlook₂, hdrop₂, -⟩ := h.cases hlt₁
            · refine .bind (hlook₂ s) ?_
              rw [hdrop₁, hdrop₂] at hread
              by_cases hclose : close.is "]" = true
              · rw [if_pos hclose]
                simp only [if_pos (And.intro hn hclose)] at hread
                cases hc : Literal.readCount? (Literal.trimIntSuffix n.literal) with
                | some count =>
                  rw [hc] at hread
                  exact hmore (by omega) hlt₂ hread
                | none =>
                  rw [hc] at hread
                  refine .bind (complain_eq _ s) (.pure ?_)
                  rw [hread]
                  exact ⟨Nat.le_refl i, hi, rfl, rfl, rfl⟩
              · rw [if_neg hclose]
                simp only [if_neg (mt And.right hclose)] at hread
                exact hstop hread
            · refine .bind (hlook₂ s) ?_
              rw [h.is_mark, if_neg Bool.false_ne_true]
              rw [hdrop₁, hdrop₂] at hread
              exact hstop hread
          · rw [if_neg hn]
            refine hstop (hread.trans ?_)
            rw [hdrop₁]
            split
            · rename_i n' close after hn'
              obtain ⟨rfl, -⟩ := List.cons.inj hn'
              rw [if_neg (mt And.left hn)]
            · rfl
        · refine .bind (hlook₁ s) ?_
          rw [h.mark, if_neg (by decide)]
          rw [hdrop₁] at hread
          exact hstop hread
      · rw [if_neg hstar, if_neg hopen]
        exact hstop (by rw [hdrop, TypeExpr.readSuffixes_cons, if_neg hstar, if_neg hopen])
    · refine .bind (hlook s) ?_
      rw [h.is_mark, h.is_mark, if_neg Bool.false_ne_true, if_neg Bool.false_ne_true]
      exact hstop (by rw [hdrop, TypeExpr.readSuffixes])

theorem arrives_typeExpr (env : Env) (h : EndMarked ts last) (report : Bool) {steps i : Nat}
    (hi : i ≤ ts.length) (hsteps : ts.length < steps + i + 1) (s : State) :
    Arrives (typeExpr env (ts ++ [last]) report steps i) s
      (TypeRead ts report i s (TypeExpr.read env.context env.text (ts.drop i))) := by
  have hsuffixes {t : TypeExpr} {start j : Nat} (hij : i < j) (hj : j ≤ ts.length)
      (hp : TypeExpr.read env.context env.text (ts.drop i) =
        TypeExpr.readSuffixes start t (ts.drop j)) :
      Arrives (suffixes (ts ++ [last]) report start steps t j) s
        (TypeRead ts report i s (TypeExpr.read env.context env.text (ts.drop i))) := by
    rw [hp]
    exact (arrives_suffixes h report start t hj (by omega) s).mono fun _ _ hr =>
      hr.trans (Nat.le_of_lt hij)
  rw [typeExpr]
  obtain ⟨tok, hlook, hdrop, hkind, hlt⟩ | ⟨hlook, hdrop, -⟩ := h.cases hi
  · refine .bind (hlook s) ?_
    by_cases hsign : TypeExpr.isSignWord tok = true
    · rw [if_pos hsign]
      have hread (t : TypeExpr) (j : Nat)
          (hp : TypeExpr.readSigned env.text tok (ts.drop (i + 1)) = (t, ts.drop j)) :
          TypeExpr.read env.context env.text (ts.drop i) =
            TypeExpr.readSuffixes tok.start t (ts.drop j) := by
        rw [hdrop]
        simp only [TypeExpr.read, if_pos hsign, hp]
      obtain ⟨next, hlook₁, hdrop₁, -, hlt₁⟩ | ⟨hlook₁, hdrop₁, hn⟩ := h.cases hlt
      · refine .bind (hlook₁ s) ?_
        rw [hdrop₁] at hread
        split
        · rename_i k hk
          split
          · rename_i hinteger
            refine hsuffixes (by omega) hlt₁ (hread _ _ ?_)
            simp only [TypeExpr.readSigned, hk, hinteger, if_true]
            rfl
          · rename_i hinteger
            refine hsuffixes (by omega) hlt (hread _ _ ?_)
            simp only [TypeExpr.readSigned, hk, hinteger]
            rw [hdrop₁]
            rfl
        · rename_i hk
          refine hsuffixes (by omega) hlt (hread _ _ ?_)
          simp only [TypeExpr.readSigned, hk]
          rw [hdrop₁]
          rfl
      · refine .bind (hlook₁ s) ?_
        rw [h.mark, if_neg (by decide)]
        exact hsuffixes (by omega) hlt (hread _ _ (by rw [hdrop₁]; rfl))
    · rw [if_neg hsign]
      have hread := TypeExpr.read.eq_def env.context env.text (tok :: ts.drop (i + 1))
      simp only [if_neg hsign] at hread
      rw [← hdrop] at hread
      by_cases hname : tok.kind = .identifier
      · rw [if_pos hname] at hread ⊢
        cases hk : env.context.typeNamed? tok.literal with
        | some k =>
          rw [hk] at hread
          exact hsuffixes (by omega) hlt hread
        | none =>
          rw [hk] at hread
          refine .bind (complain_eq _ s) (.pure ?_)
          rw [hread]
          exact ⟨Nat.le_refl i, hi, rfl, rfl, rfl⟩
      · rw [if_neg hname] at hread ⊢
        exact .pure (hread ▸ .quiet hi none)
  · refine .bind (hlook s) ?_
    have hsign : TypeExpr.isSignWord last = false := by
      rw [TypeExpr.isSignWord, h.is_mark, h.is_mark]
      rfl
    rw [hsign, h.mark, if_neg Bool.false_ne_true, if_neg (by decide)]
    refine .pure ?_
    have hquiet : TypeRead ts report i s _ _ s := .quiet hi none
    rw [hdrop] at hquiet ⊢
    exact hquiet

/-- What a walk over a type and a closing parenthesis did. -/
inductive ClosedRead (env : Env) (ts : List Token) (report : Bool) (i : Nat) (s : State) :
    Option (TypeExpr × Nat) → State → Prop
  | found (t : TypeExpr) (j : Nat) (le : i ≤ j) (inside : j < ts.length)
      (starts : env.context.startsType (ts.drop i) = true)
      (read : readClosedType env (ts.drop i) = .ok (t, ts.drop (j + 1))) :
      ClosedRead env ts report i s (some (t, j)) s
  | broken (ds : List Diagnostic) (starts : env.context.startsType (ts.drop i) = true)
      (read : readClosedType env (ts.drop i) = .error ds) :
      ClosedRead env ts report i s none
        { s with diagnostics := s.diagnostics ++ if report then ds else [] }
  | absent (starts : env.context.startsType (ts.drop i) = false) :
      ClosedRead env ts report i s none s

theorem arrives_typeStarts (h : EndMarked ts last) {i : Nat} (hi : i ≤ ts.length) (s : State) :
    typeStarts env (ts ++ [last]) i s = some (env.context.startsType (ts.drop i), s) := by
  obtain ⟨tok, hlook, hdrop, -, -⟩ | ⟨hlook, hdrop, -⟩ := h.cases hi
  · rw [hdrop]
    change (look (ts ++ [last]) i s).bind _ = _
    rw [hlook]
    rfl
  · rw [hdrop]
    change (look (ts ++ [last]) i s).bind _ = _
    rw [hlook]
    simp [Context.startsType, h.mark]
    rfl

theorem diagnostics_of_readSuffixes {start : Nat} {t t' : TypeExpr} {us : List Token}
    (h : (TypeExpr.readSuffixes start t us).type = some t') :
    (TypeExpr.readSuffixes start t us).diagnostics = [] := by
  fun_induction TypeExpr.readSuffixes start t us with
  | case2 _ _ _ _ ih => exact ih h
  | case3 _ _ _ _ _ _ _ _ _ _ ih => exact ih h
  | case4 => cases h
  | _ => rfl

theorem diagnostics_of_read {c : Context} {text : Text} {us : List Token} {t : TypeExpr}
    (h : (TypeExpr.read c text us).type = some t) : (TypeExpr.read c text us).diagnostics = [] := by
  cases us with
  | nil => rfl
  | cons tok rest =>
    simp only [TypeExpr.read] at h ⊢
    split at h
    · rename_i hs
      rw [if_pos hs]
      exact diagnostics_of_readSuffixes h
    · rename_i hs
      rw [if_neg hs]
      split at h
      · rename_i hk
        rw [if_pos hk]
        split at h
        · rename_i k hk
          exact diagnostics_of_readSuffixes h
        · cases h
      · cases h

theorem arrives_closedType (env : Env) (h : EndMarked ts last) (report : Bool) {steps i : Nat}
    (hi : i ≤ ts.length) (hsteps : ts.length < steps + i + 1) (s : State) :
    Arrives (closedType env (ts ++ [last]) report steps i) s (ClosedRead env ts report i s) := by
  refine .bind (arrives_typeStarts h hi s) ?_
  cases hstarts : env.context.startsType (ts.drop i) with
  | false => exact .pure (.absent hstarts)
  | true =>
    rw [if_pos rfl]
    obtain ⟨⟨t, j⟩, s', hrun, hle, hinside, htype, hrest, hstate⟩ :=
      arrives_typeExpr env h report hi hsteps s
    refine .bind hrun ?_
    have hread := readClosedType.eq_def env (ts.drop i)
    simp only at htype hrest
    simp only [← htype, ← hrest] at hread
    cases t with
    | none =>
      refine .pure ?_
      rw [hstate]
      exact .broken _ hstarts hread
    | some t =>
      have hnone := diagnostics_of_read htype.symm
      rw [hnone, ite_self, List.append_nil] at hstate
      subst hstate
      have hbroken (hr : readClosedType env (ts.drop i) = .error []) :
          ClosedRead env ts report i s none s := by
        have hbroken : ClosedRead env ts report i s none _ := .broken [] hstarts hr
        rw [ite_self, List.append_nil] at hbroken
        exact hbroken
      obtain ⟨close, hlook, hdrop, -, hlt⟩ | ⟨hlook, hdrop, -⟩ := h.cases hinside
      · refine .bind (hlook s) (.pure ?_)
        simp only [hdrop] at hread
        split
        · rename_i hclose
          rw [if_pos hclose] at hread
          exact .found t j hle hlt hstarts hread
        · rename_i hclose
          rw [if_neg hclose, hnone] at hread
          exact hbroken hread
      · refine .bind (hlook s) (.pure ?_)
        rw [h.is_mark, if_neg Bool.false_ne_true]
        simp only [hdrop] at hread
        rw [hnone] at hread
        exact hbroken hread

end

end WatchExpr.Cursor
