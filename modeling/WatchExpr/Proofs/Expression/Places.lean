import WatchExpr.Proofs.Expression.Missing
import WatchExpr.Proofs.Expression.Recognition
import WatchExpr.Proofs.Lexical.Tiling

namespace WatchExpr

namespace Span

def Lies (lo hi : Nat) (s : Span) : Prop := lo ≤ s.start ∧ s.start ≤ s.stop ∧ s.stop ≤ hi

def Contains (s t : Span) : Prop := s.start ≤ t.start ∧ t.stop ≤ s.stop

variable {lo lo' mid mid' hi hi' : Nat} {s t u : Span}

theorem Lies.mono (h : s.Lies lo hi) (hlo : lo' ≤ lo) (hhi : hi ≤ hi') : s.Lies lo' hi' :=
  ⟨Nat.le_trans hlo h.1, h.2.1, Nat.le_trans h.2.2 hhi⟩

theorem Lies.join (hs : s.Lies lo hi) (ht : t.Lies lo hi) : (s.join t).Lies lo hi := by
  simp only [Lies, Span.join] at hs ht ⊢
  omega

theorem contains_join_left (s t : Span) : (s.join t).Contains s :=
  ⟨Nat.min_le_left _ _, Nat.le_max_left _ _⟩

theorem contains_join_right (s t : Span) : (s.join t).Contains t :=
  ⟨Nat.min_le_right _ _, Nat.le_max_right _ _⟩

theorem Lies.contains_between (hs : s.Lies lo mid) (ht : t.Lies mid mid') (hu : u.Lies mid' hi) :
    (s.join u).Contains t := by
  simp only [Lies, Contains, Span.join] at hs ht hu ⊢
  omega

end Span

theorem Token.start_le_stop (tok : Token) : tok.start ≤ tok.stop := Nat.le_add_right _ _

theorem Token.lies_span (tok : Token) : tok.span.Lies tok.start tok.stop :=
  ⟨Nat.le_refl _, tok.start_le_stop, Nat.le_refl _⟩

/-- A node of a tree with the nodes right below it, by where they stand. -/
structure Place where
  span : Span
  children : List Span

def TypeExpr.places : TypeExpr → List Place
  | named s _ _ => [⟨s, []⟩]
  | pointer s elem | array s elem _ => ⟨s, [elem.span]⟩ :: elem.places

/-- The nodes of a tree. Written types and the names of members are nodes too; what is missing is
none. -/
def Expr.places : Expr → List Place
  | missing => []
  | int s .. | float s .. | leaf s .. => [⟨s, []⟩]
  | type t => t.places
  | unary s _ x | sizeof s x | addressOf s x | deref s x => ⟨s, x.span?.toList⟩ :: x.places
  | binary s _ x y | index s x y =>
    ⟨s, x.span?.toList ++ y.span?.toList⟩ :: (x.places ++ y.places)
  | ternary s c yes no =>
    ⟨s, c.span?.toList ++ (yes.span?.toList ++ no.span?.toList)⟩ ::
      (c.places ++ (yes.places ++ no.places))
  | cast s t x => ⟨s, t.span :: x.span?.toList⟩ :: (t.places ++ x.places)
  | member s x field _ =>
    ⟨s, x.span?.toList ++ [field.span]⟩ :: (x.places ++ [⟨field.span, []⟩])

/-- Nodes that stand between two positions. -/
def Lie (lo hi : Nat) (ps : List Place) : Prop := ∀ p ∈ ps, p.span.Lies lo hi

/-- Nodes around the nodes right below them. -/
def Nest (ps : List Place) : Prop := ∀ p ∈ ps, ∀ s ∈ p.children, p.span.Contains s

section
variable {lo lo' hi hi' : Nat} {p : Place} {ps qs : List Place}

theorem Lie.mono (h : Lie lo hi ps) (hlo : lo' ≤ lo) (hhi : hi ≤ hi') : Lie lo' hi' ps :=
  fun p hp => (h p hp).mono hlo hhi

theorem lie_cons : Lie lo hi (p :: ps) ↔ p.span.Lies lo hi ∧ Lie lo hi ps := List.forall_mem_cons

theorem lie_append : Lie lo hi (ps ++ qs) ↔ Lie lo hi ps ∧ Lie lo hi qs := List.forall_mem_append

theorem lie_singleton : Lie lo hi [p] ↔ p.span.Lies lo hi := List.forall_mem_singleton

theorem nest_cons : Nest (p :: ps) ↔ (∀ s ∈ p.children, p.span.Contains s) ∧ Nest ps :=
  List.forall_mem_cons

theorem nest_append : Nest (ps ++ qs) ↔ Nest ps ∧ Nest qs := List.forall_mem_append

theorem nest_singleton {span : Span} : Nest [⟨span, []⟩] :=
  List.forall_mem_singleton.2 (List.forall_mem_nil _)

end

section
variable {lo hi : Nat} {e : Expr} {t : TypeExpr}

theorem TypeExpr.lies_span (h : Lie lo hi t.places) : t.span.Lies lo hi := by
  cases t with
  | named => exact lie_singleton.1 h
  | pointer => exact (lie_cons.1 h).1
  | array => exact (lie_cons.1 h).1

theorem Expr.lies_of_span? {s : Span} (h : Lie lo hi e.places) (hs : e.span? = some s) :
    s.Lies lo hi := by
  cases e with
  | missing => cases hs
  | type t =>
    cases hs
    exact TypeExpr.lies_span h
  | _ =>
    cases hs
    exact (lie_cons.1 h).1

theorem Expr.lies_spanOr (h : Lie lo hi e.places) {tok : Token} (ht : tok.span.Lies lo hi) :
    (e.spanOr tok).Lies lo hi := by
  cases hs : e.span? with
  | none =>
    rw [spanOr, hs]
    exact ht
  | some s =>
    rw [spanOr, hs]
    exact lies_of_span? h hs

theorem Expr.eq_spanOr {s : Span} (h : s ∈ e.span?.toList) (tok : Token) : s = e.spanOr tok := by
  rw [spanOr, Option.mem_toList.1 h, Option.getD_some]

theorem Expr.Complete.lies_spanOr (hc : e.Complete) (h : Lie lo hi e.places) (tok : Token) :
    (e.spanOr tok).Lies lo hi := by
  cases e with
  | missing => cases hc
  | _ => exact lies_of_span? h rfl

theorem nest_pair {x y : Expr} (hx : Nest x.places) (hy : Nest y.places) (tok tok' : Token) :
    Nest (⟨(x.spanOr tok).join (y.spanOr tok'), x.span?.toList ++ y.span?.toList⟩ ::
      (x.places ++ y.places)) := by
  refine nest_cons.2 ⟨?_, nest_append.2 ⟨hx, hy⟩⟩
  intro s hmem
  obtain hmem | hmem := List.mem_append.1 hmem
  · rw [Expr.eq_spanOr hmem tok]
    exact Span.contains_join_left _ _
  · rw [Expr.eq_spanOr hmem tok']
    exact Span.contains_join_right _ _

end

namespace Parser

variable {env : Env}

structure Env.Laid (env : Env) (ts : List Token) : Prop where
  pairwise : ts.Pairwise fun t u => t.stop ≤ u.start
  bounded : ∀ t ∈ ts, t.stop ≤ env.text.length

namespace Env.Laid

variable {tok : Token} {rest ts : List Token}

theorem suffix (h : env.Laid ts) (hr : rest <:+ ts) : env.Laid rest where
  pairwise := h.pairwise.sublist hr.sublist
  bounded t ht := h.bounded t (hr.subset ht)

theorem tail (h : env.Laid (tok :: rest)) : env.Laid rest := h.suffix (List.suffix_cons _ _)

theorem stop_le (h : env.Laid (tok :: rest)) : tok.stop ≤ env.position rest := by
  cases rest with
  | nil => exact h.bounded tok List.mem_cons_self
  | cons u rest => exact List.rel_of_pairwise_cons h.pairwise List.mem_cons_self

theorem position_le_length (h : env.Laid ts) : env.position ts ≤ env.text.length := by
  cases ts with
  | nil => exact Nat.le_refl _
  | cons tok rest => exact Nat.le_trans tok.start_le_stop (h.bounded tok List.mem_cons_self)

theorem position_cons_le (h : env.Laid (tok :: rest)) :
    env.position (tok :: rest) ≤ env.position rest := Nat.le_trans tok.start_le_stop h.stop_le

theorem position_le (h : env.Laid ts) (hr : rest <:+ ts) :
    env.position ts ≤ env.position rest := by
  induction ts with
  | nil => rw [List.suffix_nil.1 hr]
  | cons tok ts ih =>
    obtain rfl | hr := List.suffix_cons_iff.1 hr
    · exact Nat.le_refl _
    · exact Nat.le_trans h.position_cons_le (ih h.tail hr)

theorem lies_span (h : env.Laid (tok :: rest)) :
    tok.span.Lies (env.position (tok :: rest)) (env.position rest) :=
  tok.lies_span.mono (Nat.le_refl _) h.stop_le

end Env.Laid

/-- Complaints about positions of the text. -/
def Env.Points (env : Env) (ds : List Diagnostic) : Prop := ∀ d ∈ ds, d.offset ≤ env.text.length

section
variable {ds ds' : List Diagnostic} {offset : Nat} {c : Complaint}

theorem points_nil : env.Points [] := List.forall_mem_nil _

theorem points_append : env.Points (ds ++ ds') ↔ env.Points ds ∧ env.Points ds' :=
  List.forall_mem_append

theorem points_singleton (h : offset ≤ env.text.length) : env.Points [⟨offset, c⟩] :=
  List.forall_mem_singleton.2 h

theorem Env.Points.concat (hd : env.Points ds) (h : offset ≤ env.text.length) :
    env.Points (ds ++ [⟨offset, c⟩]) := points_append.2 ⟨hd, points_singleton h⟩

end

/-- A type that was read from some tokens stands where they stood. -/
structure TypeParse.Placed (env : Env) (lo : Nat) (ts : List Token) (p : TypeParse) : Prop where
  suffix : p.rest <:+ ts
  lies : ∀ t, p.type = some t → Lie lo (env.position p.rest) t.places
  nest : ∀ t, p.type = some t → Nest t.places
  points : env.Points p.diagnostics

theorem TypeParse.Placed.behind {lo : Nat} {ts us : List Token} {p : TypeParse}
    (h : TypeParse.Placed env lo ts p) (hs : ts <:+ us) : TypeParse.Placed env lo us p :=
  { h with suffix := h.suffix.trans hs }

theorem placed_readSuffixes {start : Nat} {t : TypeExpr} {ts : List Token} (hts : env.Laid ts)
    (hstart : t.span.start = start) (hl : Lie start (env.position ts) t.places)
    (hn : Nest t.places) :
    TypeParse.Placed env start ts (TypeExpr.readSuffixes start t ts) := by
  have hgrow {stop : Nat} {t : TypeExpr} {ts rest : List Token} (ht : t.span.start = start)
      (hl : Lie start (env.position ts) t.places) (hn : Nest t.places)
      (hstop : env.position ts ≤ stop) (hrest : stop ≤ env.position rest) :
      (Lie start (env.position rest) (⟨⟨start, stop⟩, [t.span]⟩ :: t.places)) ∧
        Nest (⟨⟨start, stop⟩, [t.span]⟩ :: t.places) := by
    obtain ⟨h₁, h₂, h₃⟩ := TypeExpr.lies_span hl
    refine ⟨lie_cons.2 ⟨⟨Nat.le_refl _, ?_, hrest⟩, hl.mono (Nat.le_refl _) ?_⟩,
      nest_cons.2 ⟨List.forall_mem_singleton.2 ⟨?_, ?_⟩, hn⟩⟩
    · show start ≤ stop
      omega
    · omega
    · show start ≤ t.span.start
      omega
    · show t.span.stop ≤ stop
      omega
  have hstay {t : TypeExpr} {ts : List Token} (hl : Lie start (env.position ts) t.places)
      (hn : Nest t.places) : TypeParse.Placed env start ts ⟨some t, ts, []⟩ :=
    ⟨List.suffix_refl _, by rintro u ⟨⟩; exact hl, by rintro u ⟨⟩; exact hn, points_nil⟩
  fun_induction TypeExpr.readSuffixes start t ts with
  | case1 => exact hstay hl hn
  | case2 t tok rest hstar ih =>
    obtain ⟨hl', hn'⟩ := hgrow hstart hl hn tok.start_le_stop hts.stop_le
    exact (ih hts.tail rfl hl' hn').behind (List.suffix_cons _ _)
  | case3 t tok hstar hopen n close after hk count hc ih =>
    have hs : close :: after <:+ tok :: n :: close :: after := ⟨[tok, n], rfl⟩
    have hclose := hts.suffix hs
    obtain ⟨hl', hn'⟩ := hgrow hstart hl hn
      (Nat.le_trans (hts.position_le hs) close.start_le_stop) hclose.stop_le
    exact (ih hclose.tail rfl hl' hn').behind ((List.suffix_cons _ _).trans hs)
  | case4 t tok hstar hopen n close after hk hc =>
    exact ⟨List.suffix_refl _, by rintro u ⟨⟩, by rintro u ⟨⟩,
      points_singleton hts.tail.position_le_length⟩
  | case5 => exact hstay hl hn
  | case6 => exact hstay hl hn
  | case7 => exact hstay hl hn

theorem placed_named (span : Span) (name : Text) (k : TypeKey) {ts : List Token} (hts : env.Laid ts)
    (h : span.Lies span.start (env.position ts)) :
    TypeParse.Placed env span.start ts
      (TypeExpr.readSuffixes span.start (.named span name k) ts) :=
  placed_readSuffixes hts rfl (lie_singleton.2 h) nest_singleton

theorem placed_read {ts : List Token} (hts : env.Laid ts) :
    TypeParse.Placed env (env.position ts) ts (TypeExpr.read env.context env.text ts) := by
  have hnone {ds : List Diagnostic} (hd : env.Points ds) :
      TypeParse.Placed env (env.position ts) ts ⟨none, ts, ds⟩ :=
    ⟨List.suffix_refl _, by rintro u ⟨⟩, by rintro u ⟨⟩, hd⟩
  cases ts with
  | nil => exact hnone points_nil
  | cons tok rest =>
    simp only [TypeExpr.read]
    split
    · obtain hr | ⟨next, after, k, rfl, -, -, -, hr⟩ := readSigned_cases env.text tok rest
      · rw [hr]
        exact (placed_named tok.span _ _ hts.tail hts.lies_span).behind (List.suffix_cons _ _)
      · have hs : next :: after <:+ tok :: next :: after := List.suffix_cons _ _
        have hstop : tok.start ≤ next.stop :=
          Nat.le_trans (hts.position_le hs) next.start_le_stop
        rw [hr]
        exact (placed_named ⟨tok.start, next.stop⟩ _ _ hts.tail.tail
          ⟨Nat.le_refl _, hstop, hts.tail.stop_le⟩).behind ((List.suffix_cons _ _).trans hs)
    · split
      · split
        · exact (placed_named tok.span _ _ hts.tail hts.lies_span).behind (List.suffix_cons _ _)
        · exact hnone (points_singleton hts.position_le_length)
      · exact hnone points_nil

/-- What was read from some tokens stands in front of those that are left. Where nothing is missing,
parents stand around their children. -/
structure Parsed.Placed (env : Env) (lo : Nat) (ts : List Token) (p : Parsed) : Prop where
  suffix : p.rest <:+ ts
  lies : Lie lo (env.position p.rest) p.expr.places
  nest : p.expr.Complete → Nest p.expr.places
  points : env.Points p.diagnostics

def Reader.Places (env : Env) (sub : Reader) : Prop :=
  ∀ ceiling ts, env.Laid ts → Parsed.Placed env (env.position ts) ts (sub.read ceiling ts)

section
variable {lo : Nat} {ts us rest : List Token} {p : Parsed} {e x : Expr} {ds : List Diagnostic}

theorem Parsed.Placed.behind (h : Parsed.Placed env lo ts p) (hs : ts <:+ us) :
    Parsed.Placed env lo us p := { h with suffix := h.suffix.trans hs }

theorem Parsed.Placed.points_cons (h : Parsed.Placed env lo ts p) (hd : env.Points ds)
    {deep : Bool} :
    Parsed.Placed env lo ts ⟨p.expr, p.rest, ds ++ p.diagnostics, deep⟩ :=
  { h with points := points_append.2 ⟨hd, h.points⟩ }

theorem placed_missing (hr : rest <:+ ts) (hd : env.Points ds) (tooDeep : Bool) :
    Parsed.Placed env lo ts ⟨.missing, rest, ds, tooDeep⟩ where
  suffix := hr
  lies := List.forall_mem_nil _
  nest h := h.elim
  points := hd

theorem placed_operand (hts : env.Laid ts) (hl : Lie lo (env.position ts) x.places)
    (hn : x.Complete → Nest x.places) (hr : rest <:+ ts) (hd : env.Points ds) :
    Parsed.Placed env lo ts { expr := x, rest, diagnostics := ds } where
  suffix := hr
  lies := hl.mono (Nat.le_refl _) (hts.position_le hr)
  nest := hn
  points := hd

end

theorem lie_resolve {c : Context} {name : Text} {span : Span} {e : Expr}
    (he : c.resolve name span = .ok e) (hs : span.start ≤ span.stop) :
    Lie span.start span.stop e.places ∧ Nest e.places := by
  have hspan : span.Lies span.start span.stop := ⟨Nat.le_refl _, hs, Nat.le_refl _⟩
  have hleaf {sym : Symbol} {e : Expr} (he : c.localLeaf sym span = .ok e) :
      e.span? = some span ∧ e.places = [⟨span, []⟩] := by
    simp only [Context.localLeaf] at he
    split at he <;> cases he <;> exact ⟨rfl, rfl⟩
  have hone {e : Expr} (he : e.places = [⟨span, []⟩]) :
      Lie span.start span.stop e.places ∧ Nest e.places := by
    rw [he]
    exact ⟨lie_singleton.2 hspan, nest_singleton⟩
  obtain ⟨b, -, hb⟩ := c.exists_binding name
  rw [hb] at he
  cases b with
  | localSymbol sym => exact hone (hleaf he).2
  | memberOfThis this =>
    simp only [Binding.read] at he
    cases hl : c.localLeaf this span with
    | error d =>
      rw [hl] at he
      cases he
    | ok leaf =>
      rw [hl] at he
      cases he
      obtain ⟨hspan?, hplaces⟩ := hleaf hl
      simp only [Expr.places, hspan?, hplaces]
      refine ⟨lie_cons.2 ⟨hspan, lie_append.2 ⟨lie_singleton.2 hspan, lie_singleton.2 hspan⟩⟩,
        nest_cons.2 ⟨?_, nest_append.2 ⟨nest_singleton, nest_singleton⟩⟩⟩
      intro s hmem
      simp only [Option.toList_some, List.mem_append, List.mem_singleton, or_self] at hmem
      rw [hmem]
      exact ⟨Nat.le_refl _, Nat.le_refl _⟩
  | register offset size =>
    simp only [Binding.read, Context.registerLeaf] at he
    split at he <;> cases he <;> exact hone rfl
  | outerSymbol base mode sym =>
    simp only [Binding.read, Context.baseLeaf] at he
    split at he <;> cases he
    exact hone rfl
  | type k =>
    cases he
    exact hone rfl
  | unknown => cases he

theorem placed_readToken {tok : Token} {rest : List Token} (hts : env.Laid (tok :: rest)) :
    Parsed.Placed env tok.start (tok :: rest)
      { expr := (readToken env tok).1, rest, diagnostics := (readToken env tok).2 } := by
  have hs : rest <:+ tok :: rest := List.suffix_cons _ _
  have hpoint : tok.start ≤ env.text.length := hts.position_le_length
  have hrefuse (c : Complaint) :
      Parsed.Placed env tok.start (tok :: rest) ⟨.missing, rest, [⟨tok.start, c⟩], false⟩ :=
    placed_missing hs (points_singleton hpoint) false
  have htoken {e : Expr} {ds : List Diagnostic} (hl : Lie tok.start tok.stop e.places)
      (hn : Nest e.places) (hd : env.Points ds) :
      Parsed.Placed env tok.start (tok :: rest) ⟨e, rest, ds, false⟩ :=
    ⟨hs, hl.mono (Nat.le_refl _) hts.stop_le, fun _ => hn, hd⟩
  simp only [readToken]
  split
  · split
    · rename_i e he
      obtain ⟨hl, hn⟩ := lie_resolve he tok.start_le_stop
      exact htoken hl hn points_nil
    · exact hrefuse _
  · split
    · exact htoken (lie_singleton.2 tok.lies_span) nest_singleton points_nil
    · exact htoken (lie_singleton.2 tok.lies_span) nest_singleton points_nil
    · exact hrefuse _
  · split
    · refine htoken (lie_singleton.2 tok.lies_span) nest_singleton ?_
      split
      · exact points_singleton hpoint
      · exact points_nil
    · exact hrefuse _
  all_goals exact hrefuse _

theorem placed_unclosed {lo : Nat} {x : Expr} {tok : Token} {rest : List Token} {i : Parsed}
    (hi : Parsed.Placed env (env.position rest) rest i) (hts : env.Laid (tok :: rest))
    (hlo : lo ≤ env.position (tok :: rest)) (hl : Lie lo (env.position (tok :: rest)) x.places)
    (hn : x.Complete → Nest x.places) :
    Parsed.Placed env lo (tok :: rest)
      { i with
        expr := .index ((x.spanOr tok).join (i.expr.spanOr tok)) x i.expr
        diagnostics :=
          if i.tooDeep then i.diagnostics else i.diagnostics ++ [⟨tok.start, .unclosedBracket⟩] } where
  suffix := hi.suffix.trans (List.suffix_cons _ _)
  lies := by
    have hb := hts.tail.position_le hi.suffix
    have hx := hl.mono (Nat.le_refl lo) (Nat.le_trans hts.position_cons_le hb)
    have hy := hi.lies.mono (Nat.le_trans hlo hts.position_cons_le) (Nat.le_refl _)
    have htok := hts.lies_span.mono hlo hb
    exact lie_cons.2 ⟨(Expr.lies_spanOr hx htok).join (Expr.lies_spanOr hy htok),
      lie_append.2 ⟨hx, hy⟩⟩
  nest hc := nest_pair (hn hc.1) (hi.nest hc.2) tok tok
  points := by
    simp only
    split
    · exact hi.points
    · exact hi.points.concat hts.position_le_length

section
variable {sub : Reader} (hs : sub.Places env)
include hs

theorem Reader.Places.read {ceiling : Nat} {ts : List Token} {i : Parsed}
    (hi : sub.read ceiling ts = i) (hts : env.Laid ts) :
    Parsed.Placed env (env.position ts) ts i :=
  hi ▸ hs ceiling ts hts

theorem placed_readAtom {ts : List Token} {p : Parsed} (hts : env.Laid ts)
    (h : AtomRun env sub ts p) : Parsed.Placed env (env.position ts) ts p := by
  have hinner {tok : Token} {rest : List Token} {i : Parsed} (hts : env.Laid (tok :: rest))
      (hi : sub.read maxPrecedence rest = i) :
      Parsed.Placed env (env.position (tok :: rest)) (tok :: rest) i :=
    have hi := hs.read hi hts.tail
    { hi.behind (List.suffix_cons _ _) with
      lies := hi.lies.mono hts.position_cons_le (Nat.le_refl _) }
  cases h with
  | nil => exact placed_missing (List.suffix_refl _) (points_singleton (Nat.le_refl _)) false
  | @closed tok close rest after i _ hi hr =>
    have hi := hinner hts hi
    have hafter : after <:+ i.rest := hr ▸ List.suffix_cons _ _
    exact { hi with
      suffix := hafter.trans hi.suffix
      lies := hi.lies.mono (Nat.le_refl _) ((hts.suffix hi.suffix).position_le hafter) }
  | @unclosed tok rest i _ hi =>
    have hi := hinner hts hi
    refine { hi with points := ?_ }
    simp only
    split
    · exact hi.points
    · exact hi.points.concat hts.position_le_length
  | @written tok rest q _ hq =>
    have ht := hq ▸ placed_read hts
    cases hread : q.type with
    | none => exact placed_missing ht.suffix ht.points false
    | some t => exact ⟨ht.suffix, ht.lies t hread, fun _ => ht.nest t hread, ht.points⟩
  | token => exact placed_readToken hts

theorem placed_readPostfix {lo : Nat} {x : Expr} {ts : List Token} {p : Parsed} (hts : env.Laid ts)
    (hlo : lo ≤ env.position ts) (hl : Lie lo (env.position ts) x.places)
    (hn : x.Complete → Nest x.places) (h : PostfixRun sub x ts p) : Parsed.Placed env lo ts p := by
  induction h with
  | stop => exact placed_operand hts hl hn (List.suffix_refl _) points_nil
  | noName =>
    exact placed_operand hts hl hn (List.suffix_cons _ _) (points_singleton hts.position_le_length)
  | @member x tok name behind p _ _ _ ih =>
    have hs : name :: behind <:+ tok :: name :: behind := List.suffix_cons _ _
    have hb := hts.position_le ((List.suffix_cons name behind).trans hs)
    have hspan : name.span.Lies lo (env.position behind) :=
      hts.tail.lies_span.mono (Nat.le_trans hlo (hts.position_le hs)) (Nat.le_refl _)
    have hx := hl.mono (Nat.le_refl _) hb
    have htok := hts.lies_span.mono hlo hts.tail.position_cons_le
    have hlo' := Nat.le_trans hlo hb
    refine (ih hts.tail.tail hlo' ?_ ?_).behind ((List.suffix_cons _ _).trans hs)
    · exact lie_cons.2 ⟨(Expr.lies_spanOr hx htok).join hspan,
        lie_append.2 ⟨hx, lie_singleton.2 hspan⟩⟩
    · intro hc
      refine nest_cons.2 ⟨?_, nest_append.2 ⟨hn hc, nest_singleton⟩⟩
      intro s hmem
      obtain hmem | hmem := List.mem_append.1 hmem
      · rw [Expr.eq_spanOr hmem tok]
        exact Span.contains_join_left _ _
      · rw [List.mem_singleton.1 hmem]
        exact Span.contains_join_right _ _
  | unclosed _ _ hi => exact placed_unclosed (hs.read hi hts.tail) hts hlo hl hn
  | @index x tok close rest behind i p _ _ hi hr _ _ ih =>
    have hi := hs.read hi hts.tail
    have hafter : i.rest <:+ tok :: rest := hi.suffix.trans (List.suffix_cons _ _)
    have hbehind : behind <:+ i.rest := hr ▸ List.suffix_cons _ _
    have hlaid := hts.suffix hafter
    have hb := hlaid.position_le hbehind
    have hts' := hts.position_le hafter
    have hclose : close.span.Lies (env.position i.rest) (env.position behind) := by
      rw [hr] at hlaid ⊢
      exact hlaid.lies_span
    refine Parsed.Placed.points_cons ((ih (hlaid.suffix hbehind) (by omega) ?_ ?_).behind
      (hbehind.trans hafter)) hi.points
    · have htok := hts.lies_span.mono hlo
        (Nat.le_trans (hts.tail.position_le hi.suffix) hb)
      have hx := hl.mono (Nat.le_refl lo) (Nat.le_trans hts' hb)
      exact lie_cons.2 ⟨(Expr.lies_spanOr hx htok).join (hclose.mono (by omega) (Nat.le_refl _)),
        lie_append.2 ⟨hx, hi.lies.mono (Nat.le_trans hlo hts.position_cons_le) hb⟩⟩
    · intro hc
      refine nest_cons.2 ⟨?_, nest_append.2 ⟨hn hc.1, hi.nest hc.2⟩⟩
      intro s hmem
      obtain hmem | hmem := List.mem_append.1 hmem
      · rw [Expr.eq_spanOr hmem tok]
        exact Span.contains_join_left _ _
      · have hbetween := Expr.lies_of_span? hi.lies (Option.mem_toList.1 hmem)
        exact (hc.1.lies_spanOr hl tok).contains_between
          (hbetween.mono hts.position_cons_le (Nat.le_refl _)) hclose

end

/-- Prefix operators that stand between two positions, the innermost last in the text. A type that
is cast to stands behind its token. -/
def Held (lo : Nat) : (hi : Nat) → List Prefixed → Prop
  | hi, [] => lo ≤ hi
  | hi, p :: ps =>
    p.token.stop ≤ hi ∧ (∀ t, p.mark = .cast t → Lie p.token.stop hi t.places ∧ Nest t.places) ∧
      Held lo p.token.start ps

section
variable {lo hi top : Nat} {marks : List Prefixed} {x : Expr}

theorem lie_apply {p : Prefixed} (hstop : p.token.stop ≤ hi)
    (hcast : ∀ t, p.mark = .cast t → Lie p.token.stop hi t.places ∧ Nest t.places)
    (hx : Lie hi top x.places) (htop : hi ≤ top) :
    Lie p.token.start top (p.apply x).places ∧
      (x.Complete → Nest x.places → Nest (p.apply x).places) := by
  obtain ⟨mark, token⟩ := p
  simp only at hstop hcast
  have htoken : token.span.Lies token.start top :=
    token.lies_span.mono (Nat.le_refl _) (Nat.le_trans hstop htop)
  have hx' : Lie token.start top x.places :=
    hx.mono (Nat.le_trans token.start_le_stop hstop) (Nat.le_refl _)
  have hspan := htoken.join (Expr.lies_spanOr hx' htoken)
  have hchild {s : Span} (hmem : s ∈ x.span?.toList) :
      (token.span.join (x.spanOr token)).Contains s := by
    rw [Expr.eq_spanOr hmem token]
    exact Span.contains_join_right _ _
  cases mark with
  | cast t =>
    obtain ⟨hl, hn⟩ := hcast t rfl
    have hl' : Lie token.start top t.places := hl.mono token.start_le_stop htop
    refine ⟨lie_cons.2 ⟨hspan, lie_append.2 ⟨hl', hx'⟩⟩, fun hc hnx => ?_⟩
    refine nest_cons.2 ⟨?_, nest_append.2 ⟨hn, hnx⟩⟩
    intro s hmem
    obtain hmem | hmem := List.mem_cons.1 hmem
    · rw [hmem]
      exact token.lies_span.contains_between (TypeExpr.lies_span hl) (hc.lies_spanOr hx token)
    · exact hchild hmem
  | operator op => exact ⟨lie_cons.2 ⟨hspan, hx'⟩, fun _ hnx => nest_cons.2 ⟨fun s => hchild, hnx⟩⟩
  | deref => exact ⟨lie_cons.2 ⟨hspan, hx'⟩, fun _ hnx => nest_cons.2 ⟨fun s => hchild, hnx⟩⟩
  | addressOf => exact ⟨lie_cons.2 ⟨hspan, hx'⟩, fun _ hnx => nest_cons.2 ⟨fun s => hchild, hnx⟩⟩
  | sizeof => exact ⟨lie_cons.2 ⟨hspan, hx'⟩, fun _ hnx => nest_cons.2 ⟨fun s => hchild, hnx⟩⟩

theorem complete_of_apply {p : Prefixed} (h : (p.apply x).Complete) : x.Complete := by
  obtain ⟨mark, token⟩ := p
  cases mark <;> exact h

theorem complete_of_applyAll (h : (applyAll marks x).Complete) : x.Complete := by
  induction marks generalizing x with
  | nil => exact h
  | cons p marks ih => exact complete_of_apply (ih h)

theorem lie_applyAll (hm : Held lo hi marks) (hx : Lie hi top x.places) (htop : hi ≤ top) :
    Lie lo top (applyAll marks x).places ∧
      (x.Complete → Nest x.places → Nest (applyAll marks x).places) := by
  induction marks generalizing x hi with
  | nil => exact ⟨hx.mono hm (Nat.le_refl _), fun _ hn => hn⟩
  | cons p marks ih =>
    obtain ⟨hstop, hcast, hps⟩ := hm
    obtain ⟨hl, hn⟩ := lie_apply hstop hcast hx htop
    obtain ⟨hl', hn'⟩ := ih hps hl (Nat.le_trans (Nat.le_trans p.token.start_le_stop hstop) htop)
    exact ⟨hl', fun hc hnx => hn' (complete_apply p hc) (hn hc hnx)⟩

end

theorem placed_readClosedType {ts after : List Token} {t : TypeExpr} (hts : env.Laid ts)
    (h : readClosedType env ts = .ok (t, after)) :
    after <:+ ts ∧ Lie (env.position ts) (env.position after) t.places ∧ Nest t.places := by
  have ht := placed_read hts
  obtain ⟨hread, close, hrest, -⟩ := readClosedType_eq_ok h
  have hs : after <:+ (TypeExpr.read env.context env.text ts).rest :=
    hrest ▸ List.suffix_cons _ _
  exact ⟨hs.trans ht.suffix, (ht.lies t hread).mono (Nat.le_refl _)
    ((hts.suffix ht.suffix).position_le hs), ht.nest t hread⟩

theorem points_readClosedType {ts : List Token} {ds : List Diagnostic} (hts : env.Laid ts)
    (h : readClosedType env ts = .error ds) : env.Points ds := by
  rw [readClosedType_eq_error h]
  exact (placed_read hts).points

theorem placed_prefixStep_mark {tok : Token} {rest after : List Token} {m : Mark}
    {ds : List Diagnostic} (hts : env.Laid (tok :: rest))
    (h : prefixStep env tok rest = .mark m after ds) :
    after <:+ rest ∧ env.Points ds ∧
      ∀ t, m = .cast t → Lie tok.stop (env.position after) t.places ∧ Nest t.places := by
  cases markRun h with
  | simple hm =>
    refine ⟨List.suffix_refl _, points_nil, ?_⟩
    rintro t rfl
    exact absurd hm (simpleMark?_ne_cast t)
  | sizeof _ _ hds =>
    refine ⟨List.suffix_refl _, ?_, nofun⟩
    obtain rfl | ⟨paren, inner, rfl, hc⟩ := hds
    · exact points_nil
    · exact points_readClosedType hts.tail.tail hc
  | cast _ _ hc =>
    obtain ⟨hr, hl, hn⟩ := placed_readClosedType hts.tail hc
    refine ⟨hr, points_nil, ?_⟩
    rintro t ⟨⟩
    exact ⟨hl.mono hts.stop_le (Nat.le_refl _), hn⟩

theorem placed_prefixStep_sizeOfType {tok : Token} {rest after : List Token} {t : TypeExpr}
    (hts : env.Laid (tok :: rest)) (h : prefixStep env tok rest = .sizeOfType t after) :
    after <:+ rest ∧ Lie tok.stop (env.position after) t.places ∧ Nest t.places := by
  obtain ⟨-, paren, inner, rfl, -, -, hc⟩ := prefixStep_eq_sizeOfType h
  obtain ⟨hr, hl, hn⟩ := placed_readClosedType hts.tail.tail hc
  exact ⟨hr.trans (List.suffix_cons _ _), hl.mono
    (Nat.le_trans hts.stop_le hts.tail.position_cons_le) (Nat.le_refl _), hn⟩

theorem placed_half {lo : Nat} {left : Expr} {tok tok' : Token} {rest after : List Token}
    {yes : Parsed} {ds : List Diagnostic} (hts : env.Laid (tok :: rest))
    (hlo : lo ≤ env.position (tok :: rest)) (hl : Lie lo (env.position (tok :: rest)) left.places)
    (hyes : Parsed.Placed env (env.position rest) rest yes) (hr : after <:+ yes.rest)
    (htok : tok'.span.Lies lo (env.position after)) (hd : env.Points ds) :
    Parsed.Placed env lo (tok :: rest)
      { yes with
        expr := .ternary (left.spanOr tok') left yes.expr .missing
        rest := after
        diagnostics := ds } where
  suffix := (hr.trans hyes.suffix).trans (List.suffix_cons _ _)
  lies := by
    have hb := (hts.tail.suffix hyes.suffix).position_le hr
    have hleft := hl.mono (Nat.le_refl lo)
      (Nat.le_trans hts.position_cons_le (Nat.le_trans (hts.tail.position_le hyes.suffix) hb))
    exact lie_cons.2 ⟨Expr.lies_spanOr hleft htok, lie_append.2 ⟨hleft, lie_append.2
      ⟨hyes.lies.mono (Nat.le_trans hlo hts.position_cons_le) hb, List.forall_mem_nil _⟩⟩⟩
  nest hc := hc.2.2.elim
  points := hd

theorem placed_noColon {lo : Nat} {left : Expr} {tok : Token} {rest : List Token} {yes : Parsed}
    (hts : env.Laid (tok :: rest)) (hlo : lo ≤ env.position (tok :: rest))
    (hl : Lie lo (env.position (tok :: rest)) left.places)
    (hyes : Parsed.Placed env (env.position rest) rest yes) :
    Parsed.Placed env lo (tok :: rest)
      { yes with
        expr := .ternary (left.spanOr tok) left yes.expr .missing
        diagnostics := yes.diagnostics ++ [⟨env.position yes.rest, .expectedColon⟩] } :=
  placed_half hts hlo hl hyes (List.suffix_refl _)
    (hts.lies_span.mono hlo (hts.tail.position_le hyes.suffix))
    (hyes.points.concat (hts.tail.suffix hyes.suffix).position_le_length)

section
variable {sub : Reader} (hs : sub.Places env)
include hs

theorem placed_readOperand {lo budget : Nat} {marks : List Prefixed} {ts : List Token} {p : Parsed}
    (hts : env.Laid ts) (hm : Held lo (env.position ts) marks)
    (h : OperandRun env sub budget marks ts p) : Parsed.Placed env lo ts p := by
  induction h with
  | core _ ha hf =>
    have ha := placed_readAtom hs hts ha
    have hf := placed_readPostfix hs (hts.suffix ha.suffix) (hts.position_le ha.suffix) ha.lies
      ha.nest hf
    have hsuffix := hf.suffix.trans ha.suffix
    obtain ⟨hl, hn⟩ := lie_applyAll hm hf.lies (hts.position_le hsuffix)
    exact ⟨hsuffix, hl, fun hc => hn (complete_of_applyAll hc) (hf.nest (complete_of_applyAll hc)),
      points_append.2 ⟨ha.points, hf.points⟩⟩
  | @sizeOfType marks tok rest after t hstep =>
    obtain ⟨hr, hl, hn⟩ := placed_prefixStep_sizeOfType hts hstep
    have hheld : Held lo tok.stop (⟨.sizeof, tok⟩ :: marks) :=
      ⟨Nat.le_refl _, (by rintro t ⟨⟩), hm⟩
    obtain ⟨hl', hn'⟩ := lie_applyAll (x := .type t) hheld hl
      (Nat.le_trans hts.stop_le (hts.tail.position_le hr))
    exact ⟨hr.trans (List.suffix_cons _ _), hl', fun _ => hn' trivial hn, points_nil⟩
  | tooDeep hstep =>
    have hd := (placed_prefixStep_mark hts hstep).2.1
    exact placed_missing List.nil_suffix (hd.concat hts.position_le_length) true
  | @mark marks tok rest after m ds p hstep _ _ ih =>
    obtain ⟨hr, hd, hcast⟩ := placed_prefixStep_mark hts hstep
    have hafter : after <:+ tok :: rest := hr.trans (List.suffix_cons _ _)
    have hheld : Held lo (env.position after) (⟨m, tok⟩ :: marks) :=
      ⟨Nat.le_trans hts.stop_le (hts.tail.position_le hr), hcast, hm⟩
    exact ((ih (hts.suffix hafter) hheld).behind hafter).points_cons hd

theorem placed_climb {lo ceiling : Nat} {left : Expr} {ts : List Token} {p : Parsed}
    (hts : env.Laid ts) (hlo : lo ≤ env.position ts) (hl : Lie lo (env.position ts) left.places)
    (hn : left.Complete → Nest left.places) (h : ClimbRun env sub ceiling left ts p) :
    Parsed.Placed env lo ts p := by
  induction h with
  | stop => exact placed_operand hts hl hn (List.suffix_refl _) points_nil
  | noColon _ _ _ hyes => exact placed_noColon hts hlo hl (hs.read hyes hts.tail)
  | @noBranch left tok colon rest yes _ _ _ hyes hr =>
    have hyes := hs.read hyes hts.tail
    have hlaid := hts.tail.suffix hyes.suffix
    have hb := hts.tail.position_le hyes.suffix
    rw [hr] at hlaid hb
    have hcolon := hlaid.lies_span.mono
      (Nat.le_trans (Nat.le_trans hlo hts.position_cons_le) hb) (Nat.le_refl _)
    exact placed_half hts hlo hl hyes List.nil_suffix hcolon
      (hyes.points.concat (hlaid.bounded colon List.mem_cons_self))
  | @conditional left tok colon rest after yes no whole _ _ _ hyes hr _ _ hno _ ih =>
    have hyes := hs.read hyes hts.tail
    have hmore : after <:+ yes.rest := hr ▸ List.suffix_cons _ _
    have hlaid := (hts.tail.suffix hyes.suffix).suffix hmore
    have hno := hs.read hno hlaid
    have hafter : no.rest <:+ tok :: rest :=
      ((hno.suffix.trans hmore).trans hyes.suffix).trans (List.suffix_cons _ _)
    have h₁ := hts.position_cons_le
    have h₂ := hts.tail.position_le hyes.suffix
    have h₃ := (hts.tail.suffix hyes.suffix).position_le hmore
    have h₄ := hlaid.position_le hno.suffix
    have hcolon : colon.span.Lies (env.position yes.rest) (env.position after) := by
      have hl := hts.tail.suffix hyes.suffix
      rw [hr] at hl ⊢
      exact hl.lies_span
    have hleft := hl.mono (Nat.le_refl lo) (by omega : _ ≤ env.position no.rest)
    have htok := hts.lies_span.mono hlo (by omega : _ ≤ env.position no.rest)
    have hcolon' := hcolon.mono (by omega : lo ≤ _) h₄
    have hno' := hno.lies.mono (by omega : lo ≤ _) (Nat.le_refl _)
    have hplaced := (ih (hts.suffix hafter) (by omega) ?_ ?_).behind hafter
    · exact hplaced.points_cons (points_append.2 ⟨hyes.points, hno.points⟩)
    · exact lie_cons.2 ⟨(Expr.lies_spanOr hleft htok).join (Expr.lies_spanOr hno' hcolon'),
        lie_append.2 ⟨hleft, lie_append.2 ⟨hyes.lies.mono (by omega) (by omega), hno'⟩⟩⟩
    · rintro ⟨hcl, hcyes, hcno⟩
      refine nest_cons.2 ⟨?_, nest_append.2 ⟨hn hcl,
        nest_append.2 ⟨hyes.nest hcyes, hno.nest hcno⟩⟩⟩
      intro s hmem
      obtain hmem | hmem := List.mem_append.1 hmem
      · rw [Expr.eq_spanOr hmem tok]
        exact Span.contains_join_left _ _
      · obtain hmem | hmem := List.mem_append.1 hmem
        · have hbetween := Expr.lies_of_span? hyes.lies (Option.mem_toList.1 hmem)
          exact (hcl.lies_spanOr hl tok).contains_between (hbetween.mono h₁ h₃)
            (hcno.lies_spanOr hno.lies colon)
        · rw [Expr.eq_spanOr hmem colon]
          exact Span.contains_join_right _ _
  | @noOperand left tok =>
    have hend : env.position [] ≤ env.text.length := hts.tail.position_le_length
    have hleft := hl.mono (Nat.le_refl lo) (Nat.le_trans hts.position_cons_le hend)
    have htok := hts.lies_span.mono hlo hend
    exact ⟨List.nil_suffix, lie_cons.2 ⟨Expr.lies_spanOr hleft htok,
      lie_append.2 ⟨hleft, List.forall_mem_nil _⟩⟩, fun hc => hc.2.elim,
      points_singleton (hts.bounded tok List.mem_cons_self)⟩
  | @operator left tok rest op right whole _ _ _ _ hright _ ih =>
    have hright := hs.read hright hts.tail
    have hafter : right.rest <:+ tok :: rest := hright.suffix.trans (List.suffix_cons _ _)
    have h₁ := hts.position_cons_le
    have h₂ := hts.tail.position_le hright.suffix
    have hleft := hl.mono (Nat.le_refl lo) (Nat.le_trans h₁ h₂)
    have htok := hts.lies_span.mono hlo h₂
    have hright' := hright.lies.mono (Nat.le_trans hlo h₁) (Nat.le_refl _)
    have hplaced := (ih (hts.suffix hafter) (by omega) ?_ ?_).behind hafter
    · exact hplaced.points_cons hright.points
    · exact lie_cons.2 ⟨(Expr.lies_spanOr hleft htok).join (Expr.lies_spanOr hright' htok),
        lie_append.2 ⟨hleft, hright'⟩⟩
    · rintro ⟨hcl, hcr⟩
      exact nest_pair (hn hcl) (hright.nest hcr) tok tok

end

theorem places_reader (env : Env) (budget : Nat) : (reader env budget).Places env := by
  induction budget with
  | zero =>
    intro ceiling ts hts
    exact placed_missing List.nil_suffix (points_singleton hts.position_le_length) true
  | succ budget ih =>
    intro ceiling ts hts
    obtain ⟨first, whole, hfirst, hwhole, hr⟩ := reader_run env budget ceiling ts
    have hheld : Held (env.position ts) (env.position ts) [] := Nat.le_refl _
    have hf := placed_readOperand ih hts hheld hfirst
    have hw := placed_climb ih (hts.suffix hf.suffix) (hts.position_le hf.suffix) hf.lies hf.nest
      hwhole
    rw [hr]
    exact (hw.behind hf.suffix).points_cons hf.points

theorem laid_scan (c : Context) (text : Text) : Env.Laid ⟨c, text⟩ (Lexer.scan text) := by
  have h : Lexer.Tiles 0 text (Lexer.scan text) := Lexer.tiles_scanFrom 0 text
  refine ⟨h.pairwise, ?_⟩
  intro t ht
  have := (h.bounds t ht).2
  simpa using this

/-- All nodes of the tree of a text stand in the text, and all complaints point into it; where
nothing is missing, parents stand around their children. -/
theorem placed_parse (c : Context) (text : Text) :
    Lie 0 text.length (parse c text (Lexer.scan text)).1.places ∧
      ((parse c text (Lexer.scan text)).1.Complete →
        Nest (parse c text (Lexer.scan text)).1.places) ∧
      Env.Points ⟨c, text⟩ (parse c text (Lexer.scan text)).2 := by
  have hts := laid_scan c text
  have hp := places_reader ⟨c, text⟩ c.depthLimit maxPrecedence _ hts
  have hrest := hts.suffix hp.suffix
  have hl := hp.lies.mono (Nat.zero_le _) hrest.position_le_length
  rw [parse]
  split
  · exact ⟨List.forall_mem_nil _, fun hc => hc.elim, points_singleton (Nat.zero_le _)⟩
  · simp only
    split
    · rename_i tok rest hcons
      rw [hcons] at hrest
      split
      · exact ⟨hl, hp.nest, hp.points⟩
      · exact ⟨hl, hp.nest, hp.points.concat hrest.position_le_length⟩
    · exact ⟨hl, hp.nest, hp.points⟩

end Parser

end WatchExpr
