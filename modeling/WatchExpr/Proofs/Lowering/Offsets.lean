import WatchExpr.Proofs.Lowering.Interning

namespace WatchExpr

variable (c : Context) (text : Text)

theorem points_compile : Parser.Env.Points ⟨c, text⟩ (compile c text).1.diagnostics := by
  obtain ⟨hl, -, hp⟩ := Parser.placed_parse c text
  have hs := Lowering.checks_lower (P := (· ≤ text.length)) (Nat.zero_le _)
    (fun p hp => Nat.le_trans (hl p hp).2.1 (hl p hp).2.2) { types := c.types }
  have hstart : 0 ≤ text.length := Nat.zero_le _
  simp only [compile]
  generalize (Lowering.lower (Parser.parse c text (Lexer.scan text)).1).run { types := c.types } =
    out at hs
  obtain ⟨o, s⟩ := out
  obtain ⟨ds, hds, hoffset⟩ := hs.complaints
  have hboth : Parser.Env.Points ⟨c, text⟩
      ((Parser.parse c text (Lexer.scan text)).2 ++ s.diagnostics) :=
    Parser.points_append.2 ⟨hp, hds ▸ hoffset⟩
  cases o with
  | none =>
    refine Parser.points_append.2 ⟨hboth, ?_⟩
    split
    · exact Parser.points_singleton hstart
    · exact Parser.points_nil
  | some r =>
    simp only
    split
    · exact hboth
    split
    · exact hboth.concat hstart
    split
    · exact hboth
    split
    · exact hboth
    · exact hboth.concat hstart

/-- Every node of the tree of a text is a range of the text, every complaint about the text is about
a position in it, and if the reading recorded no error, nothing is missing from the tree and the
range of every node has the ranges of all its children in it: of the operands, of the type of a cast
and of the name of a member. A size that runs in a circle counts as 0 (`TypeTable.byteSize`). -/
theorem compile_places :
    (∀ p ∈ (Parser.parse c text (Lexer.scan text)).1.places,
      p.span.start ≤ p.span.stop ∧ p.span.stop ≤ text.length) ∧
    (∀ d ∈ (compile c text).1.diagnostics, d.offset ≤ text.length) ∧
    (Diagnostic.anyError (Parser.parse c text (Lexer.scan text)).2 = false →
      (Parser.parse c text (Lexer.scan text)).1.Complete ∧
      ∀ p ∈ (Parser.parse c text (Lexer.scan text)).1.places, ∀ s ∈ p.children,
        p.span.start ≤ s.start ∧ s.stop ≤ p.span.stop) := by
  obtain ⟨hl, hn, -⟩ := Parser.placed_parse c text
  refine ⟨fun p hp => (hl p hp).2, points_compile c text, fun he => ?_⟩
  have hc := Parser.complete_parse he
  exact ⟨hc, hn hc⟩

/-- With an error a part can stand outside: the branch of a conditional that ends there. -/
example : (Parser.parse (.bare .x64) "1 ? 2" (Lexer.scan "1 ? 2")).1.places.map
      (fun p => (p.span, p.children)) =
    [(⟨0, 1⟩, [⟨0, 1⟩, ⟨4, 5⟩]), (⟨0, 1⟩, []), (⟨4, 5⟩, [])] := by
  decide +kernel

end WatchExpr
