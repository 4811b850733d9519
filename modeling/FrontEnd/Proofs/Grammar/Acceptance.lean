import FrontEnd.Proofs.Grammar.Completeness
import FrontEnd.Proofs.Grammar.Derivation
import Mathlib

/-! The programs that are read are those of the language. -/

namespace FrontEnd.Program

theorem derives_of_parse {source : String} {T : TypeTable} (hT : T.Reachable) {p : Program}
    (h : (parse source T).1 = .ok p) :
    Phrase.program.Derives ((tokenize source).dropLast.map Token.kind) := by
  obtain ⟨_, hr, _, hT'⟩ := reads_of_parse (Prod.ext h rfl)
  exact hr.spelled (hT' hT)

theorem parse_of_derives {source : String} (T : TypeTable)
    (h : Phrase.program.Derives ((tokenize source).dropLast.map Token.kind)) :
    ∃ p, (parse source T).1 = .ok p := by
  have hreported : (Rule.declarations .full (.ofSource source T)).2.reported = [] :=
    Rule.declarations_accepts h
  refine ⟨{ decls := (Rule.declarations .full (.ofSource source T)).1 }, ?_⟩
  simp only [parse, ofState, hreported]

/-- A text is read or refused by the grammar alone. The choices that the rules make as they go,
which operand an operator takes and which condition an `else`, refuse nothing; what the lexer could
not read is refused anywhere. -/
theorem parse_ok_iff_derives {source : String} {T : TypeTable} (hT : T.Reachable) :
    ((∃ p, (parse source T).1 = .ok p) ↔
      Phrase.program.Derives ((tokenize source).dropLast.map Token.kind)) ∧
    (∀ t ∈ tokenize source, t.kind = .invalid → ∃ ds, (parse source T).1 = .error ds) := by
  refine ⟨⟨fun ⟨p, hp⟩ => derives_of_parse hT hp, parse_of_derives T⟩, fun t ht hk => ?_⟩
  cases hparse : (parse source T).1 with
  | error ds => exact ⟨ds, rfl⟩
  | ok p =>
    have hne : t.kind ≠ .eof := by rw [hk]; decide
    have hmem : .invalid ∈ (tokenize source).dropLast.map Token.kind :=
      hk ▸ List.mem_map_of_mem (mem_dropLast_of_mem_tokenize ht hne)
    exact absurd hmem (derives_of_parse hT hparse).invalid_not_mem

/-- Behind an operator a condition takes all that follows. -/
theorem parse_ok_of_condition_behind_operator :
    TypeTable.initial.Reachable ∧
      ∃ p, (parse "var x = 1 * if y then -f(2) else (3) + 4;" .initial).1 = .ok p := by
  refine ⟨.initial, (parse_ok_iff_derives .initial).1.mpr ?_⟩
  have hkinds : (tokenize "var x = 1 * if y then -f(2) else (3) + 4;").dropLast.map Token.kind =
      [.kwVar, .identifier, .assign, .number, .star, .kwIf, .identifier, .kwThen, .minus,
        .identifier, .openParen, .number, .closeParen, .kwElse, .openParen, .number, .closeParen,
        .plus, .number, .semicolon] := by cbv
  have hnumber : Phrase.expr.Derives [.number] := .literal (by decide)
  have hname : Phrase.expr.Derives [.identifier] := .literal (by decide)
  have hthen := Phrase.Derives.prefixed (k := .minus) (by decide) (.call hname (.lastItem hnumber))
  have helse := Phrase.Derives.binary (k := .plus) (by decide) (.group hnumber) hnumber
  have hvalue := Phrase.Derives.binary (k := .star) (by decide) hnumber
    (.ifElse hname hthen helse)
  rw [hkinds]
  exact .moreDecls (.var .untypedVar hvalue) .noDecl

end FrontEnd.Program
