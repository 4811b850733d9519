import FrontEnd.Grammar.Expression

/-! Reading a whole program. A declaration that fails is reported and skipped; a program with such a
declaration fails as a whole, after all of it was read. -/

namespace FrontEnd

namespace Rule

def topLevel (v : Vocabulary) : Rule Decl := fun s =>
  if v.declares s.kind then declaration v (expr v) s else refuse .noDeclaration s

/-- At most `n` declarations, and the state behind them. -/
def declarationsWithin (v : Vocabulary) : Nat → ParserState → List Decl × ParserState
  | 0, s => ([], s)
  | n + 1, s =>
    if s.hasTokens then
      match topLevel v s with
      | .done d s =>
        let (ds, s) := declarationsWithin v n s
        (d :: ds, s)
      | .failed d s => declarationsWithin v n (s.report d).synchronize
    else ([], s)

/-- The declarations up to the end of the text. Each of them takes a token, so the tokens left bound
their number. -/
def declarations (v : Vocabulary) (s : ParserState) : List Decl × ParserState :=
  declarationsWithin v s.tokens.length s

end Rule

namespace Program

/-- The program that a state holds, or all that is wrong with it, summed up at the end. The types
of its signatures are entered either way. -/
def ofState (s : ParserState) : Except (List Diagnostic) Program × TypeTable :=
  let (decls, s) := Rule.declarations .full s
  match s.reported with
  | [] => (.ok { decls }, s.types)
  | ds => (.error (ds ++ [⟨.brokenProgram ds.length, s.current.place⟩]), s.types)

/-- Reads a source text; the types of its signatures are entered into `types`. -/
def parse (source : String) (types : TypeTable) : Except (List Diagnostic) Program × TypeTable :=
  ofState (.ofSource source types)

end Program

end FrontEnd
