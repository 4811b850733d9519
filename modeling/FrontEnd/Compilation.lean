import FrontEnd.Grammar.Program
import FrontEnd.Scope.Stamping
import FrontEnd.Syntax.Outline
import FrontEnd.Typing

/-! From a source text to an annotated program. Each stage runs only if the one before it found
nothing wrong, so a failure reports the faults of a single stage. -/

namespace FrontEnd

/-- The types and scopes that the nodes of the program refer to come with it. -/
structure Compilation where
  program : Program
  types : TypeTable
  scopes : ScopeTree

namespace Program

/-- Builds the scopes of a program, checks its names, and types its expressions. -/
def analyse (p : Program) (T : TypeTable) : Except (List Diagnostic) Compilation :=
  match p.buildScopes T .empty with
  | (_, { failure := some d, .. }) => .error [d]
  | (p, { tree, failure := none }) =>
    match p.checkDefinitions tree with
    | .error d => .error [d]
    | .ok () =>
      match p.annotate tree T with
      | (_, some d) => .error [d]
      | (p, none) => .ok ⟨p, T, tree⟩

end Program

def compile (source : String) : Except (List Diagnostic) Compilation :=
  match Program.parse source .initial with
  | (.error ds, _) => .error ds
  | (.ok p, T) => p.analyse T

end FrontEnd
