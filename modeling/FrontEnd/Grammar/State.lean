import FrontEnd.Diagnostic
import FrontEnd.Token.Stream
import FrontEnd.Types.Table

/-! What the grammar reads from and writes to: the tokens that are left, the types entered and the
diagnostics reported so far, and how many blocks are open. -/

namespace FrontEnd

/-- Behind the tokens that are left the text ends at `finish`. -/
structure ParserState where
  tokens : List Token
  finish : Position
  types : TypeTable
  reported : List Diagnostic := []
  openBlocks : Nat := 0

/-- Skips the rest of what went wrong. `n` counts the braces opened on the way, groups in braces
are skipped whole. It stops behind a semicolon, and inside a block before the closing brace. -/
def recover (inBlock : Bool) : Nat → List Token → List Token
  | _, [] => []
  | n, t :: ts =>
    match t.kind with
    | .eof => t :: ts
    | .semicolon => if n = 0 then ts else recover inBlock n ts
    | .openCurly => recover inBlock (n + 1) ts
    | .closeCurly => if n = 0 && inBlock then t :: ts else recover inBlock (n - 1) ts
    | _ => recover inBlock n ts

namespace ParserState

/-- The state before the tokens of a text, of which the last marks the end. -/
def ofTokens (ts : List Token) (types : TypeTable) : ParserState :=
  { tokens := ts.dropLast, finish := (ts.getLastD (.endAt .origin)).place, types }

def ofSource (source : String) (types : TypeTable) : ParserState :=
  ofTokens (tokenize source) types

/-- The token that comes next. -/
def current (s : ParserState) : Token := s.tokens.headD (.endAt s.finish)

def kind (s : ParserState) : TokenKind := s.current.kind

/-- Steps over the token that comes next; at the end there is nothing to step over. -/
def advance (s : ParserState) : ParserState := { s with tokens := s.tokens.tail }

def hasTokens (s : ParserState) : Bool := s.kind != .eof

/-- The diagnostic for a token that cannot stand here. An invalid token is itself to blame. -/
def unexpected (s : ParserState) (f : Fault) : Diagnostic :=
  ⟨s.current.lexicalFault?.getD f, s.current.place⟩

def report (s : ParserState) (d : Diagnostic) : ParserState :=
  { s with reported := s.reported ++ [d] }

def enterBlock (s : ParserState) : ParserState := { s with openBlocks := s.openBlocks + 1 }

def exitBlock (s : ParserState) : ParserState := { s with openBlocks := s.openBlocks - 1 }

def synchronize (s : ParserState) : ParserState :=
  { s with tokens := recover (0 < s.openBlocks) 0 s.tokens }

@[simp] theorem exitBlock_enterBlock (s : ParserState) : s.enterBlock.exitBlock = s := by
  simp [enterBlock, exitBlock]

end ParserState

theorem recover_suffix (inBlock : Bool) (n : Nat) (ts : List Token) :
    recover inBlock n ts <:+ ts := by
  induction ts generalizing n with
  | nil => exact List.suffix_rfl
  | cons t ts ih =>
    unfold recover
    split
    · exact List.suffix_rfl
    · split
      · exact List.suffix_cons t ts
      · exact (ih _).trans (List.suffix_cons t ts)
    · exact (ih _).trans (List.suffix_cons t ts)
    · split
      · exact List.suffix_rfl
      · exact (ih _).trans (List.suffix_cons t ts)
    · exact (ih _).trans (List.suffix_cons t ts)

end FrontEnd
