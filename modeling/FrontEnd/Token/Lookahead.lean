import FrontEnd.Token.Stream

/-! Reading tokens on demand with one token of lookahead. The text is always scanned up to the
token that comes next; at the end of the text that token repeats. -/

namespace FrontEnd

/-- `place` and `rest` lie behind the token that comes next. -/
structure Lookahead where
  peeked : Token
  previous : Token
  place : Position
  rest : List Char
deriving DecidableEq, Repr, Inhabited

/-- The characters that make up exactly the first `n` bytes, and what follows them. -/
def splitBytes? : Nat → List Char → Option (List Char × List Char)
  | 0, cs => some ([], cs)
  | _ + 1, [] => none
  | n + 1, c :: cs =>
    if c.utf8Size ≤ n + 1 then
      (splitBytes? (n + 1 - c.utf8Size) cs).map fun (front, rest) => (c :: front, rest)
    else none

namespace Lookahead

def ofSource (source : String) : Lookahead :=
  let s := scan .origin source.toList
  ⟨s.token, .endAt .origin, s.place, s.rest⟩

/-- Takes the token that comes next; it becomes the previous one. -/
def advance (l : Lookahead) : Lookahead :=
  let s := scan l.place l.rest
  ⟨s.token, l.peeked, s.place, s.rest⟩

/-- Takes the next token if it is of kind `k`, and tells whether it was. -/
def advanceIf (l : Lookahead) (k : TokenKind) : Bool × Lookahead :=
  if l.peeked.kind = k then (true, l.advance) else (false, l)

/-- Skips `n` bytes behind the token that comes next, if that many are left and they end between
two characters. -/
def skipBytes? (l : Lookahead) (n : Nat) : Option Lookahead :=
  (splitBytes? n l.rest).map fun (front, rest) =>
    { l with place := l.place.afterAll front, rest := rest }

@[simp] theorem previous_advance (l : Lookahead) : l.advance.previous = l.peeked := rfl

end Lookahead

end FrontEnd
