import FrontEnd.Grammar.State

/-! Rules of the grammar. A rule reads what it stands for or fails with a diagnostic; either way it
leaves a state behind, and what it consumed, entered and reported stays so. -/

namespace FrontEnd

inductive Reply (α : Type) where
  | done (value : α) (next : ParserState)
  | failed (why : Diagnostic) (next : ParserState)

namespace Reply

/-- The state left behind. -/
def next {α : Type} : Reply α → ParserState
  | done _ s => s
  | failed _ s => s

def map {α β : Type} (f : α → β) : Reply α → Reply β
  | done a s => done (f a) s
  | failed d s => failed d s

end Reply

def Rule (α : Type) : Type := ParserState → Reply α

namespace Rule

variable {α β : Type}

def pure (a : α) : Rule α := fun s => .done a s

def bind (r : Rule α) (f : α → Rule β) : Rule β := fun s =>
  match r s with
  | .done a s => f a s
  | .failed d s => .failed d s

instance : Monad Rule where
  pure := pure
  bind := bind

@[simp] theorem pure_apply (a : α) (s : ParserState) : (Pure.pure a : Rule α) s = .done a s := rfl

theorem bind_apply (r : Rule α) (f : α → Rule β) (s : ParserState) :
    (r >>= f) s =
      match r s with
      | .done a s => f a s
      | .failed d s => .failed d s := rfl

theorem bind_done {r : Rule α} {s t : ParserState} {a : α} (f : α → Rule β)
    (h : r s = .done a t) : (r >>= f) s = f a t := by
  rw [bind_apply, h]

theorem bind_failed {r : Rule α} {s t : ParserState} {d : Diagnostic} (f : α → Rule β)
    (h : r s = .failed d t) : (r >>= f) s = .failed d t := by
  rw [bind_apply, h]

def fail (d : Diagnostic) : Rule α := fun s => .failed d s

/-- Fails because of the token that comes next, which the fault tells as it is shown. -/
def refuse (f : String → Fault) : Rule α := fun s =>
  .failed (s.unexpected (f s.current.shown)) s

def current : Rule Token := fun s => .done s.current s

def advance : Rule Token := fun s => .done s.current s.advance

/-- Steps over the next token if it is of kind `k`, and tells whether it was. -/
def advanceIf (k : TokenKind) : Rule Bool := fun s =>
  if s.kind = k then .done true s.advance else .done false s

/-- Reads a token of kind `k`, or fails with the fault given. -/
def expectOr (k : TokenKind) (f : String → Fault) : Rule Token := fun s =>
  if s.kind = k then advance s else refuse f s

def expect (k : TokenKind) : Rule Token := expectOr k (.unexpectedToken k)

def enterType (shape : TypeShape) : Rule TypeId := fun s =>
  let (t, types) := s.types.enter shape
  .done t { s with types }

/-- One item or more with commas between them, `n` commas at most. -/
def commaSeparated (item : Rule α) : Nat → Rule (List α)
  | 0 => do return [← item]
  | n + 1 => do
    let x ← item
    if ← advanceIf .comma then
      let xs ← commaSeparated item n
      return x :: xs
    else return [x]

/-- Items with commas between them, none if the closing token comes next. No text has more commas
than tokens. -/
def itemsBefore (close : TokenKind) (item : Rule α) : Rule (List α) := fun s =>
  if s.kind = close then .done [] s else commaSeparated item s.tokens.length s

end Rule

end FrontEnd
