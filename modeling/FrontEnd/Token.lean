import FrontEnd.Fault
import FrontEnd.Position

/-! Tokens: a kind, what the token carries, and the place of its first character. -/

namespace FrontEnd

/-- An invalid token carries the fault that made it invalid. -/
inductive Payload where
  | none
  | int (value : Int)
  | text (value : String)
  | fault (cause : Fault)
deriving DecidableEq, Repr, Inhabited

structure Token where
  kind : TokenKind
  payload : Payload
  place : Position
deriving DecidableEq, Repr, Inhabited

namespace Token

/-- The token that stands behind the last one of a text ending at `p`. -/
def endAt (p : Position) : Token := ⟨.eof, .none, p⟩

/-- The text that the token carries, if any. -/
def text (t : Token) : String :=
  match t.payload with
  | .text s => s
  | _ => ""

/-- How the token is shown: by what it carries, else by the spelling of its kind. -/
def shown (t : Token) : String :=
  match t.payload with
  | .int n => toString n
  | .text s => if t.kind = .string then "\"" ++ s ++ "\"" else s
  | .none => t.kind.spelling
  | .fault _ => t.kind.spelling

def lexicalFault? (t : Token) : Option Fault :=
  match t.payload with
  | .fault cause => some cause
  | _ => Option.none

@[simp] theorem kind_endAt (p : Position) : (endAt p).kind = .eof := rfl

@[simp] theorem place_endAt (p : Position) : (endAt p).place = p := rfl

end Token

end FrontEnd
