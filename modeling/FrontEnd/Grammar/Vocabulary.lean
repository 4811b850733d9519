import FrontEnd.Token.Kind
import FrontEnd.Types.Table

/-! What each kind of token can begin or continue: a declaration, a type, an expression. The binding
power of an operator says which of two neighbouring operators takes the operand between them. -/

namespace FrontEnd

inductive BindingPower where
  | lowest | equality | relational | additive | multiplicative | unary | call
deriving DecidableEq, Repr, Inhabited

namespace BindingPower

def rank : BindingPower → Nat
  | lowest => 0
  | equality => 1
  | relational => 2
  | additive => 3
  | multiplicative => 4
  | unary => 5
  | call => 6

instance : LT BindingPower := ⟨fun a b => a.rank < b.rank⟩

instance (a b : BindingPower) : Decidable (a < b) := inferInstanceAs (Decidable (a.rank < b.rank))

end BindingPower

/-- The forms of expressions told by their first token. -/
inductive LeadForm where
  | primary | prefixed | grouping | block | conditional | returned | yielded
deriving DecidableEq, Repr, Inhabited

/-- The forms of expressions told by the token behind their first operand. -/
inductive TailForm where
  | comparison | arithmetic | call
deriving DecidableEq, Repr, Inhabited

inductive TypeForm where
  | primitive | pointer | function
deriving DecidableEq, Repr, Inhabited

/-- The language, or a bare one in which no token begins or continues anything. -/
inductive Vocabulary where
  | full | bare
deriving DecidableEq, Repr, Inhabited

namespace Vocabulary

def declares : Vocabulary → TokenKind → Bool
  | bare, _ => false
  | full, k => k = .kwOf || k = .kwVar || k = .kwFun

def lead? : Vocabulary → TokenKind → Option LeadForm
  | bare, _ => none
  | full, .number | full, .string | full, .identifier | full, .kwTrue | full, .kwFalse =>
    some .primary
  | full, .minus | full, .bang => some .prefixed
  | full, .openParen => some .grouping
  | full, .openCurly => some .block
  | full, .kwIf => some .conditional
  | full, .kwReturn => some .returned
  | full, .kwYield => some .yielded
  | full, _ => none

def tail? : Vocabulary → TokenKind → Option (BindingPower × TailForm)
  | bare, _ => none
  | full, .equals | full, .notEquals => some (.equality, .comparison)
  | full, .less | full, .greater => some (.relational, .comparison)
  | full, .plus | full, .minus => some (.additive, .arithmetic)
  | full, .star | full, .slash => some (.multiplicative, .arithmetic)
  | full, .openParen => some (.call, .call)
  | full, _ => none

def typeForm? : Vocabulary → TokenKind → Option TypeForm
  | bare, _ => none
  | full, .tyInt | full, .tyBool | full, .tyString | full, .tyUnit => some .primitive
  | full, .star => some .pointer
  | full, .openBracket => some .function
  | full, _ => none

end Vocabulary

/-- The primitive type that a word names. -/
def TokenKind.primitive? : TokenKind → Option Primitive
  | .tyInt => some .int
  | .tyBool => some .bool
  | .tyString => some .string
  | .tyUnit => some .unit
  | _ => none

end FrontEnd
