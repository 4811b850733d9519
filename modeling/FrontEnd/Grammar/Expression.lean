import FrontEnd.Grammar.Block

/-! The rules for expressions. The first token tells the form of the first operand; operators that
bind tighter than the level at hand then take what was read as their left operand. -/

namespace FrontEnd.Rule

def exprSite (p : Position) : ExprSite := { place := p }

def primary : Rule Expr := fun s =>
  match s.kind with
  | .number | .string | .identifier | .kwTrue | .kwFalse =>
    .done (.leaf (exprSite s.current.place) .literal s.current) s.advance
  | _ => refuse .noExpression s

/-- Any token that comes next is taken for the operator. -/
def prefixed (operand : Operand) : Rule Expr := do
  let operator ← advance
  let e ← operand .unary
  return .unary (exprSite operator.place) operator e

/-- Parentheses leave no trace in the tree. -/
def grouping (operand : Operand) : Rule Expr := do
  let _ ← expect .openParen
  let e ← operand .lowest
  let _ ← expect .closeParen
  return e

def blockExpr (v : Vocabulary) (operand : Operand) : Rule Expr := do
  let (body, p) ← block v operand
  return .block (exprSite p) body

/-- An `else` belongs to the nearest condition before it. -/
def conditional (operand : Operand) : Rule Expr := do
  let start ← expect .kwIf
  let condition ← operand .lowest
  let _ ← expect .kwThen
  let thenBranch ← operand .lowest
  if ← advanceIf .kwElse then
    let elseBranch ← operand .lowest
    return .ifElse (exprSite start.place) condition thenBranch elseBranch
  else return .ifThen (exprSite start.place) condition thenBranch

def returned (operand : Operand) : Rule Expr := do
  let start ← expect .kwReturn
  let value ← operand .lowest
  return .result (exprSite start.place) .fromFunction value

def yielded (operand : Operand) : Rule Expr := do
  let start ← expect .kwYield
  let value ← operand .lowest
  return .result (exprSite start.place) .fromBlock value

/-- An operator and its right operand behind the left one. Any token that comes next is taken for
the operator. -/
def binaryTail (operand : Operand) (form : BinaryForm) (left : Expr) (bp : BindingPower) :
    Rule Expr := do
  let operator ← advance
  let right ← operand bp
  return .binary (exprSite operator.place) form operator left right

/-- The arguments of a call in parentheses. The call stands where its callee does. -/
def callTail (operand : Operand) (callee : Expr) : Rule Expr := do
  let _ ← expect .openParen
  let arguments ← itemsBefore .closeParen (operand .lowest)
  let _ ← expect .closeParen
  return .call (exprSite callee.place) callee arguments

def exprOfLead (v : Vocabulary) (operand : Operand) : LeadForm → Rule Expr
  | .primary => primary
  | .prefixed => prefixed operand
  | .grouping => grouping operand
  | .block => blockExpr v operand
  | .conditional => conditional operand
  | .returned => returned operand
  | .yielded => yielded operand

def exprOfTail (operand : Operand) (left : Expr) (bp : BindingPower) : TailForm → Rule Expr
  | .comparison => binaryTail operand .comparison left bp
  | .arithmetic => binaryTail operand .arithmetic left bp
  | .call => callTail operand left

/-- Takes at most `n` operators that bind tighter than `bp`, from the left. -/
def tailsWithin (v : Vocabulary) (operand : Operand) (bp : BindingPower) : Nat → Expr → Rule Expr
  | 0, left => return left
  | n + 1, left => fun s =>
    match v.tail? s.kind with
    | some (next, form) =>
      if bp < next then (exprOfTail operand left next form >>= tailsWithin v operand bp n) s
      else .done left s
    | none => .done left s

/-- Every operator is a token, so the tokens left bound the number of operators. -/
def tails (v : Vocabulary) (operand : Operand) (bp : BindingPower) (left : Expr) : Rule Expr :=
  fun s => tailsWithin v operand bp s.tokens.length left s

/-- An expression nested at most `n` deep. -/
def exprWithin (v : Vocabulary) : Nat → Operand
  | 0, _ => refuse .noExpression
  | n + 1, bp => fun s =>
    match v.lead? s.kind with
    | some form => (exprOfLead v (exprWithin v n) form >>= tails v (exprWithin v n) bp) s
    | none => refuse .noExpression s

/-- An expression whose operators bind tighter than `bp`. Before an expression inside it begins, a
token has been read, so the tokens left bound its depth; without a token there is none. -/
def expr (v : Vocabulary) : Operand := fun bp s => exprWithin v s.tokens.length bp s

end FrontEnd.Rule
