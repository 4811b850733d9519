import FrontEnd.Grammar.Signature
import FrontEnd.Syntax.Tree

/-! The rules for declarations, statements and blocks, given the rule for expressions at each
binding power. A statement that fails inside a block is reported and skipped; the block fails
once its closing brace is read. -/

namespace FrontEnd.Rule

/-- How to read an expression whose operators bind tighter than the given power. -/
abbrev Operand := BindingPower → Rule Expr

/-- A fresh node at `p`. -/
def site (p : Position) : Site := { place := p }

/-- An expression or an assignment to a name, and a semicolon. -/
def statement (operand : Operand) : Rule Stmt := do
  let e ← operand .lowest
  if ← advanceIf .assign then
    match e.name? with
    | none => fail ⟨.notAssignable, e.place⟩
    | some _ =>
      let value ← operand .lowest
      let _ ← expect .semicolon
      return .assign (site e.place) e value
  else
    let _ ← expect .semicolon
    return .expr (site e.place) e

def varDecl (operand : Operand) (p : Position) (signature : Option TypeId) : Rule Decl := do
  let _ ← expect .kwVar
  let name ← expect .identifier
  let _ ← expect .assign
  let initial ← operand .lowest
  let finish ← expect .semicolon
  return .var (site p) name signature initial finish.place

/-- A signature fits a function if it is a function type with as many arguments as the function
has parameters. -/
def fitSignature (name : Token) (params : List Token) : Option TypeId → Rule Unit
  | none => return ()
  | some t => fun s =>
    match s.types.function? t with
    | none => .failed ⟨.signatureNotFunction name.text (s.types.shown t), name.place⟩ s
    | some (arguments, _) =>
      if arguments.length = params.length then .done () s
      else
        .failed ⟨.parameterCount name.text arguments.length params.length, name.place⟩ s

def fnDecl (operand : Operand) (p : Position) (signature : Option TypeId) : Rule Decl := do
  let _ ← expect .kwFun
  let name ← expect .identifier
  let _ ← expect .openParen
  let params ← itemsBefore .closeParen (expect .identifier)
  let _ ← expect .closeParen
  fitSignature name params signature
  let _ ← expect .assign
  let body ← operand .lowest
  let _ ← expect .semicolon
  return .fn (site p) name signature params body

/-- A signature in front of a declaration, if there is one. -/
def signature? (v : Vocabulary) : Rule (Option TypeId) := do
  if ← advanceIf .kwOf then return some (← type v) else return none

def declaration (v : Vocabulary) (operand : Operand) : Rule Decl := do
  let start ← current
  let signature ← signature? v
  match (← current).kind with
  | .kwVar => varDecl operand start.place signature
  | .kwFun => fnDecl operand start.place signature
  | _ => refuse .noDeclaration

/-- What a block is made of. -/
def blockItem (v : Vocabulary) (operand : Operand) : Rule Stmt := fun s =>
  if v.declares s.kind then
    (declaration v operand s).map fun d => .decl (site d.place) d
  else statement operand s

/-- At most `n` items and the closing brace; the flag tells whether an item failed. -/
def itemsWithin (item : Rule Stmt) : Nat → Rule (List Stmt × Bool)
  | 0 => refuse (.unexpectedToken .closeCurly)
  | n + 1 => fun s =>
    match s.kind with
    | .closeCurly => .done ([], false) s.advance
    | .eof => refuse (.unexpectedToken .closeCurly) s
    | _ =>
      match item s with
      | .done st s => (itemsWithin item n s).map fun (sts, failed) => (st :: sts, failed)
      | .failed d s => (itemsWithin item n (s.report d).synchronize).map fun (sts, _) => (sts, true)

/-- The statements of a block and the place of its opening brace. Every item takes a token, so the
tokens left bound their number. -/
def block (v : Vocabulary) (operand : Operand) : Rule (List Stmt × Position) := do
  let brace ← expect .openCurly
  fun s =>
    match itemsWithin (blockItem v operand) s.tokens.length s.enterBlock with
    | .failed d s => .failed d s.exitBlock
    | .done (_, true) s => .failed ⟨.brokenBlock, brace.place⟩ s.exitBlock
    | .done (sts, false) s => .done (sts, brace.place) s.exitBlock

end FrontEnd.Rule
