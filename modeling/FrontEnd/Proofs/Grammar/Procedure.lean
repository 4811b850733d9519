import FrontEnd.Grammar.Program

/-! The grammar as a system of procedures that call one another, with no bound on how deep they are
nested or how long they go on: a loop is a procedure that calls itself again. -/

namespace FrontEnd

/-- What is read by a procedure of its own, by the type of what it reads. -/
inductive Procedure : Type → Type 1
  | name : Procedure Token
  | list {α : Type} (item : Procedure α) : Procedure (List α)
  | type : Procedure TypeId
  | typeOf (form : TypeForm) : Procedure TypeId
  | expr (bp : BindingPower) : Procedure Expr
  | lead (form : LeadForm) : Procedure Expr
  | tails (bp : BindingPower) (left : Expr) : Procedure Expr
  | tail (form : TailForm) (bp : BindingPower) (left : Expr) : Procedure Expr
  | block : Procedure (List Stmt × Position)
  | items : Procedure (List Stmt × Bool)
  | statement : Procedure Stmt
  | declaration : Procedure Decl
  | varDecl (p : Position) (signature : Option TypeId) : Procedure Decl
  | fnDecl (p : Position) (signature : Option TypeId) : Procedure Decl

/-- Procedures that differ only in their arguments have one name. -/
inductive ProcedureName where
  | name | list (item : ProcedureName) | type | typeOf (form : TypeForm) | expr
  | lead (form : LeadForm) | tails | tail (form : TailForm) | block | items | statement
  | declaration | varDecl | fnDecl
deriving DecidableEq, Repr

def Procedure.called {α : Type} : Procedure α → ProcedureName
  | name => .name
  | list item => .list item.called
  | type => .type
  | typeOf form => .typeOf form
  | expr _ => .expr
  | lead form => .lead form
  | tails _ _ => .tails
  | tail form _ _ => .tail form
  | block => .block
  | items => .items
  | statement => .statement
  | declaration => .declaration
  | varDecl _ _ => .varDecl
  | fnDecl _ _ => .fnDecl

/-- A rule for each procedure. -/
abbrev Rules := (α : Type) → Procedure α → Rule α

namespace Rule

/-! The parts of the rules, given the rules for what they call. -/

def listBefore {α : Type} (close : TokenKind) (items : Rule (List α)) : Rule (List α) := fun s =>
  if s.kind = close then .done [] s else items s

def functionTypeOf (arguments : Rule (List TypeId)) (part : Rule TypeId) : Rule TypeId := do
  let _ ← expect .openBracket
  let arguments ← listBefore .closeBracket arguments
  let _ ← expect .closeBracket
  let _ ← expect .arrow
  let result ← part
  enterType (.function arguments result)

def callOf (arguments : Rule (List Expr)) (callee : Expr) : Rule Expr := do
  let _ ← expect .openParen
  let arguments ← listBefore .closeParen arguments
  let _ ← expect .closeParen
  return .call (exprSite callee.place) callee arguments

def fnDeclOf (params : Rule (List Token)) (body : Rule Expr) (p : Position)
    (signature : Option TypeId) : Rule Decl := do
  let _ ← expect .kwFun
  let name ← expect .identifier
  let _ ← expect .openParen
  let params ← listBefore .closeParen params
  let _ ← expect .closeParen
  fitSignature name params signature
  let _ ← expect .assign
  let body ← body
  let _ ← expect .semicolon
  return .fn (site p) name signature params body

def signatureOf (type : Rule TypeId) : Rule (Option TypeId) := do
  if ← advanceIf .kwOf then return some (← type) else return none

def declarationOf (type : Rule TypeId) (varDecl fnDecl : Position → Option TypeId → Rule Decl) :
    Rule Decl := do
  let start ← current
  let signature ← signatureOf type
  match (← current).kind with
  | .kwVar => varDecl start.place signature
  | .kwFun => fnDecl start.place signature
  | _ => refuse .noDeclaration

def itemOf (v : Vocabulary) (declaration : Rule Decl) (statement : Rule Stmt) : Rule Stmt :=
  fun s =>
    if v.declares s.kind then (declaration s).map fun d => .decl (site d.place) d
    else statement s

/-- What a round of a loop leaves behind: a failure is reported and skipped. -/
def round {α : Type} (r : Rule α) (s : ParserState) : ParserState :=
  match r s with
  | .done _ t => t
  | .failed d t => (t.report d).synchronize

/-- Items up to the closing brace; each time round the rest is left to `more`. -/
def itemsFrom (item : Rule Stmt) (more : Rule (List Stmt × Bool)) : Rule (List Stmt × Bool) :=
  fun s =>
    match s.kind with
    | .closeCurly => .done ([], false) s.advance
    | .eof => refuse (.unexpectedToken .closeCurly) s
    | _ =>
      match item s with
      | .done st s => (more s).map fun (sts, failed) => (st :: sts, failed)
      | .failed d s => (more (s.report d).synchronize).map fun (sts, _) => (sts, true)

def blockOf (items : Rule (List Stmt × Bool)) : Rule (List Stmt × Position) := do
  let brace ← expect .openCurly
  fun s =>
    match items s.enterBlock with
    | .failed d s => .failed d s.exitBlock
    | .done (_, true) s => .failed ⟨.brokenBlock, brace.place⟩ s.exitBlock
    | .done (sts, false) s => .done (sts, brace.place) s.exitBlock

def list {α : Type} (item : Rule α) : Rule (List α) := fun s =>
  commaSeparated item s.tokens.length s

def itemsToEnd (item : Rule Stmt) : Rule (List Stmt × Bool) := fun s =>
  itemsWithin item s.tokens.length s

def listOf {α : Type} (item : Rule α) (more : Rule (List α)) : Rule (List α) := do
  let x ← item
  if ← advanceIf .comma then
    let xs ← more
    return x :: xs
  else return [x]

/-- Operators that bind tighter than `bp`; behind each of them the rest is left to `more`. -/
def tailsOf (v : Vocabulary) (tail : TailForm → BindingPower → Rule Expr) (more : Expr → Rule Expr)
    (bp : BindingPower) (left : Expr) : Rule Expr := fun s =>
  match v.tail? s.kind with
  | some (next, form) => if bp < next then (tail form next >>= more) s else .done left s
  | none => .done left s

def exprOf (v : Vocabulary) (lead : LeadForm → Rule Expr) (tails : Expr → Rule Expr) : Rule Expr :=
  fun s =>
    match v.lead? s.kind with
    | some form => (lead form >>= tails) s
    | none => refuse .noExpression s

def typeFrom (v : Vocabulary) (typeOf : TypeForm → Rule TypeId) : Rule TypeId := fun s =>
  match v.typeForm? s.kind with
  | some form => typeOf form s
  | none => refuse .noType s

end Rule

namespace Procedure

variable {α : Type}

open Rule

/-- What a procedure does when it is called: the calls that it makes are answered by `R`. -/
def body (v : Vocabulary) (R : Rules) : {α : Type} → Procedure α → Rule α
  | _, name => expect .identifier
  | _, list item => listOf (R _ item) (R _ (list item))
  | _, type => typeFrom v fun form => R _ (typeOf form)
  | _, typeOf .primitive => primitiveType
  | _, typeOf .pointer => pointerType (R _ type)
  | _, typeOf .function => functionTypeOf (R _ (list type)) (R _ type)
  | _, expr bp => exprOf v (fun form => R _ (lead form)) fun left => R _ (tails bp left)
  | _, lead .primary => primary
  | _, lead .prefixed => prefixed fun bp => R _ (expr bp)
  | _, lead .grouping => grouping fun bp => R _ (expr bp)
  | _, lead .block => do let (body, p) ← R _ block; return .block (exprSite p) body
  | _, lead .conditional => conditional fun bp => R _ (expr bp)
  | _, lead .returned => returned fun bp => R _ (expr bp)
  | _, lead .yielded => yielded fun bp => R _ (expr bp)
  | _, tails bp left =>
    tailsOf v (fun form next => R _ (tail form next left)) (fun e => R _ (tails bp e)) bp left
  | _, tail .comparison bp left => binaryTail (fun bp => R _ (expr bp)) .comparison left bp
  | _, tail .arithmetic bp left => binaryTail (fun bp => R _ (expr bp)) .arithmetic left bp
  | _, tail .call _ callee => callOf (R _ (list (expr .lowest))) callee
  | _, block => blockOf (R _ items)
  | _, items => itemsFrom (itemOf v (R _ declaration) (R _ statement)) (R _ items)
  | _, statement => Rule.statement fun bp => R _ (expr bp)
  | _, declaration =>
    declarationOf (R _ type) (fun p g => R _ (varDecl p g)) fun p g => R _ (fnDecl p g)
  | _, varDecl p g => Rule.varDecl (fun bp => R _ (expr bp)) p g
  | _, fnDecl p g => fnDeclOf (R _ (list name)) (R _ (expr .lowest)) p g

end Procedure

/-- The rule of each procedure, as the grammar has it. -/
def Vocabulary.rules (v : Vocabulary) : Rules
  | _, .name => Rule.expect .identifier
  | _, .list item => Rule.list (v.rules _ item)
  | _, .type => Rule.type v
  | _, .typeOf form => Rule.typeOfForm (Rule.type v) form
  | _, .expr bp => Rule.expr v bp
  | _, .lead form => Rule.exprOfLead v (Rule.expr v) form
  | _, .tails bp left => Rule.tails v (Rule.expr v) bp left
  | _, .tail form bp left => Rule.exprOfTail (Rule.expr v) left bp form
  | _, .block => Rule.block v (Rule.expr v)
  | _, .items => Rule.itemsToEnd (Rule.blockItem v (Rule.expr v))
  | _, .statement => Rule.statement (Rule.expr v)
  | _, .declaration => Rule.declaration v (Rule.expr v)
  | _, .varDecl p g => Rule.varDecl (Rule.expr v) p g
  | _, .fnDecl p g => Rule.fnDecl (Rule.expr v) p g

end FrontEnd
