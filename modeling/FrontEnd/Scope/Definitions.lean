import FrontEnd.Diagnostic
import FrontEnd.Syntax.Tree

/-! Checking that every name means a symbol where it is used. A variable is not yet there in its
own initial value. -/

namespace FrontEnd

open Text (quote)

/-- Checks an expression that is a name; `pending` are the variables whose initial values it is
part of. -/
def Expr.checkName (S : ScopeTree) (pending : List SymbolId) (e : Expr) : Except Diagnostic Unit :=
  match e.name? with
  | none => .ok ()
  | some t =>
    match e.scope with
    | none => .error ⟨.internal ("identifier " ++ quote t.text ++ " has no scope"), t.place⟩
    | some c =>
      match (S.lookup c t.text t.place).filter fun s => !pending.contains s with
      | none => .error ⟨.undefinedSymbol t.text, t.place⟩
      | some _ => .ok ()

/-- The symbol that a variable declaration makes, if its scope has it. -/
def Site.ownSymbol? (S : ScopeTree) (site : Site) (name : Token) : Option SymbolId :=
  site.scope.bind fun c => S.local? c name.text

mutual

def Expr.checkNames (S : ScopeTree) (pending : List SymbolId) (e : Expr) :
    Except Diagnostic Unit := do
  e.checkName S pending
  match e with
  | .leaf _ _ _ => pure ()
  | .binary _ _ _ l r =>
    l.checkNames S pending
    r.checkNames S pending
  | .unary _ _ e => e.checkNames S pending
  | .call _ callee args =>
    callee.checkNames S pending
    Expr.checkAllNames S pending args
  | .block _ body => Stmt.checkAllNames S pending body
  | .ifThen _ c t =>
    c.checkNames S pending
    t.checkNames S pending
  | .ifElse _ c t e =>
    c.checkNames S pending
    t.checkNames S pending
    e.checkNames S pending
  | .result _ _ v => v.checkNames S pending

def Expr.checkAllNames (S : ScopeTree) (pending : List SymbolId) (es : List Expr) :
    Except Diagnostic Unit := do
  match es with
  | [] => pure ()
  | e :: es =>
    e.checkNames S pending
    Expr.checkAllNames S pending es

def Stmt.checkNames (S : ScopeTree) (pending : List SymbolId) (s : Stmt) :
    Except Diagnostic Unit := do
  match s with
  | .expr _ e => e.checkNames S pending
  | .assign _ target value =>
    target.checkNames S pending
    value.checkNames S pending
  | .decl _ d => d.checkNames S pending

def Stmt.checkAllNames (S : ScopeTree) (pending : List SymbolId) (ss : List Stmt) :
    Except Diagnostic Unit := do
  match ss with
  | [] => pure ()
  | s :: ss =>
    s.checkNames S pending
    Stmt.checkAllNames S pending ss

def Decl.checkNames (S : ScopeTree) (pending : List SymbolId) (d : Decl) :
    Except Diagnostic Unit := do
  match d with
  | .var site name _ initial _ =>
    initial.checkNames S ((site.ownSymbol? S name).toList ++ pending)
  | .fn _ _ _ _ body => body.checkNames S pending

end

/-- Reports the first name that means nothing where it is used. -/
def Program.checkDefinitions (S : ScopeTree) (p : Program) : Except Diagnostic Unit :=
  p.decls.forM (Decl.checkNames S [])

end FrontEnd
