import FrontEnd.Scope.Tree
import FrontEnd.Token

/-! The syntax tree of a program: declarations, statements and expressions. A node knows its place;
the scope it lives in and, for an expression, its type are filled in later. -/

namespace FrontEnd

/-- What every node carries. -/
structure Site where
  place : Position
  scope : Option ScopeId := none
deriving DecidableEq, Repr, Inhabited

/-- What an expression carries besides. -/
structure ExprSite extends Site where
  type : Option TypeId := none
deriving DecidableEq, Repr, Inhabited

inductive LeafForm where
  | literal | access
deriving DecidableEq, Repr, Inhabited

inductive BinaryForm where
  | comparison | arithmetic
deriving DecidableEq, Repr, Inhabited

/-- A value is handed out of a function or out of a block. -/
inductive ResultForm where
  | fromFunction | fromBlock
deriving DecidableEq, Repr, Inhabited

mutual

/-- A leaf is a number, a string, a truth value or a name. -/
inductive Expr where
  | leaf (site : ExprSite) (form : LeafForm) (token : Token)
  | binary (site : ExprSite) (form : BinaryForm) (operator : Token) (lhs rhs : Expr)
  | unary (site : ExprSite) (operator : Token) (operand : Expr)
  | call (site : ExprSite) (callee : Expr) (arguments : List Expr)
  | block (site : ExprSite) (body : List Stmt)
  | ifThen (site : ExprSite) (condition thenBranch : Expr)
  | ifElse (site : ExprSite) (condition thenBranch elseBranch : Expr)
  | result (site : ExprSite) (form : ResultForm) (value : Expr)

inductive Stmt where
  | expr (site : Site) (e : Expr)
  | assign (site : Site) (target value : Expr)
  | decl (site : Site) (d : Decl)

/-- A variable ends at the semicolon behind its initial value. -/
inductive Decl where
  | var (site : Site) (name : Token) (signature : Option TypeId) (initial : Expr)
      (finish : Position)
  | fn (site : Site) (name : Token) (signature : Option TypeId) (params : List Token)
      (body : Expr)

end

deriving instance Repr for Expr, Stmt, Decl

structure Program where
  decls : List Decl
  scope : Option ScopeId := none

namespace Expr

instance : Inhabited Expr := ⟨.leaf default .literal default⟩

def site : Expr → ExprSite
  | leaf s _ _ => s
  | binary s _ _ _ _ => s
  | unary s _ _ => s
  | call s _ _ => s
  | block s _ => s
  | ifThen s _ _ => s
  | ifElse s _ _ _ => s
  | result s _ _ => s

def place (e : Expr) : Position := e.site.place

def scope (e : Expr) : Option ScopeId := e.site.scope

def type (e : Expr) : Option TypeId := e.site.type

def mapSite (f : ExprSite → ExprSite) : Expr → Expr
  | leaf s form t => leaf (f s) form t
  | binary s form op l r => binary (f s) form op l r
  | unary s op e => unary (f s) op e
  | call s callee args => call (f s) callee args
  | block s body => block (f s) body
  | ifThen s c t => ifThen (f s) c t
  | ifElse s c t e => ifElse (f s) c t e
  | result s form v => result (f s) form v

@[simp] theorem site_mapSite (f : ExprSite → ExprSite) (e : Expr) :
    (e.mapSite f).site = f e.site := by cases e <;> rfl

/-- The token of an expression that names a symbol. -/
def name? : Expr → Option Token
  | leaf _ .literal t => if t.kind = .identifier then some t else none
  | leaf _ .access t => some t
  | _ => none

end Expr

namespace Stmt

instance : Inhabited Stmt := ⟨.expr default default⟩

def site : Stmt → Site
  | expr s _ => s
  | assign s _ _ => s
  | decl s _ => s

end Stmt

namespace Decl

instance : Inhabited Decl := ⟨.var default default none default default⟩

def site : Decl → Site
  | var s _ _ _ _ => s
  | fn s _ _ _ _ => s

def name : Decl → Token
  | var _ n _ _ _ => n
  | fn _ n _ _ _ => n

def signature : Decl → Option TypeId
  | var _ _ s _ _ => s
  | fn _ _ s _ _ => s

def place (d : Decl) : Position := d.site.place

end Decl

end FrontEnd
