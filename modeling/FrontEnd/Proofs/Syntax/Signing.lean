import Mathlib
import FrontEnd.Proofs.Scope.Mirroring

/-! Programs in which a variable gets the signature that it was written without. -/

namespace FrontEnd

/-- A variable that stands at `q` without a signature gets the signature `t`. -/
def Site.sign (q : Position) (t : TypeId) (s : Site) (g : Option TypeId) : Option TypeId :=
  g.or (if s.place = q then some t else none)

mutual

def Expr.sign (q : Position) (t : TypeId) : Expr → Expr
  | .leaf s form k => .leaf s form k
  | .binary s form k l r => .binary s form k (l.sign q t) (r.sign q t)
  | .unary s k e => .unary s k (e.sign q t)
  | .call s f as => .call s (f.sign q t) (Expr.signAll q t as)
  | .block s body => .block s (Stmt.signAll q t body)
  | .ifThen s c a => .ifThen s (c.sign q t) (a.sign q t)
  | .ifElse s c a b => .ifElse s (c.sign q t) (a.sign q t) (b.sign q t)
  | .result s form e => .result s form (e.sign q t)

def Expr.signAll (q : Position) (t : TypeId) : List Expr → List Expr
  | [] => []
  | e :: es => e.sign q t :: Expr.signAll q t es

def Stmt.sign (q : Position) (t : TypeId) : Stmt → Stmt
  | .expr s e => .expr s (e.sign q t)
  | .assign s l e => .assign s (l.sign q t) (e.sign q t)
  | .decl s d => .decl s (d.sign q t)

def Stmt.signAll (q : Position) (t : TypeId) : List Stmt → List Stmt
  | [] => []
  | s :: ss => s.sign q t :: Stmt.signAll q t ss

def Decl.sign (q : Position) (t : TypeId) : Decl → Decl
  | .var s n g e p => .var s n (s.sign q t g) (e.sign q t) p
  | .fn s n g ps e => .fn s n g ps (e.sign q t)

end

/-- The program with the signature `t` for what stands at `q` without one. -/
def Program.sign (q : Position) (t : TypeId) (p : Program) : Program :=
  { p with decls := p.decls.map (Decl.sign q t) }

namespace Node

def sign (q : Position) (t : TypeId) : Node → Node
  | expr e => expr (e.sign q t)
  | exprs es => exprs (Expr.signAll q t es)
  | stmt s => stmt (s.sign q t)
  | stmts ss => stmts (Stmt.signAll q t ss)
  | decl d => decl (d.sign q t)
  | decls ds => decls (ds.map (Decl.sign q t))
  | a => a

end Node

section Sign

variable {q : Position} {t : TypeId}

theorem Site.sign_of_place {s : Site} (h : s.place = q) : s.sign q t none = some t := by
  simp [Site.sign, h]

theorem Site.sign_of_ne {s : Site} (h : s.place ≠ q) (g : Option TypeId) : s.sign q t g = g := by
  simp [Site.sign, h]

@[simp] theorem Expr.site_sign (e : Expr) : (e.sign q t).site = e.site := by cases e <;> rfl

@[simp] theorem Expr.place_sign (e : Expr) : (e.sign q t).place = e.place :=
  congrArg (fun s : ExprSite => s.place) e.site_sign

@[simp] theorem Expr.scope_sign (e : Expr) : (e.sign q t).scope = e.scope :=
  congrArg (fun s : ExprSite => s.scope) e.site_sign

@[simp] theorem Expr.type_sign (e : Expr) : (e.sign q t).type = e.type :=
  congrArg ExprSite.type e.site_sign

@[simp] theorem Expr.name?_sign (e : Expr) : (e.sign q t).name? = e.name? := by cases e <;> rfl

@[simp] theorem Expr.sign_mapSite (e : Expr) (f : ExprSite → ExprSite) :
    (e.mapSite f).sign q t = (e.sign q t).mapSite f := by cases e <;> rfl

@[simp] theorem Decl.place_sign (d : Decl) : (d.sign q t).place = d.place := by cases d <;> rfl

end Sign

end FrontEnd
