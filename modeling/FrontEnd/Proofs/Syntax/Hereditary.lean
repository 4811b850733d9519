import FrontEnd.Proofs.Grammar.Reading

/-! Induction on syntax trees: a property that a node has whenever its parts have it holds of all
expressions, statements and declarations. -/

namespace FrontEnd

/-- A node has the property if its parts have it. -/
structure Node.Hereditary (P : Node → Prop) : Prop where
  leaf {site : ExprSite} {form : LeafForm} {k : Token} : P (.expr (.leaf site form k))
  binary {site : ExprSite} {form : BinaryForm} {k : Token} {a b : Expr} :
    P (.expr a) → P (.expr b) → P (.expr (.binary site form k a b))
  unary {site : ExprSite} {k : Token} {a : Expr} : P (.expr a) → P (.expr (.unary site k a))
  call {site : ExprSite} {f : Expr} {as : List Expr} :
    P (.expr f) → P (.exprs as) → P (.expr (.call site f as))
  block {site : ExprSite} {ss : List Stmt} : P (.stmts ss) → P (.expr (.block site ss))
  ifThen {site : ExprSite} {c a : Expr} :
    P (.expr c) → P (.expr a) → P (.expr (.ifThen site c a))
  ifElse {site : ExprSite} {c a b : Expr} :
    P (.expr c) → P (.expr a) → P (.expr b) → P (.expr (.ifElse site c a b))
  result {site : ExprSite} {form : ResultForm} {a : Expr} :
    P (.expr a) → P (.expr (.result site form a))
  noExpr : P (.exprs [])
  moreExprs {e : Expr} {es : List Expr} : P (.expr e) → P (.exprs es) → P (.exprs (e :: es))
  evaluated {site : Site} {e : Expr} : P (.expr e) → P (.stmt (.expr site e))
  assigned {site : Site} {l e : Expr} : P (.expr l) → P (.expr e) → P (.stmt (.assign site l e))
  declared {site : Site} {d : Decl} : P (.decl d) → P (.stmt (.decl site d))
  noStmt : P (.stmts [])
  moreStmts {s : Stmt} {ss : List Stmt} : P (.stmt s) → P (.stmts ss) → P (.stmts (s :: ss))
  var {site : Site} {n : Token} {g : Option TypeId} {e : Expr} {p : Position} :
    P (.expr e) → P (.decl (.var site n g e p))
  fn {site : Site} {n : Token} {g : Option TypeId} {ps : List Token} {e : Expr} :
    P (.expr e) → P (.decl (.fn site n g ps e))

namespace Node.Hereditary

variable {P : Node → Prop}

mutual

theorem expr (h : Hereditary P) : ∀ e, P (.expr e)
  | .leaf _ _ _ => h.leaf
  | .binary _ _ _ a b => h.binary (h.expr a) (h.expr b)
  | .unary _ _ a => h.unary (h.expr a)
  | .call _ f as => h.call (h.expr f) (h.exprs as)
  | .block _ ss => h.block (h.stmts ss)
  | .ifThen _ c a => h.ifThen (h.expr c) (h.expr a)
  | .ifElse _ c a b => h.ifElse (h.expr c) (h.expr a) (h.expr b)
  | .result _ _ a => h.result (h.expr a)

theorem exprs (h : Hereditary P) : ∀ es, P (.exprs es)
  | [] => h.noExpr
  | e :: es => h.moreExprs (h.expr e) (h.exprs es)

theorem stmt (h : Hereditary P) : ∀ s, P (.stmt s)
  | .expr _ e => h.evaluated (h.expr e)
  | .assign _ l e => h.assigned (h.expr l) (h.expr e)
  | .decl _ d => h.declared (h.decl d)

theorem stmts (h : Hereditary P) : ∀ ss, P (.stmts ss)
  | [] => h.noStmt
  | s :: ss => h.moreStmts (h.stmt s) (h.stmts ss)

theorem decl (h : Hereditary P) : ∀ d, P (.decl d)
  | .var _ _ _ e _ => h.var (h.expr e)
  | .fn _ _ _ _ e => h.fn (h.expr e)

end

end Node.Hereditary

end FrontEnd
