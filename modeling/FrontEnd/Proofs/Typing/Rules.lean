import FrontEnd.Proofs.Scope.Lookup
import FrontEnd.Typing

/-! The typing rules, apart from any order in which types are found. Types that are structurally
equal can stand for one another everywhere. -/

namespace FrontEnd

/-- The types of the variables without a signature, the latest first. -/
abbrev Inferred := List (SymbolId × TypeId)

namespace ScopeTree

/-- A symbol has its declared type; without one it has the type inferred for it. -/
def HasType (S : ScopeTree) (Γ : Inferred) (s : SymbolId) (t : TypeId) : Prop :=
  ∃ d, S.symbol? s = some d ∧ (d.signature = some t ∨ d.signature = none ∧ Γ.lookup s = some t)

end ScopeTree

/-- What can be well typed. A statement has a type as the last one of a block. -/
inductive Judgement where
  | expr (e : Expr) (t : TypeId)
  | exprs (es : List Expr) (ts : List TypeId)
  | stmt (s : Stmt) (t : TypeId)
  | stmts (ss : List Stmt) (t : TypeId)
  | decl (d : Decl)
  | decls (ds : List Decl)

open TypeTable in
/-- `Typed S T fn Γ j Δ` says that `j` holds inside a function with the signature `fn`. What is
inferred before is `Γ`, what is inferred behind is `Δ`. -/
inductive Typed (S : ScopeTree) (T : TypeTable) :
    Option TypeId → Inferred → Judgement → Inferred → Prop
  | equal {fn : Option TypeId} {Γ Δ : Inferred} {e : Expr} {t u : TypeId}
      (h : T.same t u = true) : Typed S T fn Γ (.expr e t) Δ → Typed S T fn Γ (.expr e u) Δ
  | number {fn : Option TypeId} {Γ : Inferred} {site : ExprSite} {form : LeafForm} {k : Token}
      (hk : k.kind = .number) : Typed S T fn Γ (.expr (.leaf site form k) int) Γ
  | string {fn : Option TypeId} {Γ : Inferred} {site : ExprSite} {form : LeafForm} {k : Token}
      (hk : k.kind = .string) : Typed S T fn Γ (.expr (.leaf site form k) string) Γ
  | truth {fn : Option TypeId} {Γ : Inferred} {site : ExprSite} {form : LeafForm} {k : Token}
      (hk : k.kind = .kwTrue ∨ k.kind = .kwFalse) :
      Typed S T fn Γ (.expr (.leaf site form k) bool) Γ
  | name {fn : Option TypeId} {Γ : Inferred} {site : ExprSite} {form : LeafForm} {k : Token}
      {s : SymbolId} {t : TypeId} (hk : k.kind = .identifier) (hs : S.Names site.toSite k s)
      (ht : S.HasType Γ s t) : Typed S T fn Γ (.expr (.leaf site form k) t) Γ
  | comparison {fn : Option TypeId} {Γ Δ Ε : Inferred} {site : ExprSite} {k : Token} {l r : Expr} :
      Typed S T fn Γ (.expr l int) Δ → Typed S T fn Δ (.expr r int) Ε →
      Typed S T fn Γ (.expr (.binary site .comparison k l r) bool) Ε
  | arithmetic {fn : Option TypeId} {Γ Δ Ε : Inferred} {site : ExprSite} {k : Token} {l r : Expr} :
      Typed S T fn Γ (.expr l int) Δ → Typed S T fn Δ (.expr r int) Ε →
      Typed S T fn Γ (.expr (.binary site .arithmetic k l r) int) Ε
  | unary {fn : Option TypeId} {Γ Δ : Inferred} {site : ExprSite} {k : Token} {e : Expr} :
      Typed S T fn Γ (.expr e int) Δ → Typed S T fn Γ (.expr (.unary site k e) int) Δ
  | call {fn : Option TypeId} {Γ Δ Ε : Inferred} {site : ExprSite} {f : Expr} {as : List Expr}
      {g r : TypeId} {ts : List TypeId} (hg : T.function? g = some (ts, r)) :
      Typed S T fn Γ (.expr f g) Δ → Typed S T fn Δ (.exprs as ts) Ε →
      Typed S T fn Γ (.expr (.call site f as) r) Ε
  | block {fn : Option TypeId} {Γ Δ : Inferred} {site : ExprSite} {ss : List Stmt} {t : TypeId} :
      Typed S T fn Γ (.stmts ss t) Δ → Typed S T fn Γ (.expr (.block site ss) t) Δ
  | ifThen {fn : Option TypeId} {Γ Δ Ε : Inferred} {site : ExprSite} {c e : Expr} {t : TypeId} :
      Typed S T fn Γ (.expr c bool) Δ → Typed S T fn Δ (.expr e t) Ε →
      Typed S T fn Γ (.expr (.ifThen site c e) unit) Ε
  | ifElse {fn : Option TypeId} {Γ Δ Ε Ζ : Inferred} {site : ExprSite} {c a b : Expr}
      {t : TypeId} : Typed S T fn Γ (.expr c bool) Δ → Typed S T fn Δ (.expr a t) Ε →
      Typed S T fn Ε (.expr b t) Ζ → Typed S T fn Γ (.expr (.ifElse site c a b) t) Ζ
  | returned {g r : TypeId} {ts : List TypeId} {Γ Δ : Inferred} {site : ExprSite} {e : Expr}
      (hg : T.function? g = some (ts, r)) : Typed S T (some g) Γ (.expr e r) Δ →
      Typed S T (some g) Γ (.expr (.result site .fromFunction e) r) Δ
  | yielded {fn : Option TypeId} {Γ Δ : Inferred} {site : ExprSite} {e : Expr} {t : TypeId} :
      Typed S T fn Γ (.expr e t) Δ → Typed S T fn Γ (.expr (.result site .fromBlock e) t) Δ
  | noExpr {fn : Option TypeId} {Γ : Inferred} : Typed S T fn Γ (.exprs [] []) Γ
  | moreExprs {fn : Option TypeId} {Γ Δ Ε : Inferred} {e : Expr} {es : List Expr} {t : TypeId}
      {ts : List TypeId} : Typed S T fn Γ (.expr e t) Δ → Typed S T fn Δ (.exprs es ts) Ε →
      Typed S T fn Γ (.exprs (e :: es) (t :: ts)) Ε
  | evaluated {fn : Option TypeId} {Γ Δ : Inferred} {site : Site} {e : Expr} {t : TypeId} :
      Typed S T fn Γ (.expr e t) Δ → Typed S T fn Γ (.stmt (.expr site e) t) Δ
  | assigned {fn : Option TypeId} {Γ Δ Ε : Inferred} {site : Site} {l e : Expr} {k : Token}
      {s : SymbolId} {t u : TypeId} (hk : l.name? = some k) (hs : S.Names l.site.toSite k s)
      (hvar : (S.symbol? s).map Symbol.kind = some .var) (ht : S.HasType Ε s t) :
      Typed S T fn Γ (.expr l u) Δ → Typed S T fn Δ (.expr e t) Ε →
      Typed S T fn Γ (.stmt (.assign site l e) unit) Ε
  | declared {fn : Option TypeId} {Γ Δ : Inferred} {site : Site} {d : Decl} :
      Typed S T fn Γ (.decl d) Δ → Typed S T fn Γ (.stmt (.decl site d) unit) Δ
  | noStmt {fn : Option TypeId} {Γ : Inferred} : Typed S T fn Γ (.stmts [] unit) Γ
  | lastStmt {fn : Option TypeId} {Γ Δ : Inferred} {s : Stmt} {t : TypeId} :
      Typed S T fn Γ (.stmt s t) Δ → Typed S T fn Γ (.stmts [s] t) Δ
  | moreStmts {fn : Option TypeId} {Γ Δ Ε : Inferred} {s s' : Stmt} {ss : List Stmt}
      {t u : TypeId} : Typed S T fn Γ (.stmt s u) Δ → Typed S T fn Δ (.stmts (s' :: ss) t) Ε →
      Typed S T fn Γ (.stmts (s :: s' :: ss) t) Ε
  | signedVar {fn : Option TypeId} {Γ Δ : Inferred} {site : Site} {n : Token} {g : TypeId}
      {e : Expr} {p : Position} : Typed S T fn Γ (.expr e g) Δ →
      Typed S T fn Γ (.decl (.var site n (some g) e p)) Δ
  | unsignedVar {fn : Option TypeId} {Γ Δ : Inferred} {site : Site} {n : Token} {e : Expr}
      {p : Position} {s : SymbolId} {t : TypeId} (hs : site.ownSymbol? S n = some s) :
      Typed S T fn Γ (.expr e t) Δ →
      Typed S T fn Γ (.decl (.var site n none e p)) ((s, t) :: Δ)
  | fn {fn : Option TypeId} {Γ Δ : Inferred} {site : Site} {n : Token} {g t : TypeId}
      {ps : List Token} {e : Expr} : Typed S T (some g) Γ (.expr e t) Δ →
      Typed S T fn Γ (.decl (.fn site n (some g) ps e)) Δ
  | noDecl {fn : Option TypeId} {Γ : Inferred} : Typed S T fn Γ (.decls []) Γ
  | moreDecls {fn : Option TypeId} {Γ Δ Ε : Inferred} {d : Decl} {ds : List Decl} :
      Typed S T fn Γ (.decl d) Δ → Typed S T fn Δ (.decls ds) Ε →
      Typed S T fn Γ (.decls (d :: ds)) Ε

end FrontEnd
