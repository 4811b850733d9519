import FrontEnd.Proofs.Grammar.Reading
import FrontEnd.Proofs.Scope.Growth

/-! Where the nodes of a program stand in its finished scopes: every node knows its scope, and a
scope has the names of the declarations that stand in it and no others. -/

namespace FrontEnd

def Stmt.declared : Stmt → List String
  | .decl _ d => [d.name.text]
  | _ => []

/-- A scope of a function or a block: its parent and the names it can have. -/
def ScopeTree.Inside (F : ScopeTree) (d c : ScopeId) (ns : List String) : Prop :=
  F.parent? d = some c ∧ ∀ n, n ∉ ns → F.local? d n = none

/-- The scope binds the name of the token to a symbol with these data. -/
def ScopeTree.Binds (F : ScopeTree) (c : ScopeId) (n : Token) (a : Symbol) : Prop :=
  ∃ s, F.local? c n.text = some s ∧ F.symbol? s = some a

/-- `Placed F T c g w a` says that the node stands in the scope `c` of the finished tree `F`, where
what is declared is global if `g` holds. Its tokens are among `w`, in order. -/
inductive Placed (F : ScopeTree) (T : TypeTable) : ScopeId → Bool → List Token → Node → Prop
  | among {c : ScopeId} {g : Bool} {w v : List Token} {a : Node} (h : w.Sublist v) :
      Placed F T c g w a → Placed F T c g v a
  | literal {c : ScopeId} {g : Bool} {site : ExprSite} {t : Token} (hs : site.scope = some c)
      (ht : t.kind ∈ TokenKind.literals) : Placed F T c g [t] (.expr (.leaf site .literal t))
  | binary {c : ScopeId} {g : Bool} {site : ExprSite} {form : BinaryForm} {k : Token}
      {w v : List Token} {l r : Expr} : Placed F T c g w (.expr l) → Placed F T c g v (.expr r) →
      Placed F T c g (w ++ v) (.expr (.binary site form k l r))
  | unary {c : ScopeId} {g : Bool} {site : ExprSite} {k : Token} {w : List Token} {e : Expr} :
      Placed F T c g w (.expr e) → Placed F T c g w (.expr (.unary site k e))
  | call {c : ScopeId} {g : Bool} {site : ExprSite} {w v : List Token} {f : Expr}
      {as : List Expr} : Placed F T c g w (.expr f) → Placed F T c g v (.exprs as) →
      Placed F T c g (w ++ v) (.expr (.call site f as))
  | block {c d : ScopeId} {g : Bool} {site : ExprSite} {w : List Token} {ss : List Stmt}
      (hd : F.Inside d c (ss.flatMap Stmt.declared)) : Placed F T d g w (.stmts ss) →
      Placed F T c g w (.expr (.block site ss))
  | ifThen {c : ScopeId} {g : Bool} {site : ExprSite} {w v : List Token} {a b : Expr} :
      Placed F T c g w (.expr a) → Placed F T c g v (.expr b) →
      Placed F T c g (w ++ v) (.expr (.ifThen site a b))
  | ifElse {c : ScopeId} {g : Bool} {site : ExprSite} {w v u : List Token} {a b e : Expr} :
      Placed F T c g w (.expr a) → Placed F T c g v (.expr b) → Placed F T c g u (.expr e) →
      Placed F T c g (w ++ (v ++ u)) (.expr (.ifElse site a b e))
  | result {c : ScopeId} {g : Bool} {site : ExprSite} {form : ResultForm} {w : List Token}
      {e : Expr} : Placed F T c g w (.expr e) → Placed F T c g w (.expr (.result site form e))
  | noExpr {c : ScopeId} {g : Bool} : Placed F T c g [] (.exprs [])
  | moreExprs {c : ScopeId} {g : Bool} {w v : List Token} {e : Expr} {es : List Expr} :
      Placed F T c g w (.expr e) → Placed F T c g v (.exprs es) →
      Placed F T c g (w ++ v) (.exprs (e :: es))
  | evaluated {c : ScopeId} {g : Bool} {site : Site} {w : List Token} {e : Expr} :
      Placed F T c g w (.expr e) → Placed F T c g w (.stmt (.expr site e))
  | assigned {c : ScopeId} {g : Bool} {site : Site} {w v : List Token} {l e : Expr}
      (hl : l.name?.isSome) : Placed F T c g w (.expr l) → Placed F T c g v (.expr e) →
      Placed F T c g (w ++ v) (.stmt (.assign site l e))
  | declared {c : ScopeId} {g : Bool} {site : Site} {w : List Token} {d : Decl} :
      Placed F T c g w (.decl d) → Placed F T c g w (.stmt (.decl site d))
  | noStmt {c : ScopeId} {g : Bool} : Placed F T c g [] (.stmts [])
  | moreStmts {c : ScopeId} {g : Bool} {w v : List Token} {s : Stmt} {ss : List Stmt} :
      Placed F T c g w (.stmt s) → Placed F T c g v (.stmts ss) →
      Placed F T c g (w ++ v) (.stmts (s :: ss))
  | var {c : ScopeId} {g : Bool} {site : Site} {n f : Token} {t : Option TypeId} {w : List Token}
      {e : Expr} (hs : site.scope = some c)
      (hn : F.Binds c n ⟨.var, n.text, n.place, f.place, g, t⟩) : Placed F T c g w (.expr e) →
      Placed F T c g (n :: (w ++ [f])) (.decl (.var site n t e f.place))
  | fn {c d : ScopeId} {g : Bool} {site : Site} {n : Token} {t : Option TypeId}
      {ps w : List Token} {e : Expr} (hn : F.Binds c n ⟨.fn, n.text, n.place, n.place, g, t⟩)
      (ht : T.Fits t ps.length) (hd : F.Inside d c (ps.map Token.text))
      (hps : ∀ p ∈ ps, ∃ u, F.Binds d p ⟨.var, p.text, p.place, p.place, false, u⟩) :
      Placed F T d false w (.expr e) →
      Placed F T c g (n :: (ps ++ w)) (.decl (.fn site n t ps e))
  | noDecl {c : ScopeId} {g : Bool} : Placed F T c g [] (.decls [])
  | moreDecls {c : ScopeId} {g : Bool} {w v : List Token} {d : Decl} {ds : List Decl} :
      Placed F T c g w (.decl d) → Placed F T c g v (.decls ds) →
      Placed F T c g (w ++ v) (.decls (d :: ds))

end FrontEnd
