import FrontEnd.Proofs.Scope.Likeness
import FrontEnd.Proofs.Syntax.Hereditary

/-! Stamping declares symbols and opens scopes and does nothing else to the run, so what both of
these keep is kept by every run. In particular a run is stopped by a name that is bound twice and by
nothing else. -/

namespace FrontEnd

variable {P : Stamping → Prop}

/-- The property survives the two things that a run does. -/
structure Stamping.Stable (P : Stamping → Prop) : Prop where
  declare {r : Stamping} (c : ScopeId) (a : Symbol) : P r → P (r.declare c a)
  openScope {r : Stamping} (p : Position) (c : ScopeId) : P r → P (r.openScope p c).2

theorem Stamping.Stable.declareParams (hP : Stable P) {r : Stamping} (c : ScopeId)
    (ps : List Token) (ts : List TypeId) (hr : P r) : P (Stamping.declareParams c ps ts r) := by
  induction ps generalizing r ts with
  | nil => exact hr
  | cons p ps ih => exact ih _ (hP.declare c _ hr)

namespace Node

def Upholds (P : Stamping → Prop) (a : Node) : Prop :=
  ∀ T c g ⦃r⦄, P r → P (a.stamp T c g r).2

theorem Upholds.of_running {a : Node}
    (h : ∀ T c g r, r.failure = none → P r → P (a.stamp T c g r).2) : a.Upholds P := by
  intro T c g r hr
  cases hfail : r.failure with
  | none => exact h T c g r hfail hr
  | some d =>
    rw [stamp_of_stopped hfail]
    exact hr

theorem hereditary_upholds (hP : Stamping.Stable P) : Hereditary (Upholds P) where
  leaf := .of_running fun T c g r hnone hr => by
    simp only [Node.stamp, Expr.stamp_leaf hnone]
    exact hr
  binary iha ihb := .of_running fun T c g r hnone hr => by
    simp only [Node.stamp, Expr.stamp_binary hnone]
    exact ihb T c g (iha T c g hr)
  unary iha := .of_running fun T c g r hnone hr => by
    simp only [Node.stamp, Expr.stamp_unary hnone]
    exact iha T c g hr
  call ihf ihas := .of_running fun T c g r hnone hr => by
    simp only [Node.stamp, Expr.stamp_call hnone]
    exact ihas T c g (ihf T c g hr)
  block {site _} ih := .of_running fun T c g r hnone hr => by
    simp only [Node.stamp, Expr.stamp_block hnone]
    exact ih T _ g (hP.openScope site.place c hr)
  ifThen iha ihb := .of_running fun T c g r hnone hr => by
    simp only [Node.stamp, Expr.stamp_ifThen hnone]
    exact ihb T c g (iha T c g hr)
  ifElse iha ihb ihd := .of_running fun T c g r hnone hr => by
    simp only [Node.stamp, Expr.stamp_ifElse hnone]
    exact ihd T c g (ihb T c g (iha T c g hr))
  result iha := .of_running fun T c g r hnone hr => by
    simp only [Node.stamp, Expr.stamp_result hnone]
    exact iha T c g hr
  noExpr _ _ _ _ hr := hr
  moreExprs ihe ihes T c g r hr := ihes T c g (ihe T c g hr)
  evaluated ihe := .of_running fun T c g r hnone hr => by
    simp only [Node.stamp, Stmt.stamp_expr hnone]
    exact ihe T c g hr
  assigned ihl ihe := .of_running fun T c g r hnone hr => by
    simp only [Node.stamp, Stmt.stamp_assign hnone]
    exact ihe T c g (ihl T c g hr)
  declared ihd := .of_running fun T c g r hnone hr => by
    simp only [Node.stamp, Stmt.stamp_decl hnone]
    exact ihd T c g hr
  noStmt _ _ _ _ hr := hr
  moreStmts ihs ihss T c g r hr := ihss T c g (ihs T c g hr)
  var ihe := .of_running fun T c g r hnone hr => by
    simp only [Node.stamp, Decl.stamp_var hnone]
    exact hP.declare c _ (ihe T c g hr)
  fn {_ n t ps _} ihe := .of_running fun T c g r hnone hr => by
    have hdeclared := hP.declare c ⟨.fn, n.text, n.place, n.place, g, t⟩ hr
    cases hname : (r.declare c ⟨.fn, n.text, n.place, n.place, g, t⟩).failure with
    | some why =>
      simp only [Node.stamp, Decl.stamp_fn_of_clash hnone rfl hname]
      exact hdeclared
    | none =>
      simp only [Node.stamp, Decl.stamp_fn hnone rfl hname]
      exact ihe T _ false (hP.declareParams _ ps _ (hP.openScope n.place c hdeclared))

end Node

theorem Decl.upholds_stampAll (hP : Stamping.Stable P) (T : TypeTable) (c : ScopeId) (g : Bool)
    (ds : List Decl) {r : Stamping} (hr : P r) : P (stampAll T c g ds r).2 := by
  induction ds generalizing r with
  | nil => exact hr
  | cons d ds ih => exact ih ((Node.hereditary_upholds hP).decl d T c g hr)

/-- What survives the two things that a run does survives the run. -/
theorem Node.upholds (hP : Stamping.Stable P) (a : Node) : a.Upholds P := by
  cases a with
  | expr e => exact (hereditary_upholds hP).expr e
  | exprs es => exact (hereditary_upholds hP).exprs es
  | stmt s => exact (hereditary_upholds hP).stmt s
  | stmts ss => exact (hereditary_upholds hP).stmts ss
  | decl d => exact (hereditary_upholds hP).decl d
  | decls ds => exact fun T c g _ hr => Decl.upholds_stampAll hP T c g ds hr
  | _ => exact fun _ _ _ _ hr => hr

/-- The only thing that stops stamping is a name bound twice. -/
def Stamping.Redefines (r : Stamping) : Prop := ∀ d ∈ r.failure, ∃ n, d.fault = .redefinition n

theorem Stamping.stable_redefines : Stable Redefines where
  declare c a h := by
    unfold Stamping.declare
    split
    · exact h
    next hnone =>
      split
      · rw [hnone]
        exact fun d hd => nomatch hd
      · intro d hd
        obtain rfl := Option.some.inj hd
        exact ⟨a.name, rfl⟩
  openScope _ _ h := h

theorem Program.redefines_of_buildScopes (T : TypeTable) (p : Program) (S : ScopeTree) :
    (p.buildScopes T S).2.Redefines :=
  Decl.upholds_stampAll Stamping.stable_redefines T _ true p.decls fun _ hd => nomatch hd

end FrontEnd
