import FrontEnd.Compilation
import FrontEnd.Proofs.Compilation.Sane
import FrontEnd.Proofs.Grammar.Soundness
import FrontEnd.Proofs.Scope.Redefinition
import FrontEnd.Proofs.Scope.Stamped
import FrontEnd.Proofs.Typing.Soundness
import Mathlib

/-! What one stage takes for granted the stages before it have seen to, so that no text makes a
stage report that something is missing. -/

namespace FrontEnd

/-- Looking up the names in the node fails only with what has the property `Q`. -/
def Node.NamesFail (Q : Diagnostic → Prop) (F : ScopeTree) : Node → Prop
  | .expr e => ∀ P, FailsOnly Q (e.checkNames F P)
  | .exprs es => ∀ P, FailsOnly Q (Expr.checkAllNames F P es)
  | .stmt s => ∀ P, FailsOnly Q (s.checkNames F P)
  | .stmts ss => ∀ P, FailsOnly Q (Stmt.checkAllNames F P ss)
  | .decl d => ∀ P, FailsOnly Q (d.checkNames F P)
  | .decls ds => ∀ P, FailsOnly Q (ds.forM (Decl.checkNames F P))
  | _ => True

theorem Placed.namesFail {Q : Diagnostic → Prop}
    (hQ : ∀ d n, d.fault = .undefinedSymbol n → Q d) {F : ScopeTree} {T : TypeTable} {c : ScopeId}
    {g : Bool} {w : List Token} {a : Node} (h : Placed F T c g w a) : a.NamesFail Q F := by
  induction h with
  | among _ _ ih => exact ih
  | noExpr | noStmt | noDecl => exact fun P => .ok _
  | @literal c _ site t hs _ =>
    intro P
    have hname : FailsOnly Q (Expr.checkName F P (.leaf site .literal t)) := by
      unfold Expr.checkName
      split
      next => exact .ok _
      next k hk =>
        have hscope : (Expr.leaf site .literal t).scope = some c := hs
        rw [hscope]
        dsimp only
        split
        · exact .error (hQ _ _ rfl)
        · exact .ok _
    unfold Expr.checkNames
    exact hname.bind fun _ _ => .ok _
  | binary _ _ iha ihb | ifThen _ _ iha ihb | call _ _ iha ihb =>
    intro P
    unfold Expr.checkNames
    exact (FailsOnly.ok _).bind fun _ _ => (iha P).bind fun _ _ => ihb P
  | ifElse _ _ _ iha ihb ihe =>
    intro P
    unfold Expr.checkNames
    exact (FailsOnly.ok _).bind fun _ _ => (iha P).bind fun _ _ => (ihb P).bind fun _ _ => ihe P
  | unary _ ih | result _ ih | block _ _ ih =>
    intro P
    unfold Expr.checkNames
    exact (FailsOnly.ok _).bind fun _ _ => ih P
  | moreExprs _ _ ih ih' =>
    intro P
    unfold Expr.checkAllNames
    exact (ih P).bind fun _ _ => ih' P
  | moreStmts _ _ ih ih' =>
    intro P
    unfold Stmt.checkAllNames
    exact (ih P).bind fun _ _ => ih' P
  | moreDecls _ _ ih ih' =>
    exact fun P => (ih P).bind fun _ _ => ih' P
  | evaluated _ ih | declared _ ih =>
    intro P
    unfold Stmt.checkNames
    exact ih P
  | assigned _ _ _ ih ih' =>
    intro P
    unfold Stmt.checkNames
    exact (ih P).bind fun _ _ => ih' P
  | var _ _ _ ih =>
    intro P
    unfold Decl.checkNames
    exact ih _
  | fn _ _ _ _ _ ih =>
    intro P
    unfold Decl.checkNames
    exact ih P

namespace Annotating

/-- The work goes on over `F` and `T`, or a rule was broken by the program. -/
structure Going (F : ScopeTree) (T : TypeTable) (r : Annotating) : Prop where
  base : r.Over F T
  sane : ∀ d ∈ r.failure, d.fault.isBroken = false

variable {F : ScopeTree} {T : TypeTable} {r : Annotating} {fn : Option TypeId}

theorem Going.write (h : r.Going F T) {e : Expr}
    (he : r.failure = none → Sane (r.context.typeOf fn e)) : (r.write fn e).2.Going F T := by
  unfold Annotating.write
  split
  · exact h
  next hnone =>
    have hsane := he (by simpa using hnone)
    split
    · exact h
    next d hd =>
      refine ⟨h.base, fun d' hd' => ?_⟩
      obtain rfl := Option.some.inj hd'
      exact hsane d hd

theorem Going.require (h : r.Going F T) {check : TypeContext → Except Diagnostic TypeContext}
    (hover : ∀ X, check r.context = .ok X → X.scopes = F ∧ X.types = T)
    (hsane : r.failure = none → Sane (check r.context)) : (r.require check).Going F T := by
  unfold Annotating.require
  split
  · exact h
  next hnone =>
    have hsane := hsane (by simpa using hnone)
    split
    next X hX => exact ⟨hover X hX, h.sane⟩
    next d hd =>
      refine ⟨h.base, fun d' hd' => ?_⟩
      obtain rfl := Option.some.inj hd'
      exact hsane d hd

end Annotating

section TypesSane

variable {F : ScopeTree} {T : TypeTable} {fn : Option TypeId} {r : Annotating}

end TypesSane

namespace Program

/-- What stops the stages behind the parser has a property that the faults of each of them have. -/
theorem analyse_failsOnly {Q : Diagnostic → Prop} {T : TypeTable} {w : List Token} {p : Program}
    (hp : Reads T w (.decls p.decls)) (hredefinition : ∀ d n, d.fault = .redefinition n → Q d)
    (hundefined : ∀ d n, d.fault = .undefinedSymbol n → Q d)
    (htypes : ∀ q S c, p.buildScopes T .empty = (q, { tree := S }) → q.Rooted S T w c →
      q.checkDefinitions S = .ok () → ∀ d ∈ (q.annotate S T).2, Q d) :
    FailsOnly (fun ds => ∀ d ∈ ds, Q d) (p.analyse T) := by
  intro ds h
  have hredefines := p.redefines_of_buildScopes T .empty
  unfold analyse at h
  split at h
  next d hb =>
    obtain rfl := Except.error.inj h
    rw [hb] at hredefines
    obtain ⟨n, hn⟩ := hredefines d rfl
    exact List.forall_mem_singleton.mpr (hredefinition d n hn)
  next q S hb =>
    obtain ⟨c, hq⟩ := exists_rooted hp hb
    split at h
    next d hd =>
      obtain rfl := Except.error.inj h
      exact List.forall_mem_singleton.mpr (hq.placed.namesFail hundefined [] d hd)
    next hnames =>
      split at h
      next q' d hd =>
        obtain rfl := Except.error.inj h
        exact List.forall_mem_singleton.mpr (htypes q S c hb hq hnames d (congrArg Prod.snd hd))
      next => exact nomatch h

end Program

end FrontEnd
