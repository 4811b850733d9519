import Mathlib
import FrontEnd.Proofs.Syntax.Mapping
import FrontEnd.Proofs.Typing.Order

/-! Types that are there already. A type is written before it is read, so what stood in its place
does not count: not for the result, and not for what is written. -/

namespace FrontEnd

def ExprSite.untyped (s : ExprSite) : ExprSite := { s with type := none }

/-- Takes the types off all expressions. -/
def NodeMap.untyped : NodeMap where
  exprSite := ExprSite.untyped

namespace Annotating

/-- The old type of an expression is not looked at when the new one is written. -/
theorem write_untyped (r : Annotating) (fn : Option TypeId) (e : Expr) :
    (r.write fn (e.mapSite ExprSite.untyped)).2 = (r.write fn e).2 ∧
      ((r.write fn e).2.failure = none →
        (r.write fn (e.mapSite ExprSite.untyped)).1 = (r.write fn e).1) := by
  have htype : r.context.typeOf fn (e.mapSite ExprSite.untyped) = r.context.typeOf fn e := by
    cases e <;> rfl
  unfold write
  rw [htype]
  by_cases hr : r.failure.isSome
  · rw [if_pos hr, if_pos hr]
    refine ⟨rfl, fun hnone => ?_⟩
    rw [hnone] at hr
    cases hr
  · rw [if_neg hr, if_neg hr]
    cases r.context.typeOf fn e with
    | ok t =>
      refine ⟨rfl, fun _ => ?_⟩
      cases e <;> rfl
    | error d => exact ⟨rfl, fun hnone => nomatch hnone⟩

end Annotating

namespace Node

/-- The run `run` came as far as `fresh` did, and left the same node if nothing stopped it. -/
structure EndsAs (run fresh : Node × Annotating) : Prop where
  state : run.2 = fresh.2
  node : fresh.2.failure = none → run.1 = fresh.1

def TypedAfresh (a : Node) : Prop :=
  ∀ fn r, EndsAs (a.annotate fn r) ((a.map .untyped).annotate fn r)

theorem TypedAfresh.of_running {a : Node} (h : ∀ fn r, r.failure = none →
    EndsAs (a.annotate fn r) ((a.map .untyped).annotate fn r)) : a.TypedAfresh := by
  intro fn r
  cases hr : r.failure with
  | none => exact h fn r hr
  | some d =>
    rw [annotate_of_stopped hr, annotate_of_stopped hr]
    exact ⟨rfl, fun hnone => (Option.some_ne_none d (hr.symm.trans hnone)).elim⟩

theorem EndsAs.write {r : Annotating} {fn : Option TypeId} {e e' : Expr}
    (h : r.failure = none → e' = e.mapSite ExprSite.untyped) :
    EndsAs (.expr (r.write fn e).1, (r.write fn e).2)
      (.expr (r.write fn e').1, (r.write fn e').2) := by
  cases hr : r.failure with
  | none =>
    obtain ⟨hstate, hnode⟩ := r.write_untyped fn e
    rw [h hr]
    exact ⟨hstate.symm, fun hnone => congrArg Node.expr (hnode (hstate ▸ hnone)).symm⟩
  | some d =>
    have hwrite (e : Expr) : r.write fn e = (e, r) := by simp [Annotating.write, hr]
    rw [hwrite, hwrite]
    exact ⟨rfl, fun hnone => (Option.some_ne_none d (hr.symm.trans hnone)).elim⟩

theorem EndsAs.require {r : Annotating} {a a' : Node}
    {check check' : TypeContext → Except Diagnostic TypeContext}
    (h : r.failure = none → a = a' ∧ check = check') :
    EndsAs (a, r.require check) (a', r.require check') := by
  cases hr : r.failure with
  | none =>
    obtain ⟨rfl, rfl⟩ := h hr
    exact ⟨rfl, fun _ => rfl⟩
  | some d =>
    have hrequire (f : TypeContext → Except Diagnostic TypeContext) : r.require f = r := by
      simp [Annotating.require, hr]
    rw [hrequire, hrequire]
    exact ⟨rfl, fun hnone => (Option.some_ne_none d (hr.symm.trans hnone)).elim⟩

theorem hereditary_typedAfresh : Hereditary TypedAfresh where
  leaf := .of_running fun fn r hr => by
    simp only [Node.annotate, Node.map, Expr.map, Expr.annotate_leaf hr]
    exact .write fun _ => rfl
  binary {site form k a b} iha ihb := .of_running fun fn r hr => by
    obtain ⟨hra, ha⟩ := iha fn r
    obtain ⟨hrb, hb⟩ := ihb fn (a.annotate fn r).2
    simp only [Node.annotate, Node.map, Node.expr.injEq, Expr.map, Expr.annotate_binary hr] at *
    rw [← hra, ← hrb]
    refine .write fun hnone => ?_
    have hb := hb (hrb ▸ hnone)
    have ha := ha (hra ▸ Expr.failure_of_annotate rfl hnone)
    rw [ha, hb]
    rfl
  unary {site k a} iha := .of_running fun fn r hr => by
    obtain ⟨hra, ha⟩ := iha fn r
    simp only [Node.annotate, Node.map, Node.expr.injEq, Expr.map, Expr.annotate_unary hr] at *
    rw [← hra]
    refine .write fun hnone => ?_
    rw [ha (hra ▸ hnone)]
    rfl
  call {site f as} ihf ihas := .of_running fun fn r hr => by
    obtain ⟨hrf, hf⟩ := ihf fn r
    obtain ⟨hras, has⟩ := ihas fn (f.annotate fn r).2
    simp only [Node.annotate, Node.map, Node.expr.injEq, Node.exprs.injEq, Expr.map,
      Expr.annotate_call hr] at *
    rw [← hrf, ← hras]
    refine .write fun hnone => ?_
    rw [hf (hrf ▸ Expr.failure_of_annotateAll rfl hnone), has (hras ▸ hnone)]
    rfl
  block {site ss} ihss := .of_running fun fn r hr => by
    obtain ⟨hrss, hss⟩ := ihss fn r
    simp only [Node.annotate, Node.map, Node.stmts.injEq, Expr.map, Expr.annotate_block hr] at *
    rw [← hrss]
    refine .write fun hnone => ?_
    rw [hss (hrss ▸ hnone)]
    rfl
  ifThen {site a b} iha ihb := .of_running fun fn r hr => by
    obtain ⟨hra, ha⟩ := iha fn r
    obtain ⟨hrb, hb⟩ := ihb fn (a.annotate fn r).2
    simp only [Node.annotate, Node.map, Node.expr.injEq, Expr.map, Expr.annotate_ifThen hr] at *
    rw [← hra, ← hrb]
    refine .write fun hnone => ?_
    rw [ha (hra ▸ Expr.failure_of_annotate rfl hnone), hb (hrb ▸ hnone)]
    rfl
  ifElse {site a b d} iha ihb ihd := .of_running fun fn r hr => by
    obtain ⟨hra, ha⟩ := iha fn r
    obtain ⟨hrb, hb⟩ := ihb fn (a.annotate fn r).2
    obtain ⟨hrd, hd⟩ := ihd fn (b.annotate fn (a.annotate fn r).2).2
    simp only [Node.annotate, Node.map, Node.expr.injEq, Expr.map, Expr.annotate_ifElse hr] at *
    rw [← hra, ← hrb, ← hrd]
    refine .write fun hnone => ?_
    have hsecond := Expr.failure_of_annotate rfl hnone
    rw [ha (hra ▸ Expr.failure_of_annotate rfl hsecond), hb (hrb ▸ hsecond), hd (hrd ▸ hnone)]
    rfl
  result {site form a} iha := .of_running fun fn r hr => by
    obtain ⟨hra, ha⟩ := iha fn r
    simp only [Node.annotate, Node.map, Node.expr.injEq, Expr.map, Expr.annotate_result hr] at *
    rw [← hra]
    refine .write fun hnone => ?_
    rw [ha (hra ▸ hnone)]
    rfl
  noExpr _ _ := ⟨rfl, fun _ => rfl⟩
  moreExprs {e es} ihe ihes fn r := by
    obtain ⟨hre, he⟩ := ihe fn r
    obtain ⟨hres, hes⟩ := ihes fn (e.annotate fn r).2
    simp only [Node.annotate, Node.map, Node.expr.injEq, Node.exprs.injEq, Expr.mapAll,
      Expr.annotateAll_cons] at *
    rw [← hre, ← hres]
    refine ⟨rfl, fun hnone => ?_⟩
    rw [he (hre ▸ Expr.failure_of_annotateAll rfl hnone), hes (hres ▸ hnone)]
  evaluated {site e} ihe := .of_running fun fn r hr => by
    obtain ⟨hre, he⟩ := ihe fn r
    simp only [Node.annotate, Node.map, Node.expr.injEq, Stmt.map, Stmt.annotate_expr hr] at *
    refine ⟨hre, fun hnone => ?_⟩
    rw [he hnone]
    rfl
  assigned {site l e} ihl ihe := .of_running fun fn r hr => by
    obtain ⟨hrl, hl⟩ := ihl fn r
    obtain ⟨hre, he⟩ := ihe fn (l.annotate fn r).2
    simp only [Node.annotate, Node.map, Node.expr.injEq, Stmt.map, Stmt.annotate_assign hr] at *
    rw [← hrl, ← hre]
    refine .require fun hnone => ?_
    rw [hl (hrl ▸ Expr.failure_of_annotate rfl hnone), he (hre ▸ hnone)]
    exact ⟨rfl, rfl⟩
  declared {site d} ihd := .of_running fun fn r hr => by
    obtain ⟨hrd, hd⟩ := ihd fn r
    simp only [Node.annotate, Node.map, Node.decl.injEq, Stmt.map, Stmt.annotate_decl hr] at *
    refine ⟨hrd, fun hnone => ?_⟩
    rw [hd hnone]
    rfl
  noStmt _ _ := ⟨rfl, fun _ => rfl⟩
  moreStmts {s ss} ihs ihss fn r := by
    obtain ⟨hrs, hs⟩ := ihs fn r
    obtain ⟨hrss, hss⟩ := ihss fn (s.annotate fn r).2
    simp only [Node.annotate, Node.map, Node.stmt.injEq, Node.stmts.injEq, Stmt.mapAll,
      Stmt.annotateAll_cons] at *
    rw [← hrs, ← hrss]
    refine ⟨rfl, fun hnone => ?_⟩
    rw [hs (hrs ▸ Stmt.failure_of_annotateAll rfl hnone), hss (hrss ▸ hnone)]
  var {site n g e finish} ihe := .of_running fun fn r hr => by
    obtain ⟨hre, he⟩ := ihe fn r
    simp only [Node.annotate, Node.map, Node.expr.injEq, Decl.map, Decl.annotate_var hr] at *
    rw [← hre]
    refine .require fun hnone => ?_
    rw [he (hre ▸ hnone)]
    exact ⟨rfl, rfl⟩
  fn {site n g ps e} ihe := .of_running fun fn r hr => by
    cases g with
    | none =>
      simp only [Node.annotate, Node.map, Decl.map, Decl.annotate_unsigned hr]
      exact ⟨rfl, fun hnone => (Option.some_ne_none _ hnone).elim⟩
    | some g =>
      obtain ⟨hre, he⟩ := ihe (some g) r
      simp only [Node.annotate, Node.map, Node.expr.injEq, Decl.map, Decl.annotate_signed hr] at *
      refine ⟨hre, fun hnone => ?_⟩
      rw [he hnone, NodeMap.untyped, List.map_id]
      rfl

def KeepsUntyped (a : Node) : Prop :=
  ∀ fn r, (a.annotate fn r).1.map .untyped = a.map .untyped

theorem hereditary_keepsUntyped : Hereditary KeepsUntyped := by
  have hwrite (r : Annotating) (fn : Option TypeId) (e : Expr) :
      (r.write fn e).1.map .untyped = e.map .untyped := by
    unfold Annotating.write
    split
    · rfl
    · split
      · cases e <;> rfl
      · rfl
  constructor
  case noExpr | noStmt => exact fun _ _ => rfl
  case fn =>
    intro site n g ps e ihe fn r
    simp only [KeepsUntyped, Node.annotate, Node.map, expr.injEq, decl.injEq] at *
    cases hr : r.failure with
    | some d => rw [Decl.annotate_of_stopped hr]
    | none =>
      cases g with
      | none => rw [Decl.annotate_unsigned hr]
      | some g => simp only [Decl.annotate_signed hr, Decl.map, ihe]
  all_goals
    intros
    intro fn r
    simp only [KeepsUntyped, Node.annotate, Node.map, expr.injEq, exprs.injEq, stmt.injEq,
      stmts.injEq, decl.injEq] at *
  case moreExprs => simp only [Expr.annotateAll_cons, Expr.mapAll, *]
  case moreStmts => simp only [Stmt.annotateAll_cons, Stmt.mapAll, *]
  case evaluated | assigned | declared =>
    unfold Stmt.annotate
    split
    · rfl
    · simp only [Stmt.map, *]
  case var =>
    unfold Decl.annotate
    split
    · rfl
    · simp only [Decl.map, *]
  all_goals
    unfold Expr.annotate
    split
    · rfl
    · simp only [Expr.map, *]

end Node

theorem Decl.annotateAll_afresh (fn : Option TypeId) (ds : List Decl) (r : Annotating) :
    Node.EndsAs (Node.annotate fn r (.decls ds))
      (Node.annotate fn r (Node.map .untyped (.decls ds))) := by
  induction ds generalizing r with
  | nil => exact ⟨rfl, fun _ => rfl⟩
  | cons d ds ih =>
    obtain ⟨hrd, hd⟩ := Node.hereditary_typedAfresh.decl d fn r
    obtain ⟨hrds, hds⟩ := ih (d.annotate fn r).2
    simp only [Node.annotate, Node.map, Node.decl.injEq, Node.decls.injEq, List.map_cons,
      annotateAll_cons] at *
    rw [← hrd, ← hrds]
    refine ⟨rfl, fun hnone => ?_⟩
    rw [hd (hrd ▸ failure_of_annotateAll rfl hnone), hds (hrds ▸ hnone)]

theorem Decl.untyped_annotateAll (fn : Option TypeId) (ds : List Decl) (r : Annotating) :
    (annotateAll fn ds r).1.map (Decl.map .untyped) = ds.map (Decl.map .untyped) := by
  induction ds generalizing r with
  | nil => rfl
  | cons d ds ih =>
    have hd := Node.hereditary_keepsUntyped.decl d fn r
    simp only [Node.annotate, Node.map, Node.decl.injEq] at hd
    simp only [annotateAll_cons, List.map_cons, hd, ih]

namespace Program

variable (S : ScopeTree) (T : TypeTable)

/-- The program without types on its expressions. -/
def untyped (p : Program) : Program := p.map .untyped

/-- The run left of `p` all but types as it was. It failed as the fresh one did, and wrote the types
of just those steps that it passed before; or it ended as the fresh one did, with a type on every
expression, and repeated it changes nothing. -/
structure Overwrites (p : Program) (run fresh : Program × Option Diagnostic) : Prop where
  failure : run.2 = fresh.2
  untyped : run.1.untyped = p.untyped
  stopped : ∀ d ∈ run.2, ∃ done failing rest X, run.1.steps = done ++ failing :: rest ∧
    Passes { scopes := S, types := T } done X ∧ failing.check X = .error d ∧
      (failing :: rest).map TypingStep.slot = (p.steps.drop done.length).map TypingStep.slot
  finished : run.2 = none → run.1 = fresh.1 ∧
    (∃ X, Passes { scopes := S, types := T } run.1.steps X) ∧
      (∀ e ∈ run.1.exprs, e.type.isSome) ∧ run.1.annotate S T = run

theorem annotate_afresh (p : Program) : (p.annotate S T).2 = (p.untyped.annotate S T).2 ∧
    ((p.annotate S T).2 = none → (p.annotate S T).1 = (p.untyped.annotate S T).1) := by
  obtain ⟨hstate, hnode⟩ := Decl.annotateAll_afresh none p.decls
    { context := { scopes := S, types := T } }
  simp only [Node.annotate, Node.map, Node.decls.injEq] at hstate hnode
  have hfailure := congrArg Annotating.failure hstate
  refine ⟨hfailure, fun hnone => ?_⟩
  exact congrArg (Program.mk · p.scope) (hnode (hfailure ▸ hnone))

theorem untyped_annotate (p : Program) : (p.annotate S T).1.untyped = p.untyped :=
  congrArg (Program.mk · p.scope) (Decl.untyped_annotateAll none p.decls _)

/-- What was written on the expressions before is not read. -/
theorem annotate_overwrites (p : Program) :
    Overwrites S T p (p.annotate S T) (p.untyped.annotate S T) := by
  obtain ⟨hfailure, hprogram⟩ := p.annotate_afresh S T
  have huntyped := p.untyped_annotate S T
  have hruns : Annotating.Runs { context := { scopes := S, types := T } } p.steps
      (p.annotate S T).1.steps _ := Decl.runs_annotateAll none p.decls _
  refine ⟨hfailure, huntyped, fun d hd => hruns.exists_failing rfl hd, fun hnone => ?_⟩
  have hpasses := hruns.passes rfl hnone
  refine ⟨hprogram hnone, ⟨_, hpasses⟩, fun e he => ?_, ?_⟩
  · exact hpasses.isSome_type e ((p.annotate S T).1.perm_steps.mem_iff.mpr he)
  · -- the second run is the first one, since both are the one without types
    obtain ⟨hfailure', hprogram'⟩ := (p.annotate S T).1.annotate_afresh S T
    rw [huntyped] at hfailure' hprogram'
    have hagain := hfailure'.trans hfailure.symm
    exact Prod.ext ((hprogram' (hagain.trans hnone)).trans (hprogram hnone).symm) hagain

end Program

end FrontEnd
