import Mathlib
import FrontEnd.Proofs.Grammar.Unsigned
import FrontEnd.Proofs.Typing.Annotating
import FrontEnd.Proofs.Typing.Correspondence

/-! The variables without a signature stay where they are when a program is stamped and typed. -/

namespace FrontEnd

namespace Node

variable {q : Position}

theorem countP_mapSite (q : Position) (e : Expr) (f : ExprSite → ExprSite) :
    (e.mapSite f).nodes.countP (isUnsignedAt q) = e.nodes.countP (isUnsignedAt q) := by
  cases e <;> rfl

theorem countP_write (q : Position) (r : Annotating) (fn : Option TypeId) (e : Expr) :
    (r.write fn e).1.nodes.countP (isUnsignedAt q) = e.nodes.countP (isUnsignedAt q) := by
  unfold Annotating.write
  split
  · rfl
  · split
    · exact countP_mapSite q e _
    · rfl

def AnnotatedInPlace (q : Position) (a : Node) : Prop :=
  ∀ fn r, (a.annotate fn r).1.unsignedAt q = a.unsignedAt q

theorem hereditary_annotatedInPlace (q : Position) : Hereditary (AnnotatedInPlace q) := by
  constructor
  case fn =>
    intro site n g ps e he fn r
    simp only [AnnotatedInPlace, unsignedAt, nodes, Node.annotate] at he ⊢
    cases hr : r.failure with
    | some d => rw [Decl.annotate_of_stopped hr]
    | none =>
      cases g with
      | none => rw [Decl.annotate_unsigned hr]
      | some g => simp [Decl.annotate_signed hr, Decl.nodes, isUnsignedAt, he]
  all_goals
    intros
    intro fn r
    simp only [AnnotatedInPlace, unsignedAt, nodes, Node.annotate, Expr.annotate, Expr.annotateAll,
      Stmt.annotate, Stmt.annotateAll, Decl.annotate] at *
  case moreExprs | moreStmts =>
    simp only [Expr.nodesOfAll, Stmt.nodesOfAll, List.countP_append, *]
  case leaf =>
    split
    · rfl
    · rw [countP_write]
  case evaluated | assigned | declared =>
    split
    · rfl
    · simp [Stmt.nodes, isUnsignedAt, *]
  case var site n g e p he =>
    split
    · rfl
    · cases g <;> simp [Decl.nodes, isUnsignedAt, he]
  all_goals
    split
    · rfl
    · rw [countP_write]
      simp [Expr.nodes, isUnsignedAt, *]

/-- Scopes are written on a variable without a signature, too. -/
def UnstampedInPlace (q : Position) : Node → Prop
  | expr e => (expr e.unstamped).unsignedAt q = (expr e).unsignedAt q
  | exprs es => (exprs (Expr.unstampedAll es)).unsignedAt q = (exprs es).unsignedAt q
  | stmt s => (stmt s.unstamped).unsignedAt q = (stmt s).unsignedAt q
  | stmts ss => (stmts (Stmt.unstampedAll ss)).unsignedAt q = (stmts ss).unsignedAt q
  | decl d => (decl d.unstamped).unsignedAt q = (decl d).unsignedAt q
  | _ => True

theorem hereditary_unstampedInPlace (q : Position) : Hereditary (UnstampedInPlace q) := by
  constructor
  case var =>
    intro site n g e p he
    cases g <;> simp_all [UnstampedInPlace, unsignedAt, nodes, Decl.unstamped, Decl.nodes,
      isUnsignedAt, Site.unstamped]
  all_goals
    intros
    simp_all [UnstampedInPlace, unsignedAt, nodes, Expr.unstamped, Expr.unstampedAll,
      Stmt.unstamped, Stmt.unstampedAll, Decl.unstamped, Expr.nodes, Expr.nodesOfAll, Stmt.nodes,
      Stmt.nodesOfAll, Decl.nodes, isUnsignedAt]

end Node

section Programs

variable {q : Position}

theorem Node.unsignedAt_decls (q : Position) (d : Decl) (ds : List Decl) :
    (decls (d :: ds)).unsignedAt q = (decl d).unsignedAt q + (decls ds).unsignedAt q := by
  simp only [unsignedAt, nodes, List.flatMap_cons, List.countP_append]

theorem Decl.unsignedAt_annotateAll (q : Position) (fn : Option TypeId) (ds : List Decl)
    (r : Annotating) : (Node.decls (annotateAll fn ds r).1).unsignedAt q =
      (Node.decls ds).unsignedAt q := by
  induction ds generalizing r with
  | nil => rfl
  | cons d ds ih =>
    have hd : (Node.decl (d.annotate fn r).1).unsignedAt q = (Node.decl d).unsignedAt q :=
      (Node.hereditary_annotatedInPlace q).decl d fn r
    rw [annotateAll, Node.unsignedAt_decls, Node.unsignedAt_decls, hd, ih]

theorem Decl.unsignedAt_unstamped (q : Position) (ds : List Decl) :
    (Node.decls (ds.map Decl.unstamped)).unsignedAt q = (Node.decls ds).unsignedAt q := by
  induction ds with
  | nil => rfl
  | cons d ds ih =>
    have hd : (Node.decl d.unstamped).unsignedAt q = (Node.decl d).unsignedAt q :=
      (Node.hereditary_unstampedInPlace q).decl d
    rw [List.map_cons, Node.unsignedAt_decls, Node.unsignedAt_decls, hd, ih]

end Programs

end FrontEnd
