import FrontEnd.Proofs.Syntax.Correspondence
import FrontEnd.Syntax.Outline

/-! Outlines of programs that correspond. What stands for something else in the two programs, be it
a place, a scope or a type, is not seen in them. -/

namespace FrontEnd

/-- The outline of a node; members of a list are counted from `n`. -/
def Node.outline (T : TypeTable) (depth n : Nat) : Node → List OutlineLine
  | .expr e => e.outline T depth
  | .exprs es => Expr.outlineArguments T depth n es
  | .stmt s => s.outline T depth
  | .stmts ss => Stmt.outlineBody T depth n ss
  | .decl d => d.outline T depth
  | .decls ds => ds.flatMap (Decl.outline T depth)
  | _ => []

variable {C : Correspondence} {T T' : TypeTable}
  (hT : ∀ t t', C.type t t' → T.shown t = T'.shown t')

include hT

theorem ExprSite.Corresponds.line_eq {s s' : ExprSite} (h : s.Corresponds C s') (depth : Nat)
    (text : String) : s.line T depth text = s'.line T' depth text := by
  have htype := h.type
  unfold ExprSite.line
  generalize s.type = x, s'.type = x' at htype
  cases htype with
  | none => rfl
  | some ht => simp only [hT _ _ ht]

theorem signatureLines_eq {g g' : Option TypeId} (hg : Option.Rel C.type g g') (depth : Nat) :
    signatureLines T depth g = signatureLines T' depth g' := by
  cases hg with
  | none => rfl
  | some ht => simp only [signatureLines, hT _ _ ht]

/-- Nodes that correspond look the same in the outline if corresponding types do. -/
theorem Node.Corresponds.outline_eq {a a' : Node} (h : a.Corresponds C a') (depth n : Nat) :
    a.outline T depth n = a'.outline T' depth n := by
  induction h generalizing depth n with
  | @leaf s s' form k k' hs hk =>
    have htitle : form.title k = form.title k' := by
      cases form with
      | literal => exact congrArg ("Literal expression: " ++ ·) hk.shown
      | access => exact congrArg ("Var access: " ++ ·) hk.text
    simp only [Node.outline, Expr.outline, htitle, hs.line_eq hT]
  | @binary s s' _ k k' a a' b b' hs hk _ _ iha ihb =>
    have ha (m : Nat) : a.outline T m = a'.outline T' m := iha m 0
    have hb (m : Nat) : b.outline T m = b'.outline T' m := ihb m 0
    simp only [Node.outline, Expr.outline, hs.line_eq hT, hk.shown, ha, hb]
  | @unary s s' k k' a a' hs hk _ iha =>
    have ha (m : Nat) : a.outline T m = a'.outline T' m := iha m 0
    simp only [Node.outline, Expr.outline, hs.line_eq hT, hk.shown, ha]
  | @call s s' f f' as as' hs _ _ ihf ihas =>
    have hf (m : Nat) : f.outline T m = f'.outline T' m := ihf m 0
    have has (m : Nat) : Expr.outlineArguments T m 0 as = Expr.outlineArguments T' m 0 as' :=
      ihas m 0
    simp only [Node.outline, Expr.outline, hs.line_eq hT, hf, has]
  | @block s s' ss ss' hs _ ihss =>
    have hss (m : Nat) : Stmt.outlineBody T m 0 ss = Stmt.outlineBody T' m 0 ss' := ihss m 0
    simp only [Node.outline, Expr.outline, hs.line_eq hT, hss]
  | @ifThen s s' c c' a a' hs _ _ ihc iha =>
    have hc (m : Nat) : c.outline T m = c'.outline T' m := ihc m 0
    have ha (m : Nat) : a.outline T m = a'.outline T' m := iha m 0
    simp only [Node.outline, Expr.outline, hs.line_eq hT, hc, ha]
  | @ifElse s s' c c' a a' b b' hs _ _ _ ihc iha ihb =>
    have hc (m : Nat) : c.outline T m = c'.outline T' m := ihc m 0
    have ha (m : Nat) : a.outline T m = a'.outline T' m := iha m 0
    have hb (m : Nat) : b.outline T m = b'.outline T' m := ihb m 0
    simp only [Node.outline, Expr.outline, hs.line_eq hT, hc, ha, hb]
  | @result s s' form a a' hs _ iha =>
    have ha (m : Nat) : a.outline T m = a'.outline T' m := iha m 0
    simp only [Node.outline, Expr.outline, hs.line_eq hT, ha]
  | noExpr => rfl
  | @moreExprs e e' es es' _ _ ihe ihes =>
    have he (m : Nat) : e.outline T m = e'.outline T' m := ihe m 0
    have hes (m n : Nat) : Expr.outlineArguments T m n es = Expr.outlineArguments T' m n es' :=
      ihes m n
    simp only [Node.outline, Expr.outlineArguments, he, hes]
  | @evaluated s s' e e' _ _ ihe =>
    have he (m : Nat) : e.outline T m = e'.outline T' m := ihe m 0
    simp only [Node.outline, Stmt.outline, he]
  | @assigned s s' l l' e e' _ _ _ ihl ihe =>
    have hl (m : Nat) : l.outline T m = l'.outline T' m := ihl m 0
    have he (m : Nat) : e.outline T m = e'.outline T' m := ihe m 0
    simp only [Node.outline, Stmt.outline, hl, he]
  | declared _ _ ihd => exact ihd depth 0
  | noStmt => rfl
  | @moreStmts a a' as as' _ _ iha ihas =>
    have ha (m : Nat) : a.outline T m = a'.outline T' m := iha m 0
    have has (m n : Nat) : Stmt.outlineBody T m n as = Stmt.outlineBody T' m n as' := ihas m n
    simp only [Node.outline, Stmt.outlineBody, ha, has]
  | @var s s' k k' g g' e e' p p' _ hk hg _ _ ihe =>
    have he (m : Nat) : e.outline T m = e'.outline T' m := ihe m 0
    simp only [Node.outline, Decl.outline, hk.text, signatureLines_eq hT hg, he]
  | @fn s s' k k' g g' ps ps' e e' _ hk hg hps _ ihe =>
    have he (m : Nat) : e.outline T m = e'.outline T' m := ihe m 0
    have htexts : (ps.map fun p => " " ++ p.text) = ps'.map fun p => " " ++ p.text := by
      induction hps with
      | nil => rfl
      | cons hp _ ih => simp only [List.map_cons, hp.text, ih]
    simp only [Node.outline, Decl.outline, hk.text, signatureLines_eq hT hg, htexts, he]
  | noDecl => simp only [Node.outline, List.flatMap_nil]
  | @moreDecls d d' ds ds' _ _ ihd ihds =>
    have hd : d.outline T depth = d'.outline T' depth := ihd depth 0
    have hds : ds.flatMap (Decl.outline T depth) = ds'.flatMap (Decl.outline T' depth) :=
      ihds depth 0
    simp only [Node.outline, List.flatMap_cons, hd, hds]

end FrontEnd
