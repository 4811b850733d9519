import FrontEnd.Proofs.Checks
import FrontEnd.Proofs.Grammar.Reading
import FrontEnd.Typing

/-! What annotating a node does as long as nothing has stopped the work. -/

namespace FrontEnd

namespace Annotating

variable {S : ScopeTree} {T : TypeTable} {fn : Option TypeId} {r r' : Annotating} {e e' : Expr}

def Over (S : ScopeTree) (T : TypeTable) (r : Annotating) : Prop :=
  r.context.scopes = S ∧ r.context.types = T

theorem of_write (h : r.write fn e = (e', r')) (hr : r'.failure = none) :
    r' = r ∧ r.failure = none ∧ ∃ t, r.context.typeOf fn e = .ok t ∧
      e' = e.mapSite fun s => { s with type := some t } := by
  unfold write at h
  split at h
  next hfail =>
    obtain ⟨_, rfl⟩ := Prod.mk.inj h
    simp [hr] at hfail
  next hfail =>
    split at h
    next t ht =>
      obtain ⟨rfl, rfl⟩ := Prod.mk.inj h
      exact ⟨rfl, hr, t, ht, rfl⟩
    next d hd =>
      obtain ⟨_, rfl⟩ := Prod.mk.inj h
      exact nomatch hr

theorem of_require {check : TypeContext → Except Diagnostic TypeContext}
    (hr : (r.require check).failure = none) : r.failure = none ∧
      check r.context = .ok (r.require check).context := by
  unfold require at hr ⊢
  split at hr
  next hfail => simp [hr] at hfail
  next hfail =>
    rw [if_neg hfail]
    split at hr
    next X hX => exact ⟨hr, hX⟩
    next => exact nomatch hr

end Annotating

theorem Expr.type_mapSite_some (e : Expr) (t : TypeId) :
    (e.mapSite fun s => { s with type := some t }).type = some t := by
  cases e <;> rfl

open Annotating

namespace Expr

variable {fn : Option TypeId} {r r' : Annotating} {site : ExprSite} {e e' a b c : Expr}
  {why : Diagnostic}

theorem annotate_of_stopped (h : r.failure = some why) : e.annotate fn r = (e, r) := by
  cases e <;> exact if_pos (Option.isSome_of_eq_some h)

theorem annotateAll_of_stopped (h : r.failure = some why) (es : List Expr) :
    annotateAll fn es r = (es, r) := by
  induction es with
  | nil => rfl
  | cons e es ih => simp only [annotateAll, annotate_of_stopped h, ih]

theorem failure_of_annotate (h : e.annotate fn r = (e', r')) (hr : r'.failure = none) :
    r.failure = none := by
  cases hstop : r.failure with
  | none => rfl
  | some why =>
    obtain ⟨_, rfl⟩ := Prod.mk.inj ((annotate_of_stopped hstop).symm.trans h)
    exact nomatch hstop.symm.trans hr

theorem failure_of_annotateAll {es es' : List Expr} (h : annotateAll fn es r = (es', r'))
    (hr : r'.failure = none) : r.failure = none := by
  cases hstop : r.failure with
  | none => rfl
  | some why =>
    obtain ⟨_, rfl⟩ := Prod.mk.inj ((annotateAll_of_stopped hstop es).symm.trans h)
    exact nomatch hstop.symm.trans hr

theorem failure_of_write (h : r.write fn e = (e', r')) (hr : r'.failure = none) :
    r.failure = none := (of_write h hr).2.1

theorem annotate_leaf {form : LeafForm} {t : Token} (h : r.failure = none) :
    (leaf site form t).annotate fn r = r.write fn (.leaf site form t) := ite_isSome_of_none h

theorem annotate_binary {form : BinaryForm} {k : Token} (h : r.failure = none) :
    (binary site form k a b).annotate fn r =
      let (a, r) := a.annotate fn r
      let (b, r) := b.annotate fn r
      r.write fn (.binary site form k a b) := ite_isSome_of_none h

theorem annotate_unary {k : Token} (h : r.failure = none) :
    (unary site k a).annotate fn r =
      let (a, r) := a.annotate fn r
      r.write fn (.unary site k a) := ite_isSome_of_none h

theorem annotate_call {as : List Expr} (h : r.failure = none) :
    (call site a as).annotate fn r =
      let (a, r) := a.annotate fn r
      let (as, r) := annotateAll fn as r
      r.write fn (.call site a as) := ite_isSome_of_none h

theorem annotate_block {body : List Stmt} (h : r.failure = none) :
    (block site body).annotate fn r =
      let (body, r) := Stmt.annotateAll fn body r
      r.write fn (.block site body) := ite_isSome_of_none h

theorem annotate_ifThen (h : r.failure = none) :
    (ifThen site c a).annotate fn r =
      let (c, r) := c.annotate fn r
      let (a, r) := a.annotate fn r
      r.write fn (.ifThen site c a) := ite_isSome_of_none h

theorem annotate_ifElse (h : r.failure = none) :
    (ifElse site c a b).annotate fn r =
      let (c, r) := c.annotate fn r
      let (a, r) := a.annotate fn r
      let (b, r) := b.annotate fn r
      r.write fn (.ifElse site c a b) := ite_isSome_of_none h

theorem annotate_result {form : ResultForm} (h : r.failure = none) :
    (result site form a).annotate fn r =
      let (a, r) := a.annotate fn r
      r.write fn (.result site form a) := ite_isSome_of_none h

theorem annotateAll_cons {es : List Expr} :
    annotateAll fn (e :: es) r =
      let (e, r) := e.annotate fn r
      let (es, r) := annotateAll fn es r
      (e :: es, r) := rfl

theorem annotate_keeps (fn : Option TypeId) (e : Expr) (r : Annotating) :
    (e.annotate fn r).1.name? = e.name? ∧ (e.annotate fn r).1.site.toSite = e.site.toSite := by
  have hwrite : ∀ (e : Expr) (r : Annotating), (r.write fn e).1.name? = e.name? ∧
      (r.write fn e).1.site.toSite = e.site.toSite := by
    intro e r
    unfold Annotating.write
    split
    · exact ⟨rfl, rfl⟩
    · split
      · cases e with
        | leaf _ form _ => cases form <;> exact ⟨rfl, rfl⟩
        | _ => exact ⟨rfl, rfl⟩
      · exact ⟨rfl, rfl⟩
  unfold Expr.annotate
  split
  · exact ⟨rfl, rfl⟩
  · cases e <;> exact hwrite _ _

end Expr

namespace Stmt

variable {fn : Option TypeId} {r r' : Annotating} {site : Site} {s s' : Stmt}
  {why : Diagnostic}

theorem annotate_of_stopped (h : r.failure = some why) : s.annotate fn r = (s, r) := by
  cases s <;> exact if_pos (Option.isSome_of_eq_some h)

theorem annotateAll_of_stopped (h : r.failure = some why) (ss : List Stmt) :
    annotateAll fn ss r = (ss, r) := by
  induction ss with
  | nil => rfl
  | cons s ss ih => simp only [annotateAll, annotate_of_stopped h, ih]

theorem failure_of_annotate (h : s.annotate fn r = (s', r')) (hr : r'.failure = none) :
    r.failure = none := by
  cases hstop : r.failure with
  | none => rfl
  | some why =>
    obtain ⟨_, rfl⟩ := Prod.mk.inj ((annotate_of_stopped hstop).symm.trans h)
    exact nomatch hstop.symm.trans hr

theorem failure_of_annotateAll {ss ss' : List Stmt} (h : annotateAll fn ss r = (ss', r'))
    (hr : r'.failure = none) : r.failure = none := by
  cases hstop : r.failure with
  | none => rfl
  | some why =>
    obtain ⟨_, rfl⟩ := Prod.mk.inj ((annotateAll_of_stopped hstop ss).symm.trans h)
    exact nomatch hstop.symm.trans hr

theorem annotate_expr {e : Expr} (h : r.failure = none) :
    (expr site e).annotate fn r =
      let (e, r) := e.annotate fn r
      (.expr site e, r) := ite_isSome_of_none h

theorem annotate_assign {l e : Expr} (h : r.failure = none) :
    (assign site l e).annotate fn r =
      let (l, r) := l.annotate fn r
      let (e, r) := e.annotate fn r
      (.assign site l e, r.require fun X => (X.checkAssignment l e).map fun _ => X) :=
  ite_isSome_of_none h

theorem annotate_decl {d : Decl} (h : r.failure = none) :
    (decl site d).annotate fn r =
      let (d, r) := d.annotate fn r
      (.decl site d, r) := ite_isSome_of_none h

theorem annotateAll_cons {ss : List Stmt} :
    annotateAll fn (s :: ss) r =
      let (s, r) := s.annotate fn r
      let (ss, r) := annotateAll fn ss r
      (s :: ss, r) := rfl

end Stmt

namespace Decl

variable {fn : Option TypeId} {r r' : Annotating} {site : Site} {n : Token} {d d' : Decl} {e : Expr}
  {why : Diagnostic}

theorem annotate_of_stopped (h : r.failure = some why) : d.annotate fn r = (d, r) := by
  cases d with
  | var _ _ _ _ _ => exact if_pos (Option.isSome_of_eq_some h)
  | fn _ _ g _ _ => cases g <;> exact if_pos (Option.isSome_of_eq_some h)

theorem annotateAll_of_stopped (h : r.failure = some why) (ds : List Decl) :
    annotateAll fn ds r = (ds, r) := by
  induction ds with
  | nil => rfl
  | cons d ds ih => simp only [annotateAll, annotate_of_stopped h, ih]

theorem failure_of_annotate (h : d.annotate fn r = (d', r')) (hr : r'.failure = none) :
    r.failure = none := by
  cases hstop : r.failure with
  | none => rfl
  | some why =>
    obtain ⟨_, rfl⟩ := Prod.mk.inj ((annotate_of_stopped hstop).symm.trans h)
    exact nomatch hstop.symm.trans hr

theorem failure_of_annotateAll {ds ds' : List Decl} (h : annotateAll fn ds r = (ds', r'))
    (hr : r'.failure = none) : r.failure = none := by
  cases hstop : r.failure with
  | none => rfl
  | some why =>
    obtain ⟨_, rfl⟩ := Prod.mk.inj ((annotateAll_of_stopped hstop ds).symm.trans h)
    exact nomatch hstop.symm.trans hr

theorem annotate_var {g : Option TypeId} {p : Position} (h : r.failure = none) :
    (var site n g e p).annotate fn r =
      let (e, r) := e.annotate fn r
      (.var site n g e p, r.require fun X => X.declareVar site n g e) := ite_isSome_of_none h

theorem annotate_unsigned {ps : List Token} (h : r.failure = none) :
    (Decl.fn site n none ps e).annotate fn r =
      (.fn site n none ps e,
        { r with failure := some ⟨.missingSignature n.text, n.place⟩ }) := ite_isSome_of_none h

theorem annotate_signed {g : TypeId} {ps : List Token} (h : r.failure = none) :
    (Decl.fn site n (some g) ps e).annotate fn r =
      let (e, r) := e.annotate (some g) r
      (.fn site n (some g) ps e, r) := ite_isSome_of_none h

theorem annotateAll_cons {ds : List Decl} :
    annotateAll fn (d :: ds) r =
      let (d, r) := d.annotate fn r
      let (ds, r) := annotateAll fn ds r
      (d :: ds, r) := rfl

end Decl

/-- What annotating makes of a node, and the state it leaves. -/
def Node.annotate (fn : Option TypeId) (r : Annotating) : Node → Node × Annotating
  | .expr e => (.expr (e.annotate fn r).1, (e.annotate fn r).2)
  | .exprs es => (.exprs (Expr.annotateAll fn es r).1, (Expr.annotateAll fn es r).2)
  | .stmt s => (.stmt (s.annotate fn r).1, (s.annotate fn r).2)
  | .stmts ss => (.stmts (Stmt.annotateAll fn ss r).1, (Stmt.annotateAll fn ss r).2)
  | .decl d => (.decl (d.annotate fn r).1, (d.annotate fn r).2)
  | .decls ds => (.decls (Decl.annotateAll fn ds r).1, (Decl.annotateAll fn ds r).2)
  | a => (a, r)

theorem Node.annotate_of_stopped {fn : Option TypeId} {r : Annotating} {why : Diagnostic}
    (h : r.failure = some why) (a : Node) : a.annotate fn r = (a, r) := by
  cases a <;> simp only [Node.annotate, Expr.annotate_of_stopped h, Expr.annotateAll_of_stopped h,
    Stmt.annotate_of_stopped h, Stmt.annotateAll_of_stopped h, Decl.annotate_of_stopped h,
    Decl.annotateAll_of_stopped h]

theorem Node.failure_of_annotate {fn : Option TypeId} {r : Annotating} {a : Node}
    (h : (a.annotate fn r).2.failure = none) : r.failure = none := by
  cases hstop : r.failure with
  | none => rfl
  | some why =>
    rw [annotate_of_stopped hstop] at h
    exact nomatch hstop.symm.trans h

end FrontEnd
