import FrontEnd.Proofs.Syntax.Hereditary
import FrontEnd.Proofs.Typing.Annotating
import FrontEnd.Proofs.Typing.Steps

/-! The types that are written on a program make it well typed. -/

namespace FrontEnd

namespace Typed

variable {S : ScopeTree} {T : TypeTable} {fn : Option TypeId} {Γ Δ : Inferred}

theorem of_has {X : TypeContext} (hX : X.types = T) {e e' : Expr} {t u : TypeId}
    (ht : e'.type = some t) (h : X.Has e' u) (he : Typed S T fn Γ (.expr e t) Δ) :
    Typed S T fn Γ (.expr e u) Δ := by
  obtain ⟨t', ht', hs⟩ := h
  obtain rfl := Option.some.inj (ht.symm.trans ht')
  exact .equal (hX ▸ hs) he

theorem exprs_equal {es : List Expr} {ts us : List TypeId}
    (h : List.Forall₂ (fun t u => T.same t u = true) ts us)
    (hes : Typed S T fn Γ (.exprs es ts) Δ) : Typed S T fn Γ (.exprs es us) Δ := by
  induction h generalizing es Γ with
  | nil => exact hes
  | cons h _ ih =>
    cases hes with
    | moreExprs he hes => exact .moreExprs (.equal h he) (ih hes)

end Typed

/-- A block of several statements has the type of what follows the first. -/
theorem TypeContext.blockType_cons_cons (s s' : Stmt) (ss : List Stmt) :
    blockType (s :: s' :: ss) = blockType (s' :: ss) := by
  simp [blockType, List.getLast?_cons_cons]

/-- What a node gets from annotating it without a failure makes it well typed. -/
def Node.Annotated (S : ScopeTree) (T : TypeTable) : Node → Prop
  | .expr e => ∀ ⦃fn e' r r'⦄, Annotating.Over S T r → e.annotate fn r = (e', r') →
      r'.failure = none → r'.Over S T ∧ ∃ t, e'.type = some t ∧
        Typed S T fn r.context.inferred (.expr e t) r'.context.inferred
  | .exprs es => ∀ ⦃fn es' r r'⦄, Annotating.Over S T r → Expr.annotateAll fn es r = (es', r') →
      r'.failure = none → r'.Over S T ∧
        ∃ ts, List.Forall₂ (fun e t => Expr.type e = some t) es' ts ∧
          Typed S T fn r.context.inferred (.exprs es ts) r'.context.inferred
  | .stmt s => ∀ ⦃fn s' r r'⦄, Annotating.Over S T r → s.annotate fn r = (s', r') →
      r'.failure = none → r'.Over S T ∧ ∃ t, TypeContext.blockType [s'] = .ok t ∧
        Typed S T fn r.context.inferred (.stmt s t) r'.context.inferred
  | .stmts ss => ∀ ⦃fn ss' r r'⦄, Annotating.Over S T r → Stmt.annotateAll fn ss r = (ss', r') →
      r'.failure = none → r'.Over S T ∧ ∃ t, TypeContext.blockType ss' = .ok t ∧
        Typed S T fn r.context.inferred (.stmts ss t) r'.context.inferred
  | .decl d => ∀ ⦃fn d' r r'⦄, Annotating.Over S T r → d.annotate fn r = (d', r') →
      r'.failure = none → r'.Over S T ∧
        Typed S T fn r.context.inferred (.decl d) r'.context.inferred
  | _ => True

section Soundness

variable {S : ScopeTree} {T : TypeTable}

namespace Node.Annotated

theorem leaf {site : ExprSite} {form : LeafForm} {k : Token} :
    (Node.expr (.leaf site form k)).Annotated S T := by
  intro fn e' r r' hr h hr'
  have hnone := Expr.failure_of_annotate h hr'
  rw [Expr.annotate_leaf hnone] at h
  obtain ⟨rfl, _, t, ht, rfl⟩ := Annotating.of_write h hr'
  obtain ⟨rfl, rfl⟩ := hr
  exact ⟨⟨rfl, rfl⟩, t, Expr.type_mapSite_some _ t, TypeContext.typed_of_leafType ht⟩

theorem binary {site : ExprSite} {form : BinaryForm} {k : Token} {a b : Expr}
    (iha : (Node.expr a).Annotated S T) (ihb : (Node.expr b).Annotated S T) :
    (Node.expr (.binary site form k a b)).Annotated S T := by
  intro fn e' r r' hr h hr'
  have hnone := Expr.failure_of_annotate h hr'
  rw [Expr.annotate_binary hnone] at h
  obtain ⟨rfl, hr₂, t, ht, rfl⟩ := Annotating.of_write h hr'
  have hr₁ := Expr.failure_of_annotate rfl hr₂
  obtain ⟨h₁, ta, hta, hat⟩ := iha hr rfl hr₁
  obtain ⟨h₂, tb, htb, hbt⟩ := ihb h₁ rfl hr₂
  obtain ⟨hai, hbi, rfl⟩ := TypeContext.typeOf_binary.mp ht
  refine ⟨h₂, _, Expr.type_mapSite_some _ _, ?_⟩
  cases form with
  | comparison => exact .comparison (hat.of_has h₂.2 hta hai) (hbt.of_has h₂.2 htb hbi)
  | arithmetic => exact .arithmetic (hat.of_has h₂.2 hta hai) (hbt.of_has h₂.2 htb hbi)

theorem unary {site : ExprSite} {k : Token} {a : Expr} (iha : (Node.expr a).Annotated S T) :
    (Node.expr (.unary site k a)).Annotated S T := by
  intro fn e' r r' hr h hr'
  have hnone := Expr.failure_of_annotate h hr'
  rw [Expr.annotate_unary hnone] at h
  obtain ⟨rfl, hr₁, t, ht, rfl⟩ := Annotating.of_write h hr'
  obtain ⟨h₁, ta, hta, hat⟩ := iha hr rfl hr₁
  obtain ⟨hai, rfl⟩ := TypeContext.typeOf_unary.mp ht
  exact ⟨h₁, _, Expr.type_mapSite_some _ _, .unary (hat.of_has h₁.2 hta hai)⟩

theorem call (hT : T.Reachable) {site : ExprSite} {f : Expr} {as : List Expr}
    (ihf : (Node.expr f).Annotated S T) (ihas : (Node.exprs as).Annotated S T) :
    (Node.expr (.call site f as)).Annotated S T := by
  intro fn e' r r' hr h hr'
  have hnone := Expr.failure_of_annotate h hr'
  rw [Expr.annotate_call hnone] at h
  obtain ⟨rfl, hr₂, t, ht, rfl⟩ := Annotating.of_write h hr'
  have hr₁ := Expr.failure_of_annotateAll rfl hr₂
  obtain ⟨h₁, tf, htf, hft⟩ := ihf hr rfl hr₁
  obtain ⟨h₂, ts, hts, hast⟩ := ihas h₁ rfl hr₂
  obtain ⟨g, ps, hg, hfun, hps⟩ :=
    (TypeContext.typeOf_call fun e he =>
      Option.isSome_iff_exists.mpr (exists_of_mem_forall₂ hts he)).mp ht
  obtain rfl := Option.some.inj (htf.symm.trans hg)
  have hsame : List.Forall₂ (fun p t => T.same p t = true) ps ts :=
    forall₂_comp (fun p e t hp ht => h₂.2 ▸ hp t ht) hps hts
  refine ⟨h₂, t, Expr.type_mapSite_some _ _, .call (h₂.2 ▸ hfun) hft (hast.exprs_equal ?_)⟩
  exact (hsame.imp fun _ _ h => TypeTable.same_symm hT h).flip

theorem block {site : ExprSite} {body : List Stmt} (ihss : (Node.stmts body).Annotated S T) :
    (Node.expr (.block site body)).Annotated S T := by
  intro fn e' r r' hr h hr'
  have hnone := Expr.failure_of_annotate h hr'
  rw [Expr.annotate_block hnone] at h
  obtain ⟨rfl, hr₁, t, ht, rfl⟩ := Annotating.of_write h hr'
  obtain ⟨h₁, u, hu, hbodyt⟩ := ihss hr rfl hr₁
  obtain rfl := Except.ok.inj (ht.symm.trans hu)
  exact ⟨h₁, t, Expr.type_mapSite_some _ _, .block hbodyt⟩

theorem ifThen {site : ExprSite} {c a : Expr} (ihc : (Node.expr c).Annotated S T)
    (iha : (Node.expr a).Annotated S T) : (Node.expr (.ifThen site c a)).Annotated S T := by
  intro fn e' r r' hr h hr'
  have hnone := Expr.failure_of_annotate h hr'
  rw [Expr.annotate_ifThen hnone] at h
  obtain ⟨rfl, hr₂, t, ht, rfl⟩ := Annotating.of_write h hr'
  have hr₁ := Expr.failure_of_annotate rfl hr₂
  obtain ⟨h₁, tc, htc, hct⟩ := ihc hr rfl hr₁
  obtain ⟨h₂, ta, hta, hat⟩ := iha h₁ rfl hr₂
  obtain ⟨hcb, _, rfl⟩ := TypeContext.typeOf_ifThen.mp ht
  exact ⟨h₂, _, Expr.type_mapSite_some _ _, .ifThen (hct.of_has h₂.2 htc hcb) hat⟩

theorem ifElse (hT : T.Reachable) {site : ExprSite} {c a b : Expr}
    (ihc : (Node.expr c).Annotated S T) (iha : (Node.expr a).Annotated S T)
    (ihb : (Node.expr b).Annotated S T) : (Node.expr (.ifElse site c a b)).Annotated S T := by
  intro fn e' r r' hr h hr'
  have hnone := Expr.failure_of_annotate h hr'
  rw [Expr.annotate_ifElse hnone] at h
  obtain ⟨rfl, hr₃, t, ht, rfl⟩ := Annotating.of_write h hr'
  have hr₂ := Expr.failure_of_annotate rfl hr₃
  have hr₁ := Expr.failure_of_annotate rfl hr₂
  obtain ⟨h₁, tc, htc, hct⟩ := ihc hr rfl hr₁
  obtain ⟨h₂, ta, hta, hat⟩ := iha h₁ rfl hr₂
  obtain ⟨h₃, tb, htb, hbt⟩ := ihb h₂ rfl hr₃
  obtain ⟨hcb, hta', u, hu, hsame⟩ := TypeContext.typeOf_ifElse.mp ht
  obtain rfl := Option.some.inj (hta.symm.trans hta')
  obtain rfl := Option.some.inj (htb.symm.trans hu)
  have hsame : T.same ta tb = true := h₃.2 ▸ hsame
  have hsame := TypeTable.same_symm hT hsame
  exact ⟨h₃, ta, Expr.type_mapSite_some _ _,
    .ifElse (hct.of_has h₃.2 htc hcb) hat (.equal hsame hbt)⟩

theorem result (hT : T.Reachable) {site : ExprSite} {form : ResultForm} {v : Expr}
    (ihv : (Node.expr v).Annotated S T) : (Node.expr (.result site form v)).Annotated S T := by
  intro fn e' r r' hr h hr'
  have hnone := Expr.failure_of_annotate h hr'
  rw [Expr.annotate_result hnone] at h
  obtain ⟨rfl, hr₁, t, ht, rfl⟩ := Annotating.of_write h hr'
  obtain ⟨h₁, tv, htv, hvt⟩ := ihv hr rfl hr₁
  refine ⟨h₁, t, Expr.type_mapSite_some _ _, ?_⟩
  cases form with
  | fromFunction =>
    obtain ⟨ht', g, ts, q, rfl, hg, hsame⟩ := TypeContext.typeOf_returned.mp ht
    obtain rfl := Option.some.inj (htv.symm.trans ht')
    have hsame : T.same q tv = true := h₁.2 ▸ hsame
    exact .equal hsame (.returned (h₁.2 ▸ hg) (.equal (TypeTable.same_symm hT hsame) hvt))
  | fromBlock =>
    obtain rfl := Option.some.inj (htv.symm.trans (TypeContext.typeOf_yielded.mp ht))
    exact .yielded hvt

theorem noExpr : (Node.exprs []).Annotated S T := by
  intro fn es' r r' hr h hr'
  obtain ⟨rfl, rfl⟩ := Prod.mk.inj h
  exact ⟨hr, [], .nil, .noExpr⟩

theorem moreExprs {e : Expr} {es : List Expr} (ihe : (Node.expr e).Annotated S T)
    (ihes : (Node.exprs es).Annotated S T) : (Node.exprs (e :: es)).Annotated S T := by
  intro fn es' r r' hr h hr'
  obtain ⟨rfl, rfl⟩ := Prod.mk.inj h
  have hr₁ := Expr.failure_of_annotateAll rfl hr'
  obtain ⟨h₁, t, ht, het⟩ := ihe hr rfl hr₁
  obtain ⟨h₂, ts, hts, hest⟩ := ihes h₁ rfl hr'
  exact ⟨h₂, t :: ts, .cons ht hts, .moreExprs het hest⟩

theorem evaluated {site : Site} {e : Expr} (ihe : (Node.expr e).Annotated S T) :
    (Node.stmt (.expr site e)).Annotated S T := by
  intro fn s' r r' hr h hr'
  have hnone := Stmt.failure_of_annotate h hr'
  rw [Stmt.annotate_expr hnone] at h
  obtain ⟨rfl, rfl⟩ := Prod.mk.inj h
  obtain ⟨h₁, t, ht, het⟩ := ihe hr rfl hr'
  exact ⟨h₁, t, Expr.written_eq_ok.mpr ht, .evaluated het⟩

theorem assigned (hT : T.Reachable) {site : Site} {l e : Expr}
    (ihl : (Node.expr l).Annotated S T) (ihe : (Node.expr e).Annotated S T) :
    (Node.stmt (.assign site l e)).Annotated S T := by
  intro fn s' r r' hr h hr'
  have hnone := Stmt.failure_of_annotate h hr'
  rw [Stmt.annotate_assign hnone] at h
  obtain ⟨rfl, rfl⟩ := Prod.mk.inj h
  obtain ⟨hr₂, hcheck⟩ := Annotating.of_require hr'
  have hr₁ := Expr.failure_of_annotate rfl hr₂
  obtain ⟨h₁, tl, htl, hlt⟩ := ihl hr rfl hr₁
  obtain ⟨h₂, te, hte, het⟩ := ihe h₁ rfl hr₂
  obtain ⟨_, hcheck, hY⟩ := except_map_eq_ok.mp hcheck
  obtain ⟨k, s, t, v, hk, hs, hvar, ht, hv, hsame⟩ := TypeContext.checkAssignment_eq_ok.mp hcheck
  obtain rfl := Option.some.inj (hte.symm.trans hv)
  obtain ⟨hname, hsite⟩ := Expr.annotate_keeps fn l r
  rw [hname] at hk
  rw [hsite] at hs
  obtain ⟨rfl, rfl⟩ := h₂
  rw [Annotating.Over, ← hY]
  exact ⟨⟨rfl, rfl⟩, _, rfl,
    .assigned hk hs hvar ht hlt (.equal (TypeTable.same_symm hT hsame) het)⟩

theorem declared {site : Site} {d : Decl} (ihd : (Node.decl d).Annotated S T) :
    (Node.stmt (.decl site d)).Annotated S T := by
  intro fn s' r r' hr h hr'
  have hnone := Stmt.failure_of_annotate h hr'
  rw [Stmt.annotate_decl hnone] at h
  obtain ⟨rfl, rfl⟩ := Prod.mk.inj h
  obtain ⟨h₁, hdt⟩ := ihd hr rfl hr'
  exact ⟨h₁, TypeTable.unit, rfl, .declared hdt⟩

theorem noStmt : (Node.stmts []).Annotated S T := by
  intro fn ss' r r' hr h hr'
  obtain ⟨rfl, rfl⟩ := Prod.mk.inj h
  exact ⟨hr, TypeTable.unit, rfl, .noStmt⟩

theorem moreStmts {s : Stmt} {ss : List Stmt} (ihs : (Node.stmt s).Annotated S T)
    (ihss : (Node.stmts ss).Annotated S T) : (Node.stmts (s :: ss)).Annotated S T := by
  intro fn ss' r r' hr h hr'
  obtain ⟨rfl, rfl⟩ := Prod.mk.inj h
  have hr₁ := Stmt.failure_of_annotateAll rfl hr'
  obtain ⟨h₁, t, ht, hst⟩ := ihs hr rfl hr₁
  obtain ⟨h₂, u, hu, hsst⟩ := ihss h₁ rfl hr'
  cases ss with
  | nil => exact ⟨h₂, t, ht, .lastStmt hst⟩
  | cons s₂ ss =>
    exact ⟨h₂, u, (TypeContext.blockType_cons_cons _ _ _).trans hu, .moreStmts hst hsst⟩

theorem var (hT : T.Reachable) {site : Site} {n : Token} {g : Option TypeId} {e : Expr}
    {p : Position} (ihe : (Node.expr e).Annotated S T) :
    (Node.decl (.var site n g e p)).Annotated S T := by
  intro fn d' r r' hr h hr'
  have hnone := Decl.failure_of_annotate h hr'
  rw [Decl.annotate_var hnone] at h
  obtain ⟨rfl, rfl⟩ := Prod.mk.inj h
  obtain ⟨hr₁, hcheck⟩ := Annotating.of_require hr'
  obtain ⟨h₁, t, ht, het⟩ := ihe hr rfl hr₁
  obtain ⟨t', ht', hY⟩ := TypeContext.declareVar_eq_ok.mp hcheck
  obtain rfl := Option.some.inj (ht.symm.trans ht')
  rcases hY with ⟨u, rfl, hsame, hY⟩ | ⟨rfl, s, hs, hY⟩
  · rw [Annotating.Over, hY]
    have hsame : T.same u t = true := h₁.2 ▸ hsame
    exact ⟨h₁, .signedVar (.equal (TypeTable.same_symm hT hsame) het)⟩
  · rw [Annotating.Over, hY]
    exact ⟨h₁, .unsignedVar (h₁.1 ▸ hs) het⟩

theorem fn {site : Site} {n : Token} {g : Option TypeId} {ps : List Token} {e : Expr}
    (ihe : (Node.expr e).Annotated S T) : (Node.decl (.fn site n g ps e)).Annotated S T := by
  intro fn d' r r' hr h hr'
  have hnone := Decl.failure_of_annotate h hr'
  cases g with
  | none =>
    rw [Decl.annotate_unsigned hnone] at h
    obtain ⟨_, rfl⟩ := Prod.mk.inj h
    exact nomatch hr'
  | some g =>
    rw [Decl.annotate_signed hnone] at h
    obtain ⟨_, rfl⟩ := Prod.mk.inj h
    obtain ⟨h₁, t, _, het⟩ := ihe hr rfl hr'
    exact ⟨h₁, .fn het⟩

end Node.Annotated

theorem Node.hereditary_annotated (hT : T.Reachable) : Node.Hereditary (Node.Annotated S T) where
  leaf := @Node.Annotated.leaf S T
  binary := @Node.Annotated.binary S T
  unary := @Node.Annotated.unary S T
  call := @Node.Annotated.call S T hT
  block := @Node.Annotated.block S T
  ifThen := @Node.Annotated.ifThen S T
  ifElse := @Node.Annotated.ifElse S T hT
  result := @Node.Annotated.result S T hT
  noExpr := @Node.Annotated.noExpr S T
  moreExprs := @Node.Annotated.moreExprs S T
  evaluated := @Node.Annotated.evaluated S T
  assigned := @Node.Annotated.assigned S T hT
  declared := @Node.Annotated.declared S T
  noStmt := @Node.Annotated.noStmt S T
  moreStmts := @Node.Annotated.moreStmts S T
  var := @Node.Annotated.var S T hT
  fn := @Node.Annotated.fn S T

theorem Decl.typed_of_annotateAll (hT : T.Reachable) {fn : Option TypeId} {ds ds' : List Decl}
    {r r' : Annotating} (hr : r.Over S T) (h : Decl.annotateAll fn ds r = (ds', r'))
    (hr' : r'.failure = none) :
    Typed S T fn r.context.inferred (.decls ds) r'.context.inferred := by
  induction ds generalizing ds' r with
  | nil =>
    obtain ⟨_, rfl⟩ := Prod.mk.inj h
    exact .noDecl
  | cons d ds ih =>
    obtain ⟨_, rfl⟩ := Prod.mk.inj h
    have hr₁ := Decl.failure_of_annotateAll rfl hr'
    obtain ⟨h₁, hdt⟩ := (Node.hereditary_annotated hT).decl d hr rfl hr₁
    exact .moreDecls hdt (ih h₁ rfl)

end Soundness

end FrontEnd
