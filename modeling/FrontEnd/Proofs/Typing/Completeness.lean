import FrontEnd.Proofs.Grammar.Soundness
import FrontEnd.Proofs.Typing.Soundness
import FrontEnd.Scope.Stamping
import Mathlib

/-! A program that is well typed passes every check, whatever types were chosen for it. -/

namespace FrontEnd

/-- The same variables with equal types. -/
def Inferred.Agrees (T : TypeTable) (Γ Δ : Inferred) : Prop :=
  List.Forall₂ (fun x y => x.1 = y.1 ∧ T.same x.2 y.2 = true) Γ Δ

theorem Inferred.Agrees.lookup {T : TypeTable} {Γ Δ : Inferred} (h : Inferred.Agrees T Γ Δ)
    {s : SymbolId} {t : TypeId} (ht : Γ.lookup s = some t) :
    ∃ u, Δ.lookup s = some u ∧ T.same t u = true := by
  induction h with
  | nil => exact nomatch ht
  | @cons x y _ _ hxy _ ih =>
    obtain ⟨a, t'⟩ := x
    obtain ⟨b, u'⟩ := y
    obtain ⟨rfl, hsame⟩ := hxy
    rw [List.lookup_cons] at ht ⊢
    by_cases hs : (s == a) = true
    · rw [hs] at ht ⊢
      obtain rfl := Option.some.inj ht
      exact ⟨u', rfl, hsame⟩
    · rw [Bool.not_eq_true] at hs
      rw [hs] at ht ⊢
      exact ih ht

namespace Annotating

/-- The work goes on, with what is inferred up to equality. -/
structure Ready (S : ScopeTree) (T : TypeTable) (Γ : Inferred) (r : Annotating) : Prop where
  base : r.Over S T
  failure : r.failure = none
  agrees : Γ.Agrees T r.context.inferred

theorem Ready.hasType {S : ScopeTree} {T : TypeTable} {Γ : Inferred} {r : Annotating}
    (hr : Ready S T Γ r) {s : SymbolId} {t : TypeId} (ht : S.HasType Γ s t) :
    ∃ u, S.HasType r.context.inferred s u ∧ T.same t u = true := by
  obtain ⟨d, hd, hdeclared | ⟨hnone, hlookup⟩⟩ := ht
  · exact ⟨t, ⟨d, hd, .inl hdeclared⟩, TypeTable.same_refl T t⟩
  · obtain ⟨u, hu, hsame⟩ := hr.agrees.lookup hlookup
    exact ⟨u, ⟨d, hd, .inr ⟨hnone, hu⟩⟩, hsame⟩

theorem Ready.same_eq {S : ScopeTree} {T : TypeTable} {Γ : Inferred} {r : Annotating}
    (hr : Ready S T Γ r) (t u : TypeId) : r.context.same t u = T.same t u := by
  rw [TypeContext.same, hr.base.2]

theorem Ready.same_of_same {S : ScopeTree} {T : TypeTable} {Γ : Inferred} {r : Annotating}
    (hT : T.Reachable) (hr : Ready S T Γ r) {t u v : TypeId} (hu : T.same t u = true)
    (hv : T.same t v = true) : r.context.same u v = true := by
  rw [hr.same_eq]
  exact TypeTable.same_trans hT (TypeTable.same_symm hT hu) hv

theorem Ready.checkAssignment {S : ScopeTree} {T : TypeTable} {Γ : Inferred} {r : Annotating}
    (hT : T.Reachable) (hr : Ready S T Γ r) {l e : Expr} {k : Token} {s : SymbolId} {t v : TypeId}
    (hk : l.name? = some k) (hs : S.Names l.site.toSite k s)
    (hvar : (S.symbol? s).map Symbol.kind = some .var) (ht : S.HasType Γ s t)
    (he : e.type = some v) (hv : T.same t v = true) :
    r.context.checkAssignment l e = .ok () := by
  obtain ⟨u, hu, htu⟩ := hr.hasType ht
  have hsame := hr.same_of_same hT htu hv
  obtain ⟨rfl, -⟩ := hr.base
  exact TypeContext.checkAssignment_eq_ok.mpr ⟨k, s, u, v, hk, hs, hvar, hu, he, hsame⟩

theorem write_of_typeOf {r : Annotating} {fn : Option TypeId} {e : Expr} {t : TypeId}
    (hr : r.failure = none) (h : r.context.typeOf fn e = .ok t) :
    r.write fn e = (e.mapSite fun s => { s with type := some t }, r) := by
  simp [write, hr, h]

theorem require_of_ok {r : Annotating} {check : TypeContext → Except Diagnostic TypeContext}
    {X : TypeContext} (hr : r.failure = none) (h : check r.context = .ok X) :
    r.require check = { r with context := X } := by
  simp [require, hr, h]

end Annotating

open Annotating in
/-- What holds of a judgement is found again by the checks. -/
def Judgement.Found (S : ScopeTree) (T : TypeTable) (fn : Option TypeId) (Γ Δ : Inferred) :
    Judgement → Prop
  | .expr e t => ∀ r, Ready S T Γ r → ∃ e' r' u, e.annotate fn r = (e', r') ∧ Ready S T Δ r' ∧
      e'.type = some u ∧ T.same t u = true
  | .exprs es ts => ∀ r, Ready S T Γ r → ∃ es' r', Expr.annotateAll fn es r = (es', r') ∧
      Ready S T Δ r' ∧
        List.Forall₂ (fun t e => ∃ u, Expr.type e = some u ∧ T.same t u = true) ts es'
  | .stmt s t => ∀ r, Ready S T Γ r → ∃ s' r' u, s.annotate fn r = (s', r') ∧ Ready S T Δ r' ∧
      TypeContext.blockType [s'] = .ok u ∧ T.same t u = true
  | .stmts ss t => ∀ r, Ready S T Γ r → ∃ ss' r' u, Stmt.annotateAll fn ss r = (ss', r') ∧
      Ready S T Δ r' ∧ TypeContext.blockType ss' = .ok u ∧ T.same t u = true
  | .decl d => ∀ r, Ready S T Γ r → ∃ d' r', d.annotate fn r = (d', r') ∧ Ready S T Δ r'
  | .decls ds => ∀ r, Ready S T Γ r → ∃ ds' r', Decl.annotateAll fn ds r = (ds', r') ∧
      Ready S T Δ r'

section Completeness

variable {S : ScopeTree} {T : TypeTable}

open Annotating

theorem TypeContext.has_of_same {X : TypeContext} (hT : T.Reachable) (hX : X.types = T) {e : Expr}
    {t u : TypeId} (he : e.type = some u) (h : T.same t u = true) : X.Has e t := by
  refine ⟨u, he, ?_⟩
  rw [TypeContext.same, hX]
  exact TypeTable.same_symm hT h

theorem found_of_write {fn : Option TypeId} {Δ : Inferred} {e e₁ : Expr} {r r₁ : Annotating}
    {t u : TypeId} (he : e.annotate fn r = r₁.write fn e₁) (hr : Ready S T Δ r₁)
    (hu : r₁.context.typeOf fn e₁ = .ok u) (h : T.same t u = true) :
    ∃ e' r' u, e.annotate fn r = (e', r') ∧ Ready S T Δ r' ∧ e'.type = some u ∧
      T.same t u = true :=
  ⟨_, r₁, u, he.trans (write_of_typeOf hr.failure hu), hr, Expr.type_mapSite_some e₁ u, h⟩

theorem Typed.found (hT : T.Reachable) {fn : Option TypeId} {Γ Δ : Inferred} {j : Judgement}
    (h : Typed S T fn Γ j Δ) : j.Found S T fn Γ Δ := by
  induction h with
  | equal h _ ih =>
    intro r hr
    obtain ⟨e', r', u, he, hr', hu, hsame⟩ := ih r hr
    exact ⟨e', r', u, he, hr', hu, TypeTable.same_trans hT (TypeTable.same_symm hT h) hsame⟩
  | @number _ _ site form k hk | @string _ _ site form k hk =>
    intro r hr
    refine found_of_write (by rw [Expr.annotate_leaf hr.failure]) hr ?_
      (TypeTable.same_refl T _)
    simp only [TypeContext.typeOf, TypeContext.leafType, hk]
    rfl
  | truth hk =>
    intro r hr
    refine found_of_write (by rw [Expr.annotate_leaf hr.failure]) hr ?_
      (TypeTable.same_refl T _)
    rcases hk with hk | hk <;> simp only [TypeContext.typeOf, TypeContext.leafType, hk] <;> rfl
  | @name _ Γ site form k s t hk hs ht =>
    intro r hr
    obtain ⟨u, hu, hsame⟩ := hr.hasType ht
    obtain ⟨rfl, rfl⟩ := hr.base
    refine found_of_write (by rw [Expr.annotate_leaf hr.failure]) hr ?_ hsame
    simp only [TypeContext.typeOf, TypeContext.leafType, hk]
    exact bind_eq_ok.mpr ⟨s, TypeContext.resolve_eq_ok.mpr hs,
      (TypeContext.symbolType_eq_ok hs).mpr hu⟩
  | comparison _ _ iha ihb | arithmetic _ _ iha ihb =>
    intro r hr
    obtain ⟨a', r₁, ta, ha, h₁, hta, hsa⟩ := iha r hr
    obtain ⟨b', r₂, tb, hb, h₂, htb, hsb⟩ := ihb r₁ h₁
    refine found_of_write (by simp only [Expr.annotate_binary hr.failure, ha, hb]; rfl) h₂ ?_
      (TypeTable.same_refl T _)
    exact TypeContext.typeOf_binary.mpr ⟨TypeContext.has_of_same hT h₂.base.2 hta hsa,
      TypeContext.has_of_same hT h₂.base.2 htb hsb, rfl⟩
  | unary _ ih =>
    intro r hr
    obtain ⟨a', r₁, ta, ha, h₁, hta, hsa⟩ := ih r hr
    refine found_of_write (by simp only [Expr.annotate_unary hr.failure, ha]; rfl) h₁ ?_
      (TypeTable.same_refl T _)
    exact TypeContext.typeOf_unary.mpr ⟨TypeContext.has_of_same hT h₁.base.2 hta hsa, rfl⟩
  | call hg _ _ ihf ihas =>
    intro r hr
    obtain ⟨f', r₁, g', hf, h₁, hg', hsame⟩ := ihf r hr
    obtain ⟨as', r₂, has, h₂, hts⟩ := ihas r₁ h₁
    obtain ⟨ps, q, hfun, hps, hq⟩ := TypeTable.function?_of_same hT hsame hg
    refine found_of_write (by simp only [Expr.annotate_call hr.failure, hf, has]; rfl) h₂ ?_ hq
    refine (TypeContext.typeOf_call ?_).mpr ⟨g', ps, hg', h₂.base.2 ▸ hfun, ?_⟩
    · intro e he
      obtain ⟨t, u, hu, _⟩ := exists_of_mem_forall₂ hts.flip he
      rw [hu, Option.isSome_some]
    · refine forall₂_comp ?_ hps.flip hts
      rintro p t e htp ⟨u, hu, htu⟩ v hv
      obtain rfl := Option.some.inj (hu.symm.trans hv)
      exact h₂.same_of_same hT htp htu
  | @block fn _ _ site _ _ _ ih =>
    intro r hr
    obtain ⟨ss', r₁, u, hss, h₁, hu, hsame⟩ := ih r hr
    have hblock : r₁.context.typeOf fn (.block site ss') = .ok u := hu
    exact found_of_write (by simp only [Expr.annotate_block hr.failure, hss]) h₁ hblock hsame
  | ifThen _ _ ihc iha =>
    intro r hr
    obtain ⟨c', r₁, tc, hc, h₁, htc, hsc⟩ := ihc r hr
    obtain ⟨a', r₂, ta, ha, h₂, hta, _⟩ := iha r₁ h₁
    refine found_of_write (by simp only [Expr.annotate_ifThen hr.failure, hc, ha]; rfl) h₂ ?_
      (TypeTable.same_refl T _)
    exact TypeContext.typeOf_ifThen.mpr ⟨TypeContext.has_of_same hT h₂.base.2 htc hsc,
      by rw [hta, Option.isSome_some], rfl⟩
  | ifElse _ _ _ ihc iha ihb =>
    intro r hr
    obtain ⟨c', r₁, tc, hc, h₁, htc, hsc⟩ := ihc r hr
    obtain ⟨a', r₂, ta, ha, h₂, hta, hsa⟩ := iha r₁ h₁
    obtain ⟨b', r₃, tb, hb, h₃, htb, hsb⟩ := ihb r₂ h₂
    refine found_of_write (by simp only [Expr.annotate_ifElse hr.failure, hc, ha, hb]; rfl) h₃ ?_
      hsa
    exact TypeContext.typeOf_ifElse.mpr
      ⟨TypeContext.has_of_same hT h₃.base.2 htc hsc, hta, tb, htb, h₃.same_of_same hT hsa hsb⟩
  | @returned g _ ts _ _ _ _ hg _ ih =>
    intro r hr
    obtain ⟨v', r₁, tv, hv, h₁, htv, hsame⟩ := ih r hr
    refine found_of_write (by simp only [Expr.annotate_result hr.failure, hv]; rfl) h₁ ?_ hsame
    refine TypeContext.typeOf_returned.mpr ⟨htv, g, ts, _, rfl, h₁.base.2 ▸ hg, ?_⟩
    rw [h₁.same_eq]
    exact hsame
  | yielded _ ih =>
    intro r hr
    obtain ⟨v', r₁, tv, hv, h₁, htv, hsame⟩ := ih r hr
    refine found_of_write (by simp only [Expr.annotate_result hr.failure, hv]; rfl) h₁ ?_ hsame
    exact TypeContext.typeOf_yielded.mpr htv
  | noExpr => exact fun r hr => ⟨[], r, rfl, hr, .nil⟩
  | moreExprs _ _ ihe ihes =>
    intro r hr
    obtain ⟨e', r₁, u, he, h₁, hu, hsame⟩ := ihe r hr
    obtain ⟨es', r₂, hes, h₂, hus⟩ := ihes r₁ h₁
    exact ⟨e' :: es', r₂, by simp only [Expr.annotateAll_cons, he, hes], h₂,
      .cons ⟨u, hu, hsame⟩ hus⟩
  | @evaluated _ _ _ site _ _ _ ih =>
    intro r hr
    obtain ⟨e', r₁, u, he, h₁, hu, hsame⟩ := ih r hr
    exact ⟨.expr site e', r₁, u, by simp only [Stmt.annotate_expr hr.failure, he], h₁,
      Expr.written_eq_ok.mpr hu, hsame⟩
  | @assigned fn _ _ _ site l e k s t u hk hs hvar ht _ _ ihl ihe =>
    intro r hr
    obtain ⟨l', r₁, tl, hl, h₁, htl, _⟩ := ihl r hr
    obtain ⟨e', r₂, te, he, h₂, hte, hsame⟩ := ihe r₁ h₁
    -- the target is looked up again, by the token and the scope it had before
    have hkeeps := Expr.annotate_keeps fn l r
    rw [hl] at hkeeps
    have hcheck : r₂.context.checkAssignment l' e' = .ok () :=
      h₂.checkAssignment hT (hkeeps.1.trans hk) (hkeeps.2 ▸ hs) hvar ht hte hsame
    have hrequire : (r₂.require fun X => (X.checkAssignment l' e').map fun _ => X) = r₂ :=
      require_of_ok h₂.failure (except_map_eq_ok.mpr ⟨(), hcheck, rfl⟩)
    refine ⟨.assign site l' e', r₂, TypeTable.unit, ?_, h₂, rfl, TypeTable.same_refl T _⟩
    simp only [Stmt.annotate_assign hr.failure, hl, he, hrequire]
  | declared _ ih =>
    intro r hr
    obtain ⟨d', r₁, hd, h₁⟩ := ih r hr
    exact ⟨_, r₁, TypeTable.unit, by simp only [Stmt.annotate_decl hr.failure, hd]; rfl, h₁, rfl,
      TypeTable.same_refl T _⟩
  | noStmt => exact fun r hr => ⟨[], r, TypeTable.unit, rfl, hr, rfl, TypeTable.same_refl T _⟩
  | lastStmt _ ih =>
    intro r hr
    obtain ⟨s', r₁, u, hs, h₁, hu, hsame⟩ := ih r hr
    exact ⟨[s'], r₁, u, by simp only [Stmt.annotateAll_cons, hs]; rfl, h₁, hu, hsame⟩
  | moreStmts _ _ ihs ihss =>
    intro r hr
    obtain ⟨s', r₁, _, hs, h₁, _⟩ := ihs r hr
    obtain ⟨ss', r₂, u, hss, h₂, hu, hsame⟩ := ihss r₁ h₁
    refine ⟨s' :: ss', r₂, u, by rw [Stmt.annotateAll_cons, hs]; simp only [hss], h₂, ?_, hsame⟩
    obtain ⟨rfl, _⟩ := Prod.mk.inj hss
    exact (TypeContext.blockType_cons_cons _ _ _).trans hu
  | @signedVar _ _ _ site n g e p _ ih =>
    intro r hr
    obtain ⟨e', r₁, u, he, h₁, hu, hsame⟩ := ih r hr
    have hdeclare : r₁.context.declareVar site n (some g) e' = .ok r₁.context := by
      refine TypeContext.declareVar_eq_ok.mpr ⟨u, hu, .inl ⟨g, rfl, ?_, rfl⟩⟩
      rw [h₁.same_eq]
      exact hsame
    have hrequire : (r₁.require fun X => X.declareVar site n (some g) e') = r₁ :=
      require_of_ok h₁.failure hdeclare
    refine ⟨.var site n (some g) e' p, r₁, ?_, h₁⟩
    simp only [Decl.annotate_var hr.failure, he, hrequire]
  | @unsignedVar _ _ Δ site n e p s t hs _ ih =>
    intro r hr
    obtain ⟨e', r₁, u, he, h₁, hu, hsame⟩ := ih r hr
    let X := { r₁.context with inferred := (s, u) :: r₁.context.inferred }
    have hdeclare : r₁.context.declareVar site n none e' = .ok X :=
      TypeContext.declareVar_eq_ok.mpr ⟨u, hu, .inr ⟨rfl, s, h₁.base.1 ▸ hs, rfl⟩⟩
    have hrequire : (r₁.require fun X => X.declareVar site n none e') = { r₁ with context := X } :=
      require_of_ok h₁.failure hdeclare
    have hagrees : Inferred.Agrees T ((s, t) :: Δ) X.inferred := .cons ⟨rfl, hsame⟩ h₁.agrees
    refine ⟨.var site n none e' p, { r₁ with context := X }, ?_, h₁.base, h₁.failure, hagrees⟩
    simp only [Decl.annotate_var hr.failure, he, hrequire]
  | fn _ ih =>
    intro r hr
    obtain ⟨e', r₁, _, he, h₁, _⟩ := ih r hr
    exact ⟨_, r₁, by simp only [Decl.annotate_signed hr.failure, he]; rfl, h₁⟩
  | noDecl => exact fun r hr => ⟨[], r, rfl, hr⟩
  | moreDecls _ _ ihd ihds =>
    intro r hr
    obtain ⟨d', r₁, hd, h₁⟩ := ihd r hr
    obtain ⟨ds', r₂, hds, h₂⟩ := ihds r₁ h₁
    exact ⟨d' :: ds', r₂, by simp only [Decl.annotateAll_cons, hd, hds], h₂⟩

end Completeness

/-- The types of a program are found exactly if there are any that make it well typed. -/
theorem Program.annotate_ok_iff_typed {S : ScopeTree} {T : TypeTable} (hT : T.Reachable)
    (p : Program) :
    (p.annotate S T).2 = none ↔ ∃ Γ, Typed S T none [] (.decls p.decls) Γ := by
  constructor
  · intro h
    exact ⟨_, Decl.typed_of_annotateAll hT ⟨rfl, rfl⟩ rfl h⟩
  · rintro ⟨Γ, h⟩
    obtain ⟨ds', r', hds, hr'⟩ :=
      h.found hT { context := { scopes := S, types := T } } ⟨⟨rfl, rfl⟩, rfl, .nil⟩
    have hfailure := hr'.failure
    simp only [Program.annotate, hds]
    exact hfailure

/-- A variable without a signature that is called with a type entered on its own. -/
theorem exists_typed_of_inferred_callee :
    ∃ p T, Program.parse
        "of [*Int] -> Int fun f(a) = 1; var g = f; of *Int var b = b; var c = g(b);" .initial =
          (.ok p, T) ∧ T.Reachable ∧
      ∃ Γ, Typed (p.buildScopes T .empty).2.tree T none []
        (.decls (p.buildScopes T .empty).1.decls) Γ := by
  have h : match Program.parse
      "of [*Int] -> Int fun f(a) = 1; var g = f; of *Int var b = b; var c = g(b);" .initial with
    | (.ok p, T) => ((p.buildScopes T .empty).1.annotate (p.buildScopes T .empty).2.tree T).2 = none
    | _ => False := by cbv
  split at h
  next p T hp =>
    obtain ⟨_, _, _, hT⟩ := Program.reads_of_parse hp
    exact ⟨p, T, hp, hT .initial, (Program.annotate_ok_iff_typed (hT .initial) _).mp h⟩
  next => exact h.elim

end FrontEnd
