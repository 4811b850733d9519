import Mathlib
import FrontEnd.Compilation
import FrontEnd.Proofs.Grammar.Soundness
import FrontEnd.Proofs.Scope.Stamped
import FrontEnd.Proofs.Syntax.Visits
import FrontEnd.Proofs.Typing.Soundness

/-! What functions hand back. A value that is returned has the type that the signature promises, and
so has a body that ends in a return. The type of any other body is compared with nothing. -/

namespace FrontEnd

variable {S : ScopeTree} {T : TypeTable} {k : Surroundings} {fn : Option TypeId}
  {r r' : Annotating} {e e' : Expr}

/-- What is evaluated last in the expression is a `return`, at least in one branch. -/
inductive Expr.EndsInReturn : Expr → Prop
  | returned {site : ExprSite} {e : Expr} : EndsInReturn (.result site .fromFunction e)
  | yielded {site : ExprSite} {e : Expr} :
      EndsInReturn e → EndsInReturn (.result site .fromBlock e)
  | block {site : ExprSite} {ss : List Stmt} {s : Site} {e : Expr}
      (hs : ss.getLast? = some (.expr s e)) : EndsInReturn e → EndsInReturn (.block site ss)
  | thenBranch {site : ExprSite} {c a b : Expr} :
      EndsInReturn a → EndsInReturn (.ifElse site c a b)
  | elseBranch {site : ExprSite} {c a b : Expr} :
      EndsInReturn b → EndsInReturn (.ifElse site c a b)

/-- A value of type `t` can be handed back by a function with the signature `g`. -/
def TypeTable.Answers (T : TypeTable) (g t : TypeId) : Prop :=
  ∃ as r, T.function? g = some (as, r) ∧ T.same r t = true

/-- What the types of a function with parameters `ps` have to do with its signature. -/
structure TypeTable.Keeps (T : TypeTable) (g : Option TypeId) (ps : List Token) (body : Expr) :
    Prop where
  fits : T.Fits g ps.length
  typed : ∃ f t, g = some f ∧ body.type = some t ∧ (body.EndsInReturn → T.Answers f t)

/-- The type on an expression is the one that the types on its parts give. -/
def Visit.Checked (S : ScopeTree) (T : TypeTable) (v : Visit) : Prop :=
  match v.node with
  | .expr e => ∃ (X : TypeContext) (t : TypeId), X.scopes = S ∧ X.types = T ∧ e.type = some t ∧
      X.typeOf v.around.function.join e = .ok t
  | .decl (.fn _ _ g ps body) => T.Keeps g ps body
  | _ => True

namespace Expr

theorem typeOf_mapSite (X : TypeContext) (fn : Option TypeId) (e : Expr) (t : TypeId) :
    X.typeOf fn (e.mapSite fun s => { s with type := some t }) = X.typeOf fn e := by
  cases e <;> rfl

theorem visits_mapSite (k : Surroundings) (e : Expr) (f : ExprSite → ExprSite) :
    (e.mapSite f).visits k = ⟨k, .expr (e.mapSite f)⟩ :: (e.visits k).tail := by
  cases e <;> rfl

theorem over_of_annotate (hT : T.Reachable) (hr : r.Over S T) (h : e.annotate fn r = (e', r'))
    (hr' : r'.failure = none) : r'.Over S T :=
  ((Node.hereditary_annotated hT).expr e hr h hr').1

/-- Once the type of an expression is written, the expression is checked if its parts are. -/
theorem checked_of_write (h : r.write fn e = (e', r')) (hr' : r'.failure = none)
    (hr : r.Over S T) (hk : k.function.join = fn)
    (hparts : ∀ v ∈ (e.visits k).tail, v.Checked S T) : ∀ v ∈ e'.visits k, v.Checked S T := by
  obtain ⟨rfl, _, t, ht, rfl⟩ := Annotating.of_write h hr'
  rw [visits_mapSite, List.forall_mem_cons]
  refine ⟨⟨r'.context, t, hr.1, hr.2, type_mapSite_some e t, ?_⟩, hparts⟩
  rw [typeOf_mapSite, hk, ht]

end Expr

theorem Stmt.over_of_annotate (hT : T.Reachable) {s s' : Stmt} (hr : r.Over S T)
    (h : s.annotate fn r = (s', r')) (hr' : r'.failure = none) : r'.Over S T :=
  ((Node.hereditary_annotated hT).stmt s hr h hr').1

theorem Decl.over_of_annotate (hT : T.Reachable) {d d' : Decl} (hr : r.Over S T)
    (h : d.annotate fn r = (d', r')) (hr' : r'.failure = none) : r'.Over S T :=
  ((Node.hereditary_annotated hT).decl d hr h hr').1

theorem Stmt.visits_of_mem {s : Stmt} {ss : List Stmt} (hs : s ∈ ss) (k : Surroundings) :
    ∃ l : Surroundings, l.function = k.function ∧ s.visits l ⊆ Stmt.visitsAll k ss := by
  induction ss generalizing k with
  | nil => exact nomatch hs
  | cons s' ss ih =>
    rw [Stmt.visitsAll]
    rcases List.mem_cons.mp hs with rfl | hs
    · exact ⟨k, rfl, List.subset_append_left _ _⟩
    · obtain ⟨l, hl, hsub⟩ := ih hs (k.after s'.opened)
      exact ⟨l, hl, List.subset_append_of_subset_right _ hsub⟩

/-- The type of an expression that ends in a return is the promised one, since the branches of a
condition and the last statement of a block hand their types on. -/
theorem Expr.answers_of_endsInReturn (hT : T.Reachable) {g : TypeId} (h : e.EndsInReturn)
    (hk : k.function = some (some g)) (hv : ∀ v ∈ e.visits k, v.Checked S T) :
    ∃ t, e.type = some t ∧ T.Answers g t := by
  induction h generalizing k with
  | returned =>
    obtain ⟨X, t, _, hX, ht, htype⟩ := hv _ List.mem_cons_self
    obtain ⟨_, g', ts, r, hg, hfun, hsame⟩ := TypeContext.typeOf_returned.mp htype
    rw [hk] at hg
    obtain rfl := Option.some.inj hg
    exact ⟨t, ht, ts, r, hX ▸ hfun, hX ▸ hsame⟩
  | yielded _ ih =>
    obtain ⟨X, t, _, _, ht, htype⟩ := hv _ List.mem_cons_self
    obtain ⟨u, hu, hanswers⟩ := ih hk fun v hmem => hv v (List.mem_cons_of_mem _ hmem)
    have hvalue := TypeContext.typeOf_yielded.mp htype
    obtain rfl := Option.some.inj (hvalue.symm.trans hu)
    exact ⟨t, ht, hanswers⟩
  | @block site ss s e hs _ ih =>
    obtain ⟨X, t, _, _, ht, htype⟩ := hv _ List.mem_cons_self
    obtain ⟨l, hl, hsub⟩ := Stmt.visits_of_mem (List.mem_of_getLast? hs) k.inBlock
    obtain ⟨u, hu, hanswers⟩ := ih (hl.trans hk) fun v hmem =>
      hv v (List.mem_cons_of_mem _ (hsub (List.mem_cons_of_mem _ hmem)))
    have hlast : e.written = .ok t := by
      simpa only [TypeContext.typeOf, TypeContext.blockType, hs] using htype
    obtain rfl := Option.some.inj ((written_eq_ok.mp hlast).symm.trans hu)
    exact ⟨t, ht, hanswers⟩
  | @thenBranch site c a b _ ih =>
    obtain ⟨X, t, _, _, ht, htype⟩ := hv _ List.mem_cons_self
    obtain ⟨_, hthen, _⟩ := TypeContext.typeOf_ifElse.mp htype
    obtain ⟨u, hu, hanswers⟩ := ih (k := k.after c.opened) hk fun v hmem =>
      hv v (by simp [Expr.visits, hmem])
    obtain rfl := Option.some.inj (hthen.symm.trans hu)
    exact ⟨t, ht, hanswers⟩
  | @elseBranch site c a b _ ih =>
    obtain ⟨X, t, _, hX, ht, htype⟩ := hv _ List.mem_cons_self
    obtain ⟨_, _, u, helse, hsame⟩ := TypeContext.typeOf_ifElse.mp htype
    obtain ⟨u', hu', ts, r, hfun, hresult⟩ := ih (k := (k.after c.opened).after a.opened) hk
      fun v hmem => hv v (by simp [Expr.visits, hmem])
    obtain rfl := Option.some.inj (helse.symm.trans hu')
    have hbranches : T.same t u = true := hX ▸ hsame
    exact ⟨t, ht, ts, r, hfun,
      TypeTable.same_trans hT hresult (TypeTable.same_symm hT hbranches)⟩

/-- Annotating a node without a failure leaves every node in it checked. -/
def Node.LeavesChecked (S : ScopeTree) (T : TypeTable) : Node → Prop
  | .expr e => ∀ ⦃fn e' r r' k⦄, Annotating.Over S T r → e.annotate fn r = (e', r') →
      r'.failure = none → Option.join (Surroundings.function k) = fn →
        ∀ v ∈ e'.visits k, v.Checked S T
  | .exprs es => ∀ ⦃fn es' r r' k⦄, Annotating.Over S T r → Expr.annotateAll fn es r = (es', r') →
      r'.failure = none → Option.join (Surroundings.function k) = fn →
        ∀ v ∈ Expr.visitsAll k es', v.Checked S T
  | .stmt s => ∀ ⦃fn s' r r' k⦄, Annotating.Over S T r → s.annotate fn r = (s', r') →
      r'.failure = none → Option.join (Surroundings.function k) = fn →
        ∀ v ∈ s'.visits k, v.Checked S T
  | .stmts ss => ∀ ⦃fn ss' r r' k⦄, Annotating.Over S T r → Stmt.annotateAll fn ss r = (ss', r') →
      r'.failure = none → Option.join (Surroundings.function k) = fn →
        ∀ v ∈ Stmt.visitsAll k ss', v.Checked S T
  | .decl d => ∀ ⦃fn d' r r' k⦄, Annotating.Over S T r → d.annotate fn r = (d', r') →
      r'.failure = none → Option.join (Surroundings.function k) = fn →
        ∀ v ∈ d'.visits k, v.Checked S T
  | .decls ds => ∀ ⦃fn ds' r r' k⦄, Annotating.Over S T r → Decl.annotateAll fn ds r = (ds', r') →
      r'.failure = none → Option.join (Surroundings.function k) = fn →
        ∀ v ∈ Decl.visitsAll k ds', v.Checked S T
  | _ => True

theorem Placed.leavesChecked (hT : T.Reachable) {c : ScopeId} {g : Bool} {w : List Token} {a : Node}
    (h : Placed S T c g w a) : a.LeavesChecked S T := by
  induction h with
  | among _ _ ih => exact ih
  | noExpr | noStmt | noDecl =>
    intro fn as' r r' k hr h hr' hk
    obtain ⟨rfl, _⟩ := Prod.mk.inj h
    exact fun v hv => nomatch hv
  | literal _ _ =>
    intro fn e' r r' k hr h hr' hk
    rw [Expr.annotate_leaf (Expr.failure_of_annotate h hr')] at h
    exact Expr.checked_of_write h hr' hr hk fun v hv => nomatch hv
  | @binary _ _ _ _ _ _ _ a b _ _ iha ihb =>
    intro fn e' r r' k hr h hr' hk
    rw [Expr.annotate_binary (Expr.failure_of_annotate h hr')] at h
    have hr₂ := Expr.failure_of_write h hr'
    have hr₁ := Expr.failure_of_annotate rfl hr₂
    have h₁ := Expr.over_of_annotate hT hr rfl hr₁
    have h₂ := Expr.over_of_annotate hT h₁ rfl hr₂
    exact Expr.checked_of_write h hr' h₂ hk (List.forall_mem_append.mpr
      ⟨iha hr rfl hr₁ hk, ihb h₁ rfl hr₂ hk⟩)
  | @unary _ _ _ _ _ a _ ih =>
    intro fn e' r r' k hr h hr' hk
    rw [Expr.annotate_unary (Expr.failure_of_annotate h hr')] at h
    have hr₁ := Expr.failure_of_write h hr'
    have h₁ := Expr.over_of_annotate hT hr rfl hr₁
    exact Expr.checked_of_write h hr' h₁ hk (ih hr rfl hr₁ hk)
  | @call _ _ _ _ _ f as _ _ ihf ihas =>
    intro fn e' r r' k hr h hr' hk
    rw [Expr.annotate_call (Expr.failure_of_annotate h hr')] at h
    have hr₂ := Expr.failure_of_write h hr'
    have hr₁ := Expr.failure_of_annotateAll rfl hr₂
    have h₁ := Expr.over_of_annotate hT hr rfl hr₁
    have h₂ := ((Node.hereditary_annotated hT).exprs as h₁ rfl hr₂).1
    exact Expr.checked_of_write h hr' h₂ hk (List.forall_mem_append.mpr
      ⟨ihf hr rfl hr₁ hk, ihas h₁ rfl hr₂ hk⟩)
  | @block _ _ _ _ _ ss _ _ ih =>
    intro fn e' r r' k hr h hr' hk
    rw [Expr.annotate_block (Expr.failure_of_annotate h hr')] at h
    have hr₁ := Expr.failure_of_write h hr'
    have h₁ := ((Node.hereditary_annotated hT).stmts ss hr rfl hr₁).1
    exact Expr.checked_of_write h hr' h₁ hk (ih (k := k.inBlock) hr rfl hr₁ hk)
  | @ifThen _ _ _ _ _ c a _ _ ihc iha =>
    intro fn e' r r' k hr h hr' hk
    rw [Expr.annotate_ifThen (Expr.failure_of_annotate h hr')] at h
    have hr₂ := Expr.failure_of_write h hr'
    have hr₁ := Expr.failure_of_annotate rfl hr₂
    have h₁ := Expr.over_of_annotate hT hr rfl hr₁
    have h₂ := Expr.over_of_annotate hT h₁ rfl hr₂
    exact Expr.checked_of_write h hr' h₂ hk (List.forall_mem_append.mpr
      ⟨ihc hr rfl hr₁ hk, iha h₁ rfl hr₂ hk⟩)
  | @ifElse _ _ _ _ _ _ c a b _ _ _ ihc iha ihb =>
    intro fn e' r r' k hr h hr' hk
    rw [Expr.annotate_ifElse (Expr.failure_of_annotate h hr')] at h
    have hr₃ := Expr.failure_of_write h hr'
    have hr₂ := Expr.failure_of_annotate rfl hr₃
    have hr₁ := Expr.failure_of_annotate rfl hr₂
    have h₁ := Expr.over_of_annotate hT hr rfl hr₁
    have h₂ := Expr.over_of_annotate hT h₁ rfl hr₂
    have h₃ := Expr.over_of_annotate hT h₂ rfl hr₃
    exact Expr.checked_of_write h hr' h₃ hk (List.forall_mem_append.mpr
      ⟨ihc hr rfl hr₁ hk, List.forall_mem_append.mpr
        ⟨iha h₁ rfl hr₂ hk, ihb h₂ rfl hr₃ hk⟩⟩)
  | @result _ _ _ _ _ a _ ih =>
    intro fn e' r r' k hr h hr' hk
    rw [Expr.annotate_result (Expr.failure_of_annotate h hr')] at h
    have hr₁ := Expr.failure_of_write h hr'
    have h₁ := Expr.over_of_annotate hT hr rfl hr₁
    exact Expr.checked_of_write h hr' h₁ hk (ih hr rfl hr₁ hk)
  | @moreExprs _ _ _ _ e es _ _ ihe ihes =>
    intro fn es' r r' k hr h hr' hk
    obtain ⟨rfl, rfl⟩ := Prod.mk.inj h
    have hr₁ := Expr.failure_of_annotateAll rfl hr'
    have h₁ := Expr.over_of_annotate hT hr rfl hr₁
    exact List.forall_mem_append.mpr ⟨ihe hr rfl hr₁ hk, ihes h₁ rfl hr' hk⟩
  | @moreStmts _ _ _ _ s ss _ _ ihs ihss =>
    intro fn ss' r r' k hr h hr' hk
    obtain ⟨rfl, rfl⟩ := Prod.mk.inj h
    have hr₁ := Stmt.failure_of_annotateAll rfl hr'
    have h₁ := Stmt.over_of_annotate hT hr rfl hr₁
    exact List.forall_mem_append.mpr ⟨ihs hr rfl hr₁ hk, ihss h₁ rfl hr' hk⟩
  | @moreDecls _ _ _ _ d ds _ _ ihd ihds =>
    intro fn ds' r r' k hr h hr' hk
    obtain ⟨rfl, rfl⟩ := Prod.mk.inj h
    have hr₁ := Decl.failure_of_annotateAll rfl hr'
    have h₁ := Decl.over_of_annotate hT hr rfl hr₁
    exact List.forall_mem_append.mpr ⟨ihd hr rfl hr₁ hk, ihds h₁ rfl hr' hk⟩
  | @evaluated _ _ _ _ e _ ih =>
    intro fn s' r r' k hr h hr' hk
    rw [Stmt.annotate_expr (Stmt.failure_of_annotate h hr')] at h
    obtain ⟨rfl, rfl⟩ := Prod.mk.inj h
    exact List.forall_mem_cons.mpr ⟨trivial, ih hr rfl hr' hk⟩
  | @declared _ _ _ _ d _ ih =>
    intro fn s' r r' k hr h hr' hk
    rw [Stmt.annotate_decl (Stmt.failure_of_annotate h hr')] at h
    obtain ⟨rfl, rfl⟩ := Prod.mk.inj h
    exact List.forall_mem_cons.mpr ⟨trivial, ih hr rfl hr' hk⟩
  | @assigned _ _ _ _ _ l e _ _ _ ihl ihe =>
    intro fn s' r r' k hr h hr' hk
    rw [Stmt.annotate_assign (Stmt.failure_of_annotate h hr')] at h
    obtain ⟨rfl, rfl⟩ := Prod.mk.inj h
    have hr₂ := (Annotating.of_require hr').1
    have hr₁ := Expr.failure_of_annotate rfl hr₂
    have h₁ := Expr.over_of_annotate hT hr rfl hr₁
    exact List.forall_mem_cons.mpr ⟨trivial, List.forall_mem_append.mpr
      ⟨ihl hr rfl hr₁ hk, ihe h₁ rfl hr₂ hk⟩⟩
  | @var _ _ _ _ _ _ _ e _ _ _ ih =>
    intro fn d' r r' k hr h hr' hk
    rw [Decl.annotate_var (Decl.failure_of_annotate h hr')] at h
    obtain ⟨rfl, rfl⟩ := Prod.mk.inj h
    have hr₁ := (Annotating.of_require hr').1
    exact List.forall_mem_append.mpr ⟨ih hr rfl hr₁ hk, List.forall_mem_singleton.mpr trivial⟩
  | @fn _ _ _ _ _ g ps _ e _ hfits _ _ _ ih =>
    intro fn d' r r' k hr h hr' hk
    cases g with
    | none =>
      rw [Decl.annotate_unsigned (Decl.failure_of_annotate h hr')] at h
      obtain ⟨_, rfl⟩ := Prod.mk.inj h
      exact nomatch hr'
    | some g =>
      rw [Decl.annotate_signed (Decl.failure_of_annotate h hr')] at h
      obtain ⟨rfl, rfl⟩ := Prod.mk.inj h
      have hbody := ih (k := k.inFunction (some g)) hr rfl hr' rfl
      obtain ⟨_, t, ht, _⟩ := (Node.hereditary_annotated hT).expr e hr rfl hr'
      refine List.forall_mem_cons.mpr ⟨⟨hfits, g, t, rfl, ht, fun hends => ?_⟩, hbody⟩
      obtain ⟨u, hu, hanswers⟩ := Expr.answers_of_endsInReturn hT hends rfl hbody
      obtain rfl := Option.some.inj (ht.symm.trans hu)
      exact hanswers

/-- A function keeps to its signature as far as its body ends in a return; what is returned anywhere
in it can be handed back by it; and a call has the type that the signature of what is called
promises. -/
def Visit.KeepsResults (T : TypeTable) (v : Visit) : Prop :=
  match v.node with
  | .decl (.fn _ _ g ps body) => T.Keeps g ps body
  | .expr (.result _ .fromFunction e) =>
    ∃ g t, v.around.function = some (some g) ∧ e.type = some t ∧ T.Answers g t
  | .expr (.call site f _) =>
    ∃ g ts r, f.type = some g ∧ T.function? g = some (ts, r) ∧ site.type = some r
  | _ => True

theorem TypeContext.function?_of_callType {X : TypeContext} {site : ExprSite} {f : Expr}
    {as : List Expr} {t : TypeId} (h : X.callType site f as = .ok t) :
    ∃ g ts, f.type = some g ∧ X.types.function? g = some (ts, t) := by
  unfold callType at h
  obtain ⟨g, hg, h⟩ := bind_eq_ok.mp h
  split at h
  next => exact nomatch h
  next ts r hfun =>
    obtain ⟨_, h⟩ := ite_eq_ok.mp h
    obtain ⟨_, _, hr⟩ := bind_eq_ok.mp h
    obtain rfl := pure_eq_ok.mp hr
    exact ⟨g, ts, Expr.written_eq_ok.mp hg, hfun⟩

theorem Visit.Checked.keepsResults {v : Visit} (h : v.Checked S T) : v.KeepsResults T := by
  obtain ⟨k, a⟩ := v
  cases a with
  | decl d => cases d <;> exact h
  | expr e =>
    cases e with
    | result site form e =>
      obtain ⟨X, t, _, rfl, _, htype⟩ := h
      cases form with
      | fromBlock => trivial
      | fromFunction =>
        obtain ⟨he, g, ts, r, hg, hfun, hsame⟩ := TypeContext.typeOf_returned.mp htype
        exact ⟨g, t, Option.join_eq_some_iff.mp hg, he, ts, r, hfun, hsame⟩
    | call site f as =>
      obtain ⟨X, t, _, rfl, ht, htype⟩ := h
      obtain ⟨g, ts, hg, hfun⟩ := TypeContext.function?_of_callType htype
      exact ⟨g, ts, t, hg, hfun, ht⟩
    | _ => trivial
  | _ => trivial

/-- In a program that is accepted every function has a signature that its parameters fit, and
whatever a `return` hands back, at any depth, has the type that the signature promises. -/
theorem results_of_compile {source : String} {c : Compilation} (h : compile source = .ok c) :
    ∀ v ∈ c.program.visits, v.KeepsResults c.types := by
  unfold compile at h
  split at h
  next => exact nomatch h
  next p T hp =>
    obtain ⟨_, hreads, _, hT⟩ := Program.reads_of_parse hp
    unfold Program.analyse at h
    split at h
    next => exact nomatch h
    next q S hq =>
      obtain ⟨root, hrooted⟩ := Program.exists_rooted hreads hq
      split at h
      next => exact nomatch h
      next =>
        split at h
        next => exact nomatch h
        next q' hq' =>
          obtain rfl := Except.ok.inj h
          obtain ⟨⟨ds, r⟩, hds⟩ : ∃ x, x = Decl.annotateAll none q.decls
            { context := { scopes := S, types := T } } := ⟨_, rfl⟩
          simp only [Program.annotate, ← hds] at hq'
          obtain ⟨rfl, hr⟩ := Prod.mk.inj hq'
          intro v hv
          exact (hrooted.placed.leavesChecked (hT .initial) (k := .program) ⟨rfl, rfl⟩ hds.symm hr
            rfl v hv).keepsResults

/-- The type of a body that ends in no return is not looked at. -/
theorem exists_compile_with_other_body_type :
    ∃ c, compile "of [] -> Int fun f() = true;" = .ok c ∧
      ∃ site name g body, c.program.decls = [.fn site name (some g) [] body] ∧
        c.types.function? g = some ([], TypeTable.int) ∧ body.type = some TypeTable.bool ∧
        c.types.same TypeTable.int TypeTable.bool = false := by
  have h : (compile "of [] -> Int fun f() = true;").map
      (fun c => (c.program.decls, c.types.function? ⟨4⟩,
        c.types.same TypeTable.int TypeTable.bool)) =
        .ok ([.fn ⟨⟨0, 0, 0⟩, some ⟨0⟩⟩ ⟨.identifier, .text "f", ⟨17, 0, 17⟩⟩ (some ⟨4⟩) []
          (.leaf ⟨⟨⟨23, 0, 23⟩, some ⟨1⟩⟩, some TypeTable.bool⟩ .literal
            ⟨.kwTrue, .none, ⟨23, 0, 23⟩⟩)], some ([], TypeTable.int), false) := by cbv
  obtain ⟨c, hc, hvalues⟩ := except_map_eq_ok.mp h
  obtain ⟨hdecls, htypes⟩ := Prod.mk.inj hvalues
  obtain ⟨hfun, hsame⟩ := Prod.mk.inj htypes
  exact ⟨c, hc, _, _, _, _, hdecls, hfun, rfl, hsame⟩

theorem results_of_nested_functions :
    ∃ c, compile
        "of [] -> Int fun f() = \x7b of [] -> Bool fun g() = return true; return f(); \x7d;" =
          .ok c ∧ c.program.visits.length = 10 ∧ ∀ v ∈ c.program.visits, v.KeepsResults c.types := by
  have h : (compile
      "of [] -> Int fun f() = \x7b of [] -> Bool fun g() = return true; return f(); \x7d;").map
        (fun c => c.program.visits.length) = .ok 10 := by cbv
  obtain ⟨c, hc, hlength⟩ := except_map_eq_ok.mp h
  exact ⟨c, hc, hlength, results_of_compile hc⟩

end FrontEnd
