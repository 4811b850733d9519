import Mathlib
import FrontEnd.Proofs.Scope.Respelling
import FrontEnd.Proofs.Typing.Completeness
import FrontEnd.Proofs.Typing.Correspondence

/-! Typing a program in which a symbol is spelled in another way. What counts for a type is the
symbol that a name means, not what it is called, so the same types are written on all expressions.
-/

namespace FrontEnd

variable {f : Token → Token} {S S' : ScopeTree} {fn : Option TypeId}

/-- The symbols are of the same kinds and have the same signatures, whatever they are called. -/
def ScopeTree.SameSymbols (S S' : ScopeTree) : Prop :=
  ∀ s, Option.Rel (fun a a' => a.kind = a'.kind ∧ a.signature = a'.signature) (S.symbol? s)
    (S'.symbol? s)

namespace ScopeTree.SameSymbols

variable {s : SymbolId} (h : S.SameSymbols S')
include h

theorem kind : (S'.symbol? s).map Symbol.kind = (S.symbol? s).map Symbol.kind := by
  have hs := h s
  generalize S.symbol? s = x, S'.symbol? s = x' at hs
  cases hs with
  | none => rfl
  | some ha => exact congrArg some ha.1.symm

theorem hasType {Γ : Inferred} {u : TypeId} (hu : S.HasType Γ s u) : S'.HasType Γ s u := by
  obtain ⟨a, ha, hcases⟩ := hu
  have hs := h s
  rw [ha] at hs
  generalize hx : S'.symbol? s = x at hs
  cases hs with
  | some hrel => exact ⟨_, hx, hrel.2 ▸ hcases⟩

end ScopeTree.SameSymbols

theorem ScopeTree.sameSymbols_rename (S : ScopeTree) (s : SymbolId) (n : String) :
    S.SameSymbols (S.rename s n) := by
  intro i
  rw [symbol?_rename]
  cases S.symbol? i with
  | none => exact .none
  | some a =>
    refine .some ?_
    split <;> exact ⟨rfl, rfl⟩

theorem Expr.written_map_ofToken (e : Expr) : (e.map (.ofToken f)).written = e.written := by
  rw [written, written, type_map_ofToken, place_map_ofToken]

namespace TypeContext

def inScopes (S' : ScopeTree) (X : TypeContext) : TypeContext := { X with scopes := S' }

variable {X : TypeContext} {e : Expr} {u : TypeId}

@[simp] theorem same_inScopes (X : TypeContext) (a b : TypeId) :
    (X.inScopes S').same a b = X.same a b := rfl

@[simp] theorem shown_inScopes (X : TypeContext) (a : TypeId) :
    (X.inScopes S').shown a = X.shown a := rfl

@[simp] theorem types_inScopes (X : TypeContext) : (X.inScopes S').types = X.types := rfl

theorem blockType_mapAll (ss : List Stmt) :
    blockType (Stmt.mapAll (.ofToken f) ss) = blockType ss := by
  induction ss with
  | nil => rfl
  | cons s ss ih =>
    cases ss with
    | nil =>
      cases s with
      | expr _ e => simp [blockType, Stmt.mapAll, Stmt.map, Expr.written_map_ofToken]
      | _ => rfl
    | cons s' ss =>
      rw [blockType_cons_cons, ← ih]
      exact blockType_cons_cons _ _ _

theorem requireInt_map (X : TypeContext) (e : Expr) (p : Position) :
    (X.inScopes S').requireInt (e.map (.ofToken f)) p = X.requireInt e p := by
  rw [requireInt, requireInt, Expr.written_map_ofToken]
  rfl

theorem requireBool_map (X : TypeContext) (e : Expr) :
    (X.inScopes S').requireBool (e.map (.ofToken f)) = X.requireBool e := by
  rw [requireBool, requireBool, Expr.written_map_ofToken, Expr.place_map_ofToken]
  rfl

theorem requireArguments_map (X : TypeContext) (n : Nat) (ts : List TypeId) (es : List Expr) :
    (X.inScopes S').requireArguments n ts (Expr.mapAll (.ofToken f) es) =
      X.requireArguments n ts es := by
  induction es generalizing n ts with
  | nil => cases ts <;> rfl
  | cons e es ih =>
    cases ts with
    | nil => rfl
    | cons u ts =>
      simp only [Expr.mapAll, requireArguments, Expr.written_map_ofToken, Expr.place_map_ofToken,
        same_inScopes, shown_inScopes, ih]

theorem callType_map (X : TypeContext) (site : ExprSite) (e : Expr) (as : List Expr) :
    (X.inScopes S').callType site (e.map (.ofToken f)) (Expr.mapAll (.ofToken f) as) =
      X.callType site e as := by
  have hlength : (Expr.mapAll (.ofToken f) as).length = as.length := by
    rw [Expr.mapAll_eq_map, List.length_map]
  simp only [callType, Expr.written_map_ofToken, Expr.place_map_ofToken, types_inScopes,
    shown_inScopes, hlength, requireArguments_map]

theorem resultType_map (X : TypeContext) (site : ExprSite) (form : ResultForm) (e : Expr) :
    (X.inScopes S').resultType fn site form (e.map (.ofToken f)) = X.resultType fn site form e := by
  unfold resultType
  rw [Expr.written_map_ofToken]
  rfl

section Names

variable (hf : Relabels f) (hS : X.scopes.SameSymbols S')
include hf

theorem names_of_keepsMeaning (he : Node.KeepsMeaning X.scopes S' f (.expr e)) {k : Token}
    {s : SymbolId} (hk : e.name? = some k) (hs : X.scopes.Names e.site.toSite k s) :
    S'.Names e.site.toSite (f k) s := by
  obtain ⟨c, hc, hlookup⟩ := hs
  refine ⟨c, hc, ?_⟩
  rw [hf.place, he k hk c hc, hlookup]

include hS

theorem typeOf_respelled (he : Node.KeepsMeaning X.scopes S' f (.expr e))
    (hu : X.typeOf fn e = .ok u) : (X.inScopes S').typeOf fn (e.map (.ofToken f)) = .ok u := by
  cases e with
  | leaf site form k =>
    have hkind : ((NodeMap.ofToken f).token k).kind = k.kind := hf.kind k
    simp only [typeOf, leafType, Expr.map, hkind] at hu ⊢
    split at hu
    next => exact hu
    next => exact hu
    next => exact hu
    next => exact hu
    next hidentifier =>
      have hk : (Expr.leaf site form k).name? = some k := by
        cases form <;> simp [Expr.name?, hidentifier]
      obtain ⟨s, hs, ht⟩ := bind_eq_ok.mp hu
      have hs := resolve_eq_ok.mp hs
      have hs' : (X.inScopes S').scopes.Names site.toSite (f k) s :=
        names_of_keepsMeaning hf he hk hs
      have ht' := hS.hasType ((symbolType_eq_ok hs).mp ht)
      exact bind_eq_ok.mpr ⟨s, resolve_eq_ok.mpr hs', (symbolType_eq_ok hs').mpr ht'⟩
    next => cases hu
  | binary site form k a b =>
    rw [← hu]
    simp only [Expr.map, typeOf, requireInt_map]
    rfl
  | unary site k a =>
    rw [← hu]
    simp only [Expr.map, typeOf, requireInt_map]
    rfl
  | call site e as => exact (callType_map X site e as).trans hu
  | block site ss => exact (blockType_mapAll ss).trans hu
  | ifThen site c a =>
    rw [← hu]
    simp only [Expr.map, typeOf, requireBool_map, Expr.written_map_ofToken]
  | ifElse site c a b =>
    rw [← hu]
    simp only [Expr.map, typeOf, requireBool_map, Expr.written_map_ofToken, same_inScopes,
      shown_inScopes]
    rfl
  | result site form a => exact (resultType_map X site form a).trans hu

theorem checkAssignment_respelled {l : Expr} {v : Unit}
    (hl : Node.KeepsMeaning X.scopes S' f (.expr l)) (hv : X.checkAssignment l e = .ok v) :
    (X.inScopes S').checkAssignment (l.map (.ofToken f)) (e.map (.ofToken f)) = .ok v := by
  obtain ⟨k, s, u, x, hk, hs, hvar, hu, hx, hsame⟩ := checkAssignment_eq_ok.mp hv
  refine checkAssignment_eq_ok.mpr ⟨f k, s, u, x, ?_, ?_, hS.kind.trans hvar, hS.hasType hu,
    (Expr.type_map_ofToken e).trans hx, hsame⟩
  · rw [Expr.name?_map_ofToken hf, hk, Option.map_some]
  · rw [Expr.site_map_ofToken]
    exact names_of_keepsMeaning hf hl hk hs

omit hf hS in
theorem declareVar_respelled {Y : TypeContext} {site : Site} {k : Token} {g : Option TypeId}
    {p : Position} (hk : Node.KeepsMeaning X.scopes S' f (.decl (.var site k g e p)))
    (hY : X.declareVar site k g e = .ok Y) :
    (X.inScopes S').declareVar site (f k) g (e.map (.ofToken f)) = .ok (Y.inScopes S') ∧
      Y.scopes = X.scopes := by
  obtain ⟨u, hu, hcases⟩ := declareVar_eq_ok.mp hY
  have hu' : (e.map (.ofToken f)).type = some u := (Expr.type_map_ofToken e).trans hu
  rcases hcases with ⟨v, rfl, hsame, rfl⟩ | ⟨rfl, s, hs, rfl⟩
  · exact ⟨declareVar_eq_ok.mpr ⟨u, hu', .inl ⟨v, rfl, hsame, rfl⟩⟩, rfl⟩
  · have hs' : site.ownSymbol? (X.inScopes S').scopes (f k) = some s := Eq.trans hk hs
    exact ⟨declareVar_eq_ok.mpr ⟨u, hu', .inr ⟨rfl, s, hs', rfl⟩⟩, rfl⟩

end Names

end TypeContext

namespace Annotating

def inScopes (S' : ScopeTree) (r : Annotating) : Annotating :=
  { r with context := r.context.inScopes S' }

variable {r : Annotating}

theorem write_respelled (hf : Relabels f) (hS : S.SameSymbols S') (hr : r.context.scopes = S)
    {e : Expr} (he : Node.KeepsMeaning S S' f (.expr e))
    (hdone : (r.write fn e).2.failure = none) :
    ((r.inScopes S').write fn (e.map (.ofToken f))).1 = (r.write fn e).1.map (.ofToken f) ∧
      ((r.inScopes S').write fn (e.map (.ofToken f))).2 = (r.write fn e).2.inScopes S' ∧
        (r.write fn e).2.context.scopes = S := by
  subst hr
  generalize hw : r.write fn e = x at hdone ⊢
  obtain ⟨e', r₁⟩ := x
  obtain ⟨rfl, hnone, u, hu, rfl⟩ := of_write hw hdone
  have hnone' : (r₁.inScopes S').failure = none := hnone
  rw [write_of_typeOf hnone' (TypeContext.typeOf_respelled hf hS he hu)]
  refine ⟨?_, rfl, rfl⟩
  cases e <;> rfl

theorem require_respelled {check : TypeContext → Except Diagnostic TypeContext}
    (check' : TypeContext → Except Diagnostic TypeContext) (hr : r.context.scopes = S)
    (hdone : (r.require check).failure = none)
    (hcheck : ∀ Y, check r.context = .ok Y →
      check' (r.context.inScopes S') = .ok (Y.inScopes S') ∧ Y.scopes = r.context.scopes) :
    (r.inScopes S').require check' = (r.require check).inScopes S' ∧
      (r.require check).context.scopes = S := by
  obtain ⟨hnone, hok⟩ := of_require hdone
  obtain ⟨hok', hscopes⟩ := hcheck _ hok
  have hnone' : (r.inScopes S').failure = none := hnone
  rw [require_of_ok hnone' hok', require_of_ok hnone hok]
  exact ⟨rfl, hscopes.trans hr⟩

end Annotating

namespace Node

/-- The node with its tokens respelled is annotated as before if its names keep their meaning. -/
def AnnotatesRespelled (S S' : ScopeTree) (f : Token → Token) (a : Node) : Prop :=
  ∀ fn r, r.context.scopes = S → (a.annotate fn r).2.failure = none →
    a.Everywhere (KeepsMeaning S S' f) →
      ((a.map (.ofToken f)).annotate fn (r.inScopes S')).1 =
          (a.annotate fn r).1.map (.ofToken f) ∧
        ((a.map (.ofToken f)).annotate fn (r.inScopes S')).2 =
          (a.annotate fn r).2.inScopes S' ∧
        (a.annotate fn r).2.context.scopes = S

theorem keepsMeaning_of_name? {e : Expr} (he : e.name? = none) :
    KeepsMeaning S S' f (expr e) := fun _ hk => nomatch he.symm.trans hk

theorem keepsMeaning_annotate {e : Expr} (he : KeepsMeaning S S' f (expr e)) (fn : Option TypeId)
    (r : Annotating) : KeepsMeaning S S' f (expr (e.annotate fn r).1) := by
  obtain ⟨hname, hsite⟩ := e.annotate_keeps fn r
  have hscope : (e.annotate fn r).1.scope = e.scope := congrArg Site.scope hsite
  simp only [KeepsMeaning, hname, hscope] at he ⊢
  exact he

theorem AnnotatesRespelled.of_running {a : Node}
    (h : ∀ fn r, r.context.scopes = S → r.failure = none → (r.inScopes S').failure = none →
      (a.annotate fn r).2.failure = none → a.Everywhere (KeepsMeaning S S' f) →
        ((a.map (.ofToken f)).annotate fn (r.inScopes S')).1 =
            (a.annotate fn r).1.map (.ofToken f) ∧
          ((a.map (.ofToken f)).annotate fn (r.inScopes S')).2 =
            (a.annotate fn r).2.inScopes S' ∧
          (a.annotate fn r).2.context.scopes = S) : a.AnnotatesRespelled S S' f := by
  intro fn r hr hdone
  have hnone := failure_of_annotate hdone
  exact h fn r hr hnone hnone hdone

theorem hereditary_annotatesRespelled (hf : Relabels f) (hS : S.SameSymbols S') :
    Hereditary (AnnotatesRespelled S S' f) where
  leaf := .of_running fun fn r hr hnone hnone' hdone hk => by
    simp only [Node.annotate, Node.map, Node.expr.injEq, Expr.map, Expr.annotate_leaf hnone,
      Expr.annotate_leaf hnone'] at *
    exact Annotating.write_respelled hf hS hr hk.self hdone
  binary iha ihb := .of_running fun fn r hr hnone hnone' hdone h => by
    simp only [AnnotatesRespelled, Node.annotate, Node.map, Node.expr.injEq, Expr.map,
      Expr.annotate_binary hnone, Expr.annotate_binary hnone'] at *
    obtain ⟨-, ha, hb⟩ := everywhere_binary.mp h
    have hdoneb := Expr.failure_of_write rfl hdone
    obtain ⟨hea, hra, hr₁⟩ := iha fn r hr (Expr.failure_of_annotate rfl hdoneb) ha
    obtain ⟨heb, hrb, hr₂⟩ := ihb fn _ hr₁ hdoneb hb
    rw [hea, hra, heb, hrb]
    exact Annotating.write_respelled hf hS hr₂ (keepsMeaning_of_name? rfl) hdone
  unary iha := .of_running fun fn r hr hnone hnone' hdone h => by
    simp only [AnnotatesRespelled, Node.annotate, Node.map, Node.expr.injEq, Expr.map,
      Expr.annotate_unary hnone, Expr.annotate_unary hnone'] at *
    obtain ⟨hea, hra, hr₁⟩ := iha fn r hr (Expr.failure_of_write rfl hdone)
      (everywhere_unary.mp h).2
    rw [hea, hra]
    exact Annotating.write_respelled hf hS hr₁ (keepsMeaning_of_name? rfl) hdone
  call ihe ihas := .of_running fun fn r hr hnone hnone' hdone h => by
    simp only [AnnotatesRespelled, Node.annotate, Node.map, Node.expr.injEq, Node.exprs.injEq,
      Expr.map, Expr.annotate_call hnone, Expr.annotate_call hnone'] at *
    obtain ⟨-, he, has⟩ := everywhere_call.mp h
    have hdoneas := Expr.failure_of_write rfl hdone
    obtain ⟨hee, hre, hr₁⟩ := ihe fn r hr (Expr.failure_of_annotateAll rfl hdoneas) he
    obtain ⟨heas, hras, hr₂⟩ := ihas fn _ hr₁ hdoneas has
    rw [hee, hre, heas, hras]
    exact Annotating.write_respelled hf hS hr₂ (keepsMeaning_of_name? rfl) hdone
  block ihss := .of_running fun fn r hr hnone hnone' hdone h => by
    simp only [AnnotatesRespelled, Node.annotate, Node.map, Node.expr.injEq, Node.stmts.injEq,
      Expr.map, Expr.annotate_block hnone, Expr.annotate_block hnone'] at *
    obtain ⟨hess, hrss, hr₁⟩ :=
      ihss fn r hr (Expr.failure_of_write rfl hdone) (everywhere_block.mp h).2
    rw [hess, hrss]
    exact Annotating.write_respelled hf hS hr₁ (keepsMeaning_of_name? rfl) hdone
  ifThen ihc iha := .of_running fun fn r hr hnone hnone' hdone h => by
    simp only [AnnotatesRespelled, Node.annotate, Node.map, Node.expr.injEq, Expr.map,
      Expr.annotate_ifThen hnone, Expr.annotate_ifThen hnone'] at *
    obtain ⟨-, hc, ha⟩ := everywhere_ifThen.mp h
    have hdonea := Expr.failure_of_write rfl hdone
    obtain ⟨hec, hrc, hr₁⟩ := ihc fn r hr (Expr.failure_of_annotate rfl hdonea) hc
    obtain ⟨hea, hra, hr₂⟩ := iha fn _ hr₁ hdonea ha
    rw [hec, hrc, hea, hra]
    exact Annotating.write_respelled hf hS hr₂ (keepsMeaning_of_name? rfl) hdone
  ifElse ihc iha ihb := .of_running fun fn r hr hnone hnone' hdone h => by
    simp only [AnnotatesRespelled, Node.annotate, Node.map, Node.expr.injEq, Expr.map,
      Expr.annotate_ifElse hnone, Expr.annotate_ifElse hnone'] at *
    obtain ⟨-, hc, ha, hb⟩ := everywhere_ifElse.mp h
    have hdoneb := Expr.failure_of_write rfl hdone
    have hdonea := Expr.failure_of_annotate rfl hdoneb
    obtain ⟨hec, hrc, hr₁⟩ := ihc fn r hr (Expr.failure_of_annotate rfl hdonea) hc
    obtain ⟨hea, hra, hr₂⟩ := iha fn _ hr₁ hdonea ha
    obtain ⟨heb, hrb, hr₃⟩ := ihb fn _ hr₂ hdoneb hb
    rw [hec, hrc, hea, hra, heb, hrb]
    exact Annotating.write_respelled hf hS hr₃ (keepsMeaning_of_name? rfl) hdone
  result iha := .of_running fun fn r hr hnone hnone' hdone h => by
    simp only [AnnotatesRespelled, Node.annotate, Node.map, Node.expr.injEq, Expr.map,
      Expr.annotate_result hnone, Expr.annotate_result hnone'] at *
    obtain ⟨hea, hra, hr₁⟩ := iha fn r hr (Expr.failure_of_write rfl hdone)
      (everywhere_result.mp h).2
    rw [hea, hra]
    exact Annotating.write_respelled hf hS hr₁ (keepsMeaning_of_name? rfl) hdone
  noExpr := fun _ _ hr _ _ => ⟨rfl, rfl, hr⟩
  moreExprs := by
    intro e es ihe ihes fn r hr hdone h
    simp only [AnnotatesRespelled, Node.annotate, Node.map, Node.expr.injEq, Node.exprs.injEq,
      Expr.mapAll, Expr.annotateAll_cons] at *
    obtain ⟨he, hes⟩ := everywhere_moreExprs.mp h
    obtain ⟨hee, hre, hr₁⟩ := ihe fn r hr (Expr.failure_of_annotateAll rfl hdone) he
    obtain ⟨hees, hres, hr₂⟩ := ihes fn _ hr₁ hdone hes
    rw [hee, hre, hees, hres]
    exact ⟨rfl, rfl, hr₂⟩
  evaluated ihe := .of_running fun fn r hr hnone hnone' hdone h => by
    simp only [AnnotatesRespelled, Node.annotate, Node.map, Node.expr.injEq, Node.stmt.injEq,
      Stmt.map, Stmt.annotate_expr hnone, Stmt.annotate_expr hnone'] at *
    obtain ⟨hee, hre, hr₁⟩ := ihe fn r hr hdone (everywhere_evaluated.mp h).2
    rw [hee, hre]
    exact ⟨rfl, rfl, hr₁⟩
  assigned {_ l e} ihl ihe := .of_running fun fn r hr hnone hnone' hdone h => by
    simp only [AnnotatesRespelled, Node.annotate, Node.map, Node.expr.injEq, Node.stmt.injEq,
      Stmt.map, Stmt.annotate_assign hnone, Stmt.annotate_assign hnone'] at *
    obtain ⟨-, hl, he⟩ := everywhere_assigned.mp h
    have hdonee := (Annotating.of_require hdone).1
    obtain ⟨hel, hrl, hr₁⟩ := ihl fn r hr (Expr.failure_of_annotate rfl hdonee) hl
    obtain ⟨hee, hre, hr₂⟩ := ihe fn _ hr₁ hdonee he
    have hname := keepsMeaning_annotate hl.self fn r
    obtain ⟨hrequire, hr₃⟩ := Annotating.require_respelled
      (fun X => (X.checkAssignment ((l.annotate fn r).1.map (.ofToken f))
        ((e.annotate fn (l.annotate fn r).2).1.map (.ofToken f))).map fun _ => X) hr₂ hdone
      fun Y hY => by
        obtain ⟨v, hv, rfl⟩ := except_map_eq_ok.mp hY
        refine ⟨except_map_eq_ok.mpr ⟨v, ?_, rfl⟩, rfl⟩
        rw [← hr₂] at hname hS
        exact TypeContext.checkAssignment_respelled hf hS hname hv
    rw [hel, hrl, hee, hre, hrequire]
    exact ⟨rfl, rfl, hr₃⟩
  declared ihd := .of_running fun fn r hr hnone hnone' hdone h => by
    simp only [AnnotatesRespelled, Node.annotate, Node.map, Node.decl.injEq, Node.stmt.injEq,
      Stmt.map, Stmt.annotate_decl hnone, Stmt.annotate_decl hnone'] at *
    obtain ⟨hed, hrd, hr₁⟩ := ihd fn r hr hdone (everywhere_declared.mp h).2
    rw [hed, hrd]
    exact ⟨rfl, rfl, hr₁⟩
  noStmt := fun _ _ hr _ _ => ⟨rfl, rfl, hr⟩
  moreStmts := by
    intro s ss ihs ihss fn r hr hdone h
    simp only [AnnotatesRespelled, Node.annotate, Node.map, Node.stmt.injEq, Node.stmts.injEq,
      Stmt.mapAll, Stmt.annotateAll_cons] at *
    obtain ⟨hs, hss⟩ := everywhere_moreStmts.mp h
    obtain ⟨hes, hrs, hr₁⟩ := ihs fn r hr (Stmt.failure_of_annotateAll rfl hdone) hs
    obtain ⟨hess, hrss, hr₂⟩ := ihss fn _ hr₁ hdone hss
    rw [hes, hrs, hess, hrss]
    exact ⟨rfl, rfl, hr₂⟩
  var {site k g e p} ihe := .of_running fun fn r hr hnone hnone' hdone h => by
    simp only [AnnotatesRespelled, Node.annotate, Node.map, Node.expr.injEq, Node.decl.injEq,
      Decl.map, Decl.annotate_var hnone, Decl.annotate_var hnone'] at *
    obtain ⟨hk, he⟩ := everywhere_var.mp h
    obtain ⟨hee, hre, hr₁⟩ := ihe fn r hr (Annotating.of_require hdone).1 he
    obtain ⟨hrequire, hr₂⟩ := Annotating.require_respelled
      (fun X => X.declareVar site (f k) g ((e.annotate fn r).1.map (.ofToken f))) hr₁ hdone
      fun Y hY => by
        rw [← hr₁] at hk
        exact TypeContext.declareVar_respelled (p := p) hk hY
    rw [hee, hre]
    exact ⟨rfl, hrequire, hr₂⟩
  fn {_ _ g _ _} ihe := .of_running fun fn r hr hnone hnone' hdone h => by
    cases g with
    | none =>
      simp only [Node.annotate, Decl.annotate_unsigned hnone] at hdone
      cases hdone
    | some g =>
      simp only [AnnotatesRespelled, Node.annotate, Node.map, Node.expr.injEq, Node.decl.injEq,
        Decl.map, Decl.annotate_signed hnone, Decl.annotate_signed hnone'] at *
      obtain ⟨hee, hre, hr₁⟩ := ihe (some g) r hr hdone (everywhere_fn.mp h).2
      rw [hee, hre]
      exact ⟨rfl, rfl, hr₁⟩

theorem annotatesRespelled_decls (hf : Relabels f) (hS : S.SameSymbols S') (ds : List Decl) :
    (decls ds).AnnotatesRespelled S S' f := by
  induction ds with
  | nil => exact fun _ _ hr _ _ => ⟨rfl, rfl, hr⟩
  | cons d ds ih =>
    intro fn r hr hdone h
    have ihd := (hereditary_annotatesRespelled hf hS).decl d
    simp only [AnnotatesRespelled, Node.annotate, Node.map, Node.decl.injEq, Node.decls.injEq,
      List.map_cons, Decl.annotateAll_cons] at *
    obtain ⟨hd, hds⟩ := everywhere_moreDecls.mp h
    obtain ⟨hed, hrd, hr₁⟩ := ihd fn r hr (Decl.failure_of_annotateAll rfl hdone) hd
    obtain ⟨heds, hrds, hr₂⟩ := ih fn _ hr₁ hdone hds
    rw [hed, hrd, heds, hrds]
    exact ⟨rfl, rfl, hr₂⟩

end Node

end FrontEnd
