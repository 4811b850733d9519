import Mathlib
import FrontEnd.Proofs.Checks
import FrontEnd.Proofs.Scope.Appending
import FrontEnd.Proofs.Scope.Redefinition
import FrontEnd.Proofs.Scope.Renaming
import FrontEnd.Proofs.Syntax.Visits

/-! Stamping a program in which a symbol is spelled in another way. It gets the scopes and the
stamps of the program, with the new name for the symbol. -/

namespace FrontEnd

/-- Every symbol of `S` is one of `F`. -/
def ScopeTree.Within (S F : ScopeTree) : Prop :=
  ∀ ⦃i a⦄, S.symbol? i = some a → F.symbol? i = some a

/-- In the finished scopes `F`, where no symbol has the name `n`, the map `f` writes this name on
the token that declares the symbol `s` and leaves the tokens alone that declare others. -/
structure ScopeTree.Respells (F : ScopeTree) (s : SymbolId) (n : String) (f : Token → Token) :
    Prop extends Relabels f where
  free : F.IsFree n
  text {i : SymbolId} {a : Symbol} {k : Token} : F.symbol? i = some a → k.text = a.name →
    k.place = a.place → (f k).text = if i = s then n else k.text

/-- The run with the name `n` for the symbol `s`. -/
def Stamping.rename (s : SymbolId) (n : String) (r : Stamping) : Stamping :=
  { r with tree := r.tree.rename s n }

variable {F : ScopeTree} {s : SymbolId} {n : String} {f : Token → Token}

theorem ScopeTree.Within.of_extends {S S' : ScopeTree} (hF : S'.Within F) (h : S.Extends S') :
    S.Within F := fun _ _ ha => hF (h.symbols ha)

theorem ScopeTree.IsFree.within {S : ScopeTree} (hn : F.IsFree n) (h : S.Within F) : S.IsFree n :=
  fun _ _ ha => hn (h ha)

namespace Stamping

variable {r : Stamping} {c : ScopeId}

theorem extends_declare (r : Stamping) (c : ScopeId) (a : Symbol) :
    r.tree.Extends (r.declare c a).tree := by
  unfold declare
  split
  next => exact .refl _
  next =>
    split
    next hb => exact ScopeTree.extends_bind hb
    next => exact .refl _

theorem extends_openScope (r : Stamping) (place : Position) (c : ScopeId) :
    r.tree.Extends (r.openScope place c).2.tree := r.tree.extends_push place (some c)

theorem stable_extends (S : ScopeTree) : Stable fun r => S.Extends r.tree where
  declare c a h := h.trans (extends_declare _ c a)
  openScope place c h := h.trans (extends_openScope _ place c)

theorem extends_declareParams (c : ScopeId) (ps : List Token) (ts : List TypeId) (r : Stamping) :
    r.tree.Extends (declareParams c ps ts r).tree :=
  (stable_extends r.tree).declareParams c ps ts (.refl _)

theorem openScope_rename (place : Position) (c : ScopeId) : (r.rename s n).openScope place c =
    ((r.openScope place c).1, (r.openScope place c).2.rename s n) := by
  simp only [openScope, rename, ScopeTree.push_rename]

theorem failure_of_declareParams {ps : List Token} {ts : List TypeId}
    (h : (declareParams c ps ts r).failure = none) : r.failure = none := by
  induction ps generalizing ts r with
  | nil => exact h
  | cons p ps ih => exact (of_declare (ih h)).1

theorem declare_rename (hf : F.Respells s n f) (hr : r.tree.WellNamed) {k : Token}
    {kind : SymbolKind} {q : Position} {g : Bool} {u : Option TypeId}
    (h : (r.declare c ⟨kind, k.text, k.place, q, g, u⟩).failure = none)
    (hF : (r.declare c ⟨kind, k.text, k.place, q, g, u⟩).tree.Within F) :
    (r.rename s n).declare c ⟨kind, (f k).text, k.place, q, g, u⟩ =
      (r.declare c ⟨kind, k.text, k.place, q, g, u⟩).rename s n := by
  obtain ⟨hnone, i, hb⟩ := of_declare h
  have hi := hF (ScopeTree.symbol?_bind_self hb)
  have hbind := ScopeTree.bind_rename (s := s) hb hr (hf.free.within hF)
  have hsymbol : (if i = s then Symbol.rename n ⟨kind, k.text, k.place, q, g, u⟩
      else ⟨kind, k.text, k.place, q, g, u⟩) = ⟨kind, (f k).text, k.place, q, g, u⟩ := by
    rw [hf.text hi rfl rfl]
    split <;> rfl
  rw [hsymbol] at hbind
  have hrenamed := declare_of_bind (r := r.rename s n) hnone hbind
  exact hrenamed.trans (congrArg (rename s n) (declare_of_bind hnone hb)).symm

theorem declareParams_rename (hf : F.Respells s n f) (c : ScopeId) (ps : List Token)
    (ts : List TypeId) (hr : r.tree.WellNamed) (h : (declareParams c ps ts r).failure = none)
    (hF : (declareParams c ps ts r).tree.Within F) :
    declareParams c (ps.map f) ts (r.rename s n) = (declareParams c ps ts r).rename s n := by
  induction ps generalizing ts r with
  | nil => rfl
  | cons p ps ih =>
    have hfirst := declare_rename hf hr (failure_of_declareParams h)
      (hF.of_extends (extends_declareParams c ps _ _))
    rw [List.map_cons, declareParams, hf.place, hfirst]
    exact ih _ ((extends_declare r c _).wellNamed hr) h hF

end Stamping

namespace Node

/-- The run `run'` over the node with its tokens respelled did what `run` did, if `run` was not
stopped and ended inside the finished scopes. -/
structure RunsRespelled (F : ScopeTree) (s : SymbolId) (n : String) (f : Token → Token)
    (r : Stamping) (run run' : Node × Stamping) : Prop where
  goesOn : r.tree.Extends run.2.tree
  outcome : run.2.failure = none → r.tree.WellNamed → run.2.tree.Within F →
    run'.1 = run.1.map (.ofToken f) ∧ run'.2 = run.2.rename s n

/-- The node is stamped with its tokens respelled as it was before. -/
def StampsRespelled (F : ScopeTree) (s : SymbolId) (n : String) (f : Token → Token) (a : Node) :
    Prop :=
  ∀ T c g r, RunsRespelled F s n f r (a.stamp T c g r)
    ((a.map (.ofToken f)).stamp T c g (r.rename s n))

theorem StampsRespelled.of_running {a : Node}
    (h : ∀ T c g r, r.failure = none → (r.rename s n).failure = none →
      (a.stamp T c g r).2.failure = none → r.tree.WellNamed → (a.stamp T c g r).2.tree.Within F →
        ((a.map (.ofToken f)).stamp T c g (r.rename s n)).1 =
          (a.stamp T c g r).1.map (.ofToken f) ∧
        ((a.map (.ofToken f)).stamp T c g (r.rename s n)).2 = (a.stamp T c g r).2.rename s n) :
    StampsRespelled F s n f a := by
  intro T c g r
  refine ⟨a.upholds (Stamping.stable_extends r.tree) T c g (.refl _), fun hend hw hF => ?_⟩
  cases hr : r.failure with
  | none => exact h T c g r hr hr hend hw hF
  | some d =>
    rw [stamp_of_stopped hr] at hend
    exact nomatch hr.symm.trans hend

theorem hereditary_stampsRespelled (hf : F.Respells s n f) :
    Hereditary (StampsRespelled F s n f) where
  leaf {site form k} := .of_running fun T c g r hnone hnone' h hw hF => by
    simp only [Node.stamp, Node.map, Expr.map, Expr.stamp_leaf hnone, Expr.stamp_leaf hnone']
    exact ⟨rfl, trivial⟩
  binary {site form k a b} iha ihb := .of_running fun T c g r hnone hnone' h hw hF => by
    obtain ⟨hga, ha⟩ := iha T c g r
    obtain ⟨hgb, hb⟩ := ihb T c g (a.stamp T c g r).2
    simp only [Node.stamp, Node.map, Node.expr.injEq, Expr.map, Expr.stamp_binary hnone,
      Expr.stamp_binary hnone'] at *
    obtain ⟨hea, hra⟩ := ha (Expr.failure_of_stamp rfl h) hw (hF.of_extends hgb)
    obtain ⟨heb, hrb⟩ := hb h (hga.wellNamed hw) hF
    rw [hea, hra, heb, hrb]
    exact ⟨rfl, rfl⟩
  unary {site k a} iha := .of_running fun T c g r hnone hnone' h hw hF => by
    obtain ⟨hga, ha⟩ := iha T c g r
    simp only [Node.stamp, Node.map, Node.expr.injEq, Expr.map, Expr.stamp_unary hnone,
      Expr.stamp_unary hnone'] at *
    obtain ⟨hea, hra⟩ := ha h hw hF
    rw [hea, hra]
    exact ⟨rfl, rfl⟩
  call {site e as} ihe ihas := .of_running fun T c g r hnone hnone' h hw hF => by
    obtain ⟨hge, he⟩ := ihe T c g r
    obtain ⟨hgas, has⟩ := ihas T c g (e.stamp T c g r).2
    simp only [Node.stamp, Node.map, Node.expr.injEq, Node.exprs.injEq, Expr.map,
      Expr.stamp_call hnone, Expr.stamp_call hnone'] at *
    obtain ⟨hee, hre⟩ := he (Expr.failure_of_stampAll rfl h) hw (hF.of_extends hgas)
    obtain ⟨heas, hras⟩ := has h (hge.wellNamed hw) hF
    rw [hee, hre, heas, hras]
    exact ⟨rfl, rfl⟩
  block {site ss} ih := .of_running fun T c g r hnone hnone' h hw hF => by
    obtain ⟨hgss, hss⟩ := ih T (r.openScope site.place c).1 g (r.openScope site.place c).2
    have hgo := r.extends_openScope site.place c
    have hopen : (r.rename s n).openScope ((NodeMap.ofToken f).exprSite site).place c = _ :=
      Stamping.openScope_rename site.place c
    simp only [Node.stamp, Node.map, Node.stmts.injEq, Expr.map, Expr.stamp_block hnone,
      Expr.stamp_block hnone', hopen] at *
    obtain ⟨hess, hrss⟩ := hss h (hgo.wellNamed hw) hF
    rw [hess, hrss]
    exact ⟨rfl, rfl⟩
  ifThen {site a b} iha ihb := .of_running fun T c g r hnone hnone' h hw hF => by
    obtain ⟨hga, ha⟩ := iha T c g r
    obtain ⟨hgb, hb⟩ := ihb T c g (a.stamp T c g r).2
    simp only [Node.stamp, Node.map, Node.expr.injEq, Expr.map, Expr.stamp_ifThen hnone,
      Expr.stamp_ifThen hnone'] at *
    obtain ⟨hea, hra⟩ := ha (Expr.failure_of_stamp rfl h) hw (hF.of_extends hgb)
    obtain ⟨heb, hrb⟩ := hb h (hga.wellNamed hw) hF
    rw [hea, hra, heb, hrb]
    exact ⟨rfl, rfl⟩
  ifElse {site a b d} iha ihb ihd := .of_running fun T c g r hnone hnone' h hw hF => by
    obtain ⟨hga, ha⟩ := iha T c g r
    obtain ⟨hgb, hb⟩ := ihb T c g (a.stamp T c g r).2
    obtain ⟨hgd, hd⟩ := ihd T c g (b.stamp T c g (a.stamp T c g r).2).2
    simp only [Node.stamp, Node.map, Node.expr.injEq, Expr.map, Expr.stamp_ifElse hnone,
      Expr.stamp_ifElse hnone'] at *
    have hsecond := Expr.failure_of_stamp rfl h
    have hwithin := hF.of_extends hgd
    obtain ⟨hea, hra⟩ := ha (Expr.failure_of_stamp rfl hsecond) hw (hwithin.of_extends hgb)
    obtain ⟨heb, hrb⟩ := hb hsecond (hga.wellNamed hw) hwithin
    obtain ⟨hed, hrd⟩ := hd h ((hga.trans hgb).wellNamed hw) hF
    rw [hea, hra, heb, hrb, hed, hrd]
    exact ⟨rfl, rfl⟩
  result {site form a} iha := .of_running fun T c g r hnone hnone' h hw hF => by
    obtain ⟨hga, ha⟩ := iha T c g r
    simp only [Node.stamp, Node.map, Node.expr.injEq, Expr.map, Expr.stamp_result hnone,
      Expr.stamp_result hnone'] at *
    obtain ⟨hea, hra⟩ := ha h hw hF
    rw [hea, hra]
    exact ⟨rfl, rfl⟩
  noExpr _ _ _ _ := ⟨.refl _, fun _ _ _ => ⟨rfl, rfl⟩⟩
  moreExprs {e es} ihe ihes T c g r := by
    obtain ⟨hge, he⟩ := ihe T c g r
    obtain ⟨hges, hes⟩ := ihes T c g (e.stamp T c g r).2
    simp only [Node.stamp, Node.map, Node.expr.injEq, Node.exprs.injEq, Expr.mapAll,
      Expr.stampAll] at *
    refine ⟨hge.trans hges, fun h hw hF => ?_⟩
    obtain ⟨hee, hre⟩ := he (Expr.failure_of_stampAll rfl h) hw (hF.of_extends hges)
    obtain ⟨hees, hres⟩ := hes h (hge.wellNamed hw) hF
    rw [hee, hre, hees, hres]
    exact ⟨rfl, rfl⟩
  evaluated {site e} ihe := .of_running fun T c g r hnone hnone' h hw hF => by
    obtain ⟨hge, he⟩ := ihe T c g r
    simp only [Node.stamp, Node.map, Node.expr.injEq, Stmt.map, Stmt.stamp_expr hnone,
      Stmt.stamp_expr hnone'] at *
    obtain ⟨hee, hre⟩ := he h hw hF
    rw [hee, hre]
    exact ⟨rfl, rfl⟩
  assigned {site l e} ihl ihe := .of_running fun T c g r hnone hnone' h hw hF => by
    obtain ⟨hgl, hl⟩ := ihl T c g r
    obtain ⟨hge, he⟩ := ihe T c g (l.stamp T c g r).2
    simp only [Node.stamp, Node.map, Node.expr.injEq, Stmt.map, Stmt.stamp_assign hnone,
      Stmt.stamp_assign hnone'] at *
    obtain ⟨hel, hrl⟩ := hl (Expr.failure_of_stamp rfl h) hw (hF.of_extends hge)
    obtain ⟨hee, hre⟩ := he h (hgl.wellNamed hw) hF
    rw [hel, hrl, hee, hre]
    exact ⟨rfl, rfl⟩
  declared {site d} ihd := .of_running fun T c g r hnone hnone' h hw hF => by
    obtain ⟨hgd, hd⟩ := ihd T c g r
    simp only [Node.stamp, Node.map, Node.decl.injEq, Stmt.map, Stmt.stamp_decl hnone,
      Stmt.stamp_decl hnone'] at *
    obtain ⟨hed, hrd⟩ := hd h hw hF
    rw [hed, hrd]
    exact ⟨rfl, rfl⟩
  noStmt _ _ _ _ := ⟨.refl _, fun _ _ _ => ⟨rfl, rfl⟩⟩
  moreStmts {x ss} ihs ihss T c g r := by
    obtain ⟨hgx, hx⟩ := ihs T c g r
    obtain ⟨hgss, hss⟩ := ihss T c g (x.stamp T c g r).2
    simp only [Node.stamp, Node.map, Node.stmt.injEq, Node.stmts.injEq, Stmt.mapAll,
      Stmt.stampAll] at *
    refine ⟨hgx.trans hgss, fun h hw hF => ?_⟩
    obtain ⟨hex, hrx⟩ := hx (Stmt.failure_of_stampAll rfl h) hw (hF.of_extends hgss)
    obtain ⟨hess, hrss⟩ := hss h (hgx.wellNamed hw) hF
    rw [hex, hrx, hess, hrss]
    exact ⟨rfl, rfl⟩
  var {site k u e finish} ihe := .of_running fun T c g r hnone hnone' h hw hF => by
    obtain ⟨hge, he⟩ := ihe T c g r
    have hgd := (e.stamp T c g r).2.extends_declare c ⟨.var, k.text, k.place, finish, g, u⟩
    have hplace : ((NodeMap.ofToken f).token k).place = k.place := hf.place k
    simp only [Node.stamp, Node.map, Node.expr.injEq, Decl.map, Decl.stamp_var hnone,
      Decl.stamp_var hnone', hplace] at *
    obtain ⟨hee, hre⟩ := he (Stamping.of_declare h).1 hw (hF.of_extends hgd)
    rw [hee, hre]
    exact ⟨rfl, Stamping.declare_rename hf (hge.wellNamed hw) h hF⟩
  fn {site k u ps e} ihe := .of_running fun T c g r hnone hnone' h hw hF => by
    have hplace : ((NodeMap.ofToken f).token k).place = k.place := hf.place k
    have hgd := r.extends_declare c ⟨.fn, k.text, k.place, k.place, g, u⟩
    have hname := Decl.failure_of_stamp_fn rfl h
    simp only [Node.stamp, Decl.stamp_fn hnone rfl hname] at h hF ⊢
    generalize hr₁ : r.declare c ⟨.fn, k.text, k.place, k.place, g, u⟩ = r₁ at *
    have hgo := r₁.extends_openScope k.place c
    have hgp := Stamping.extends_declareParams (r₁.openScope k.place c).1 ps (T.argumentsOf u)
      (r₁.openScope k.place c).2
    obtain ⟨hge, he⟩ := ihe T (r₁.openScope k.place c).1 false (Stamping.declareParams
      (r₁.openScope k.place c).1 ps (T.argumentsOf u) (r₁.openScope k.place c).2)
    simp only [Node.stamp, Node.map, Node.expr.injEq] at hge he
    have hwithin := hF.of_extends hge
    have hwo := (hgd.trans hgo).wellNamed hw
    have hr₁' : (r.rename s n).declare c ⟨.fn, ((NodeMap.ofToken f).token k).text,
        ((NodeMap.ofToken f).token k).place, ((NodeMap.ofToken f).token k).place, g, u⟩ =
          r₁.rename s n := by
      subst hr₁
      rw [hplace]
      exact Stamping.declare_rename hf hw hname (hwithin.of_extends (hgo.trans hgp))
    have hparams : Stamping.declareParams _ (ps.map (NodeMap.ofToken f).token) _ _ = _ :=
      Stamping.declareParams_rename hf (r₁.openScope k.place c).1 ps (T.argumentsOf u) hwo
        (Expr.failure_of_stamp rfl h) hwithin
    obtain ⟨hee, hre⟩ := he h (hgp.wellNamed hwo) hF
    simp only [Node.map, Decl.map, Decl.stamp_fn hnone' hr₁' hname, hplace,
      Stamping.openScope_rename, hparams, hee, hre]
    exact ⟨rfl, trivial⟩

end Node

theorem Decl.extends_stampAll (T : TypeTable) (c : ScopeId) (g : Bool) (ds : List Decl)
    (r : Stamping) : r.tree.Extends (stampAll T c g ds r).2.tree :=
  upholds_stampAll (Stamping.stable_extends r.tree) T c g ds (.refl _)

/-- The declarations of a program with its tokens respelled are stamped as before. -/
theorem Decl.stampAll_respelled (hf : F.Respells s n f) (T : TypeTable) (c : ScopeId) (g : Bool)
    (ds : List Decl) {r : Stamping} (hr : r.tree.WellNamed)
    (h : (stampAll T c g ds r).2.failure = none) (hF : (stampAll T c g ds r).2.tree.Within F) :
    stampAll T c g (ds.map (Decl.map (.ofToken f))) (r.rename s n) =
      ((stampAll T c g ds r).1.map (Decl.map (.ofToken f)),
        (stampAll T c g ds r).2.rename s n) := by
  induction ds generalizing r with
  | nil => rfl
  | cons d ds ih =>
    obtain ⟨hgo, hd⟩ := (Node.hereditary_stampsRespelled hf).decl d T c g r
    have hwithin := hF.of_extends (extends_stampAll T c g ds _)
    obtain ⟨hed, hrd⟩ := hd (failure_of_stampAll rfl h) hr hwithin
    simp only [Node.stamp, Node.map, Node.decl.injEq] at hed hrd hgo
    simp only [List.map_cons, stampAll, hed, hrd, ih (hgo.wellNamed hr) h hF]

section Names

variable {S S' : ScopeTree} {P : List SymbolId}

/-- The names at the node mean in `S'` under their new spelling what they mean in `S`. -/
def Node.KeepsMeaning (S S' : ScopeTree) (f : Token → Token) : Node → Prop
  | expr e => ∀ k ∈ e.name?, ∀ c ∈ e.scope,
    S'.lookup c (f k).text k.place = S.lookup c k.text k.place
  | decl (.var site k _ _ _) => site.ownSymbol? S' (f k) = site.ownSymbol? S k
  | _ => True

theorem Expr.checkName_respelled (hf : Relabels f) {e : Expr}
    (he : Node.KeepsMeaning S S' f (.expr e)) (P : List SymbolId) :
    Alike (fun _ _ => True) Eq (e.checkName S P) ((e.map (.ofToken f)).checkName S' P) := by
  have hscope : (e.map (.ofToken f)).scope = e.scope :=
    congrArg (fun s : ExprSite => s.scope) e.site_map_ofToken
  unfold Expr.checkName
  rw [Expr.name?_map_ofToken hf, hscope]
  cases hk : e.name? with
  | none => exact .ok rfl
  | some k =>
    cases hc : e.scope with
    | none => exact .error trivial
    | some c =>
      have hlookup := he k hk c hc
      simp only [Option.map_some, hf.place, hlookup]
      cases (S.lookup c k.text k.place).filter fun s => !P.contains s with
      | none => exact .error trivial
      | some _ => exact .ok rfl

/-- Names that keep their meaning pass the check that they passed. -/
def Node.ChecksRespelled (S S' : ScopeTree) (f : Token → Token) (a : Node) : Prop :=
  a.Everywhere (KeepsMeaning S S' f) → ∀ P, Alike (fun _ _ => True) Eq (a.checkNames S P)
    ((a.map (.ofToken f)).checkNames S' P)

theorem Node.hereditary_checksRespelled (hf : Relabels f) :
    Hereditary (ChecksRespelled S S' f) where
  leaf h P := (Expr.checkName_respelled hf h.self P).bind fun _ _ _ => .ok rfl
  binary iha ihb h P := by
    obtain ⟨hself, ha, hb⟩ := everywhere_binary.mp h
    exact (Expr.checkName_respelled hf hself P).bind fun _ _ _ =>
      (iha ha P).bind fun _ _ _ => ihb hb P
  unary iha h P := by
    obtain ⟨hself, ha⟩ := everywhere_unary.mp h
    exact (Expr.checkName_respelled hf hself P).bind fun _ _ _ => iha ha P
  call ihe ihas h P := by
    obtain ⟨hself, he, has⟩ := everywhere_call.mp h
    exact (Expr.checkName_respelled hf hself P).bind fun _ _ _ =>
      (ihe he P).bind fun _ _ _ => ihas has P
  block ih h P := by
    obtain ⟨hself, hss⟩ := everywhere_block.mp h
    exact (Expr.checkName_respelled hf hself P).bind fun _ _ _ => ih hss P
  ifThen iha ihb h P := by
    obtain ⟨hself, ha, hb⟩ := everywhere_ifThen.mp h
    exact (Expr.checkName_respelled hf hself P).bind fun _ _ _ =>
      (iha ha P).bind fun _ _ _ => ihb hb P
  ifElse iha ihb ihc h P := by
    obtain ⟨hself, ha, hb, hc⟩ := everywhere_ifElse.mp h
    exact (Expr.checkName_respelled hf hself P).bind fun _ _ _ =>
      (iha ha P).bind fun _ _ _ => (ihb hb P).bind fun _ _ _ => ihc hc P
  result iha h P := by
    obtain ⟨hself, ha⟩ := everywhere_result.mp h
    exact (Expr.checkName_respelled hf hself P).bind fun _ _ _ => iha ha P
  noExpr _ _ := .ok rfl
  moreExprs ihe ihes h P := by
    obtain ⟨he, hes⟩ := everywhere_moreExprs.mp h
    exact (ihe he P).bind fun _ _ _ => ihes hes P
  evaluated ihe h P := ihe (everywhere_evaluated.mp h).2 P
  assigned ihl ihe h P := by
    obtain ⟨-, hl, he⟩ := everywhere_assigned.mp h
    exact (ihl hl P).bind fun _ _ _ => ihe he P
  declared ihd h P := ihd (everywhere_declared.mp h).2 P
  noStmt _ _ := .ok rfl
  moreStmts ihs ihss h P := by
    obtain ⟨hs, hss⟩ := everywhere_moreStmts.mp h
    exact (ihs hs P).bind fun _ _ _ => ihss hss P
  var {site k _ _ _} ihe h P := by
    obtain ⟨hself, he⟩ := everywhere_var.mp h
    have hown : ((NodeMap.ofToken f).site site).ownSymbol? S' ((NodeMap.ofToken f).token k) =
        site.ownSymbol? S k := hself
    simp only [Node.map, Node.checkNames, Decl.map, Decl.checkNames, hown]
    exact ihe he _
  fn ihe h P := ihe (everywhere_fn.mp h).2 P

end Names

end FrontEnd
