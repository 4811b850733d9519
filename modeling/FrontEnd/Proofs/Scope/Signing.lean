import Mathlib
import FrontEnd.Proofs.Scope.Parallel
import FrontEnd.Proofs.Syntax.Hereditary
import FrontEnd.Proofs.Syntax.Signing

/-! The scopes of a program in which a variable gets a signature. No other symbol changes, and names
are checked without a look at signatures. -/

namespace FrontEnd

variable {q : Position} {t : TypeId}

/-- The same symbol, which may have the signature `t` if it had none. -/
def Symbol.Signs (t : TypeId) (a a' : Symbol) : Prop :=
  a' = a ∨ a.signature = none ∧ a' = { a with signature := some t }

/-- The two trees differ in the signatures of symbols only. -/
structure ScopeTree.Signs (t : TypeId) (S S' : ScopeTree) : Prop where
  scopes : S'.scopes = S.scopes
  symbols : List.Forall₂ (Symbol.Signs t) S.symbols.toList S'.symbols.toList

/-- The two runs have come equally far. -/
structure Stamping.Signs (t : TypeId) (r r' : Stamping) : Prop
    extends r.tree.Signs t r'.tree where
  failure : r'.failure = r.failure

theorem rel_getElem? {α β : Type} {R : α → β → Prop} {as : List α} {bs : List β}
    (h : List.Forall₂ R as bs) (i : Nat) : Option.Rel R as[i]? bs[i]? := by
  induction h generalizing i with
  | nil => exact .none
  | cons h _ ih =>
    cases i with
    | zero => exact .some h
    | succ i => exact ih i

theorem Symbol.Signs.refl (a : Symbol) : a.Signs t a := .inl rfl

namespace ScopeTree.Signs

variable {S S' : ScopeTree} (h : S.Signs t S')
include h

theorem size_eq : S'.symbols.size = S.symbols.size := by
  simpa using h.symbols.length_eq.symm

theorem local?_eq (c : ScopeId) (n : String) : S'.local? c n = S.local? c n := by
  simp only [ScopeTree.local?, ScopeTree.scope?, h.scopes]

theorem ownSymbol?_eq (site : Site) (n : Token) : site.ownSymbol? S' n = site.ownSymbol? S n := by
  simp only [Site.ownSymbol?, h.local?_eq]

theorem symbol? (s : SymbolId) : Option.Rel (Symbol.Signs t) (S.symbol? s) (S'.symbol? s) := by
  have hsymbol := rel_getElem? h.symbols s.index
  rwa [Array.getElem?_toList, Array.getElem?_toList] at hsymbol

theorem exists_signed {s : SymbolId} {a : Symbol} {u : TypeId} (ha : S.symbol? s = some a)
    (hu : a.signature = some u) : ∃ a', S'.symbol? s = some a' ∧ a'.signature = some u := by
  have hsymbol := h.symbol? s
  rw [ha] at hsymbol
  generalize S'.symbol? s = x at hsymbol
  cases hsymbol with
  | some haa =>
    rcases haa with rfl | ⟨hnone, -⟩
    · exact ⟨_, rfl, hu⟩
    · cases hu.symm.trans hnone

theorem lookup_eq (c : ScopeId) (n : String) (p : Position) : S'.lookup c n p = S.lookup c n p := by
  have hchain (k : Nat) (d : ScopeId) : S'.chainWithin k d = S.chainWithin k d := by
    induction k generalizing d with
    | zero => rfl
    | succ k ih => simp only [ScopeTree.chainWithin, ScopeTree.scope?, h.scopes, ih]
  have hvisible (d : ScopeId) : S'.visible? d n p = S.visible? d n p := by
    unfold ScopeTree.visible?
    rw [h.local?_eq]
    congr 1
    funext s
    have hsymbol := h.symbol? s
    generalize S.symbol? s = x, S'.symbol? s = x' at hsymbol
    cases hsymbol with
    | none => rfl
    | some ha => rcases ha with rfl | ⟨-, rfl⟩ <;> rfl
  simp only [ScopeTree.lookup, ScopeTree.chain, hchain, hvisible]

end ScopeTree.Signs

namespace Stamping.Signs

variable {r r' : Stamping} {c : ScopeId}

theorem refl (r : Stamping) : r.Signs t r :=
  ⟨⟨rfl, List.forall₂_same.mpr fun a _ => .refl a⟩, rfl⟩

theorem declare (h : r.Signs t r') {a a' : Symbol} (ha : a.Signs t a') :
    (r.declare c a).Signs t (r'.declare c a') := by
  have hname : a'.name = a.name ∧ a'.place = a.place := by
    rcases ha with rfl | ⟨-, rfl⟩ <;> exact ⟨rfl, rfl⟩
  unfold Stamping.declare ScopeTree.bind
  rw [h.failure, hname.1, hname.2, h.local?_eq]
  cases r.failure with
  | some d => exact h
  | none =>
    cases r.tree.local? c a.name with
    | some s => exact ⟨h.toSigns, rfl⟩
    | none =>
      refine ⟨⟨?_, ?_⟩, rfl⟩
      · simp only [h.scopes, h.size_eq]
      · simpa using List.rel_append h.symbols (.cons ha .nil)

theorem declareParams (h : r.Signs t r') (c : ScopeId) (ps : List Token) (ts : List TypeId) :
    (declareParams c ps ts r).Signs t (declareParams c ps ts r') := by
  induction ps generalizing r r' ts with
  | nil => exact h
  | cons p ps ih => exact ih (h.declare (.refl _)) _

theorem openScope_fst (h : r.Signs t r') (p : Position) (c : ScopeId) :
    (r'.openScope p c).1 = (r.openScope p c).1 := by
  simp only [Stamping.openScope, ScopeTree.push, h.scopes]

theorem openScope (h : r.Signs t r') (p : Position) (c : ScopeId) :
    (r.openScope p c).2.Signs t (r'.openScope p c).2 :=
  ⟨⟨by simp only [Stamping.openScope, ScopeTree.push, h.scopes], h.symbols⟩, h.failure⟩

end Stamping.Signs

namespace Node

/-- Signing the node changes what stamping makes of it by the signature only. -/
def StampsSigned (q : Position) (t : TypeId) (a : Node) : Prop :=
  ∀ T c g ⦃r r'⦄, Stamping.Signs t r r' →
    ((a.sign q t).stamp T c g r').1 = (a.stamp T c g r).1.sign q t ∧
      (a.stamp T c g r).2.Signs t ((a.sign q t).stamp T c g r').2

theorem StampsSigned.of_running {a : Node}
    (h : ∀ T c g r r', r.failure = none → r'.failure = none → Stamping.Signs t r r' →
      ((a.sign q t).stamp T c g r').1 = (a.stamp T c g r).1.sign q t ∧
        (a.stamp T c g r).2.Signs t ((a.sign q t).stamp T c g r').2) : StampsSigned q t a := by
  intro T c g r r' hr
  cases hfail : r.failure with
  | none => exact h T c g r r' hfail (hr.failure.trans hfail) hr
  | some d =>
    rw [stamp_of_stopped hfail, stamp_of_stopped (hr.failure.trans hfail)]
    exact ⟨rfl, hr⟩

theorem hereditary_stampsSigned (q : Position) (t : TypeId) : Hereditary (StampsSigned q t) where
  leaf := .of_running fun T c g r r' hnone hnone' hr => by
    simp only [Node.stamp, Node.sign, Expr.sign, Expr.stamp_leaf hnone, Expr.stamp_leaf hnone']
    exact ⟨trivial, hr⟩
  binary iha ihb := .of_running fun T c g r r' hnone hnone' hr => by
    obtain ⟨ha, hr₁⟩ := iha T c g hr
    obtain ⟨hb, hr₂⟩ := ihb T c g hr₁
    simp only [Node.stamp, Node.sign, Node.expr.injEq, Expr.sign, Expr.stamp_binary hnone,
      Expr.stamp_binary hnone'] at *
    exact ⟨by rw [ha, hb], hr₂⟩
  unary iha := .of_running fun T c g r r' hnone hnone' hr => by
    obtain ⟨ha, hr₁⟩ := iha T c g hr
    simp only [Node.stamp, Node.sign, Node.expr.injEq, Expr.sign, Expr.stamp_unary hnone,
      Expr.stamp_unary hnone'] at *
    exact ⟨by rw [ha], hr₁⟩
  call ihf ihas := .of_running fun T c g r r' hnone hnone' hr => by
    obtain ⟨hf, hr₁⟩ := ihf T c g hr
    obtain ⟨has, hr₂⟩ := ihas T c g hr₁
    simp only [Node.stamp, Node.sign, Node.expr.injEq, Node.exprs.injEq, Expr.sign,
      Expr.stamp_call hnone, Expr.stamp_call hnone'] at *
    exact ⟨by rw [hf, has], hr₂⟩
  block {site _} ih := .of_running fun T c g r r' hnone hnone' hr => by
    obtain ⟨hss, hr₁⟩ := ih T (r.openScope site.place c).1 g (hr.openScope site.place c)
    simp only [Node.stamp, Node.sign, Node.expr.injEq, Node.stmts.injEq, Expr.sign,
      Expr.stamp_block hnone, Expr.stamp_block hnone', hr.openScope_fst] at *
    exact ⟨by rw [hss], hr₁⟩
  ifThen iha ihb := .of_running fun T c g r r' hnone hnone' hr => by
    obtain ⟨ha, hr₁⟩ := iha T c g hr
    obtain ⟨hb, hr₂⟩ := ihb T c g hr₁
    simp only [Node.stamp, Node.sign, Node.expr.injEq, Expr.sign, Expr.stamp_ifThen hnone,
      Expr.stamp_ifThen hnone'] at *
    exact ⟨by rw [ha, hb], hr₂⟩
  ifElse iha ihb ihd := .of_running fun T c g r r' hnone hnone' hr => by
    obtain ⟨ha, hr₁⟩ := iha T c g hr
    obtain ⟨hb, hr₂⟩ := ihb T c g hr₁
    obtain ⟨hd, hr₃⟩ := ihd T c g hr₂
    simp only [Node.stamp, Node.sign, Node.expr.injEq, Expr.sign, Expr.stamp_ifElse hnone,
      Expr.stamp_ifElse hnone'] at *
    exact ⟨by rw [ha, hb, hd], hr₃⟩
  result iha := .of_running fun T c g r r' hnone hnone' hr => by
    obtain ⟨ha, hr₁⟩ := iha T c g hr
    simp only [Node.stamp, Node.sign, Node.expr.injEq, Expr.sign, Expr.stamp_result hnone,
      Expr.stamp_result hnone'] at *
    exact ⟨by rw [ha], hr₁⟩
  noExpr _ _ _ _ _ hr := ⟨rfl, hr⟩
  moreExprs := by
    intro e es ihe ihes T c g r r' hr
    obtain ⟨he, hr₁⟩ := ihe T c g hr
    obtain ⟨hes, hr₂⟩ := ihes T c g hr₁
    simp only [Node.stamp, Node.sign, Node.expr.injEq, Node.exprs.injEq, Expr.signAll,
      Expr.stampAll] at *
    exact ⟨by rw [he, hes], hr₂⟩
  evaluated ihe := .of_running fun T c g r r' hnone hnone' hr => by
    obtain ⟨he, hr₁⟩ := ihe T c g hr
    simp only [Node.stamp, Node.sign, Node.expr.injEq, Node.stmt.injEq, Stmt.sign,
      Stmt.stamp_expr hnone, Stmt.stamp_expr hnone'] at *
    exact ⟨by rw [he], hr₁⟩
  assigned ihl ihe := .of_running fun T c g r r' hnone hnone' hr => by
    obtain ⟨hl, hr₁⟩ := ihl T c g hr
    obtain ⟨he, hr₂⟩ := ihe T c g hr₁
    simp only [Node.stamp, Node.sign, Node.expr.injEq, Node.stmt.injEq, Stmt.sign,
      Stmt.stamp_assign hnone, Stmt.stamp_assign hnone'] at *
    exact ⟨by rw [hl, he], hr₂⟩
  declared ihd := .of_running fun T c g r r' hnone hnone' hr => by
    obtain ⟨hd, hr₁⟩ := ihd T c g hr
    simp only [Node.stamp, Node.sign, Node.decl.injEq, Node.stmt.injEq, Stmt.sign,
      Stmt.stamp_decl hnone, Stmt.stamp_decl hnone'] at *
    exact ⟨by rw [hd], hr₁⟩
  noStmt _ _ _ _ _ hr := ⟨rfl, hr⟩
  moreStmts := by
    intro s ss ihs ihss T c g r r' hr
    obtain ⟨hs, hr₁⟩ := ihs T c g hr
    obtain ⟨hss, hr₂⟩ := ihss T c g hr₁
    simp only [Node.stamp, Node.sign, Node.stmt.injEq, Node.stmts.injEq, Stmt.signAll,
      Stmt.stampAll] at *
    exact ⟨by rw [hs, hss], hr₂⟩
  var {site n u _ finish} ihe := .of_running fun T c g r r' hnone hnone' hr => by
    obtain ⟨he, hr₁⟩ := ihe T c g hr
    have hsymbol : Symbol.Signs t ⟨.var, n.text, n.place, finish, g, u⟩
        ⟨.var, n.text, n.place, finish, g, site.sign q t u⟩ := by
      cases u with
      | some u => exact .inl rfl
      | none =>
        by_cases hq : site.place = q
        · exact .inr ⟨rfl, by rw [Site.sign_of_place hq]⟩
        · exact .inl (by rw [Site.sign_of_ne hq])
    have hr₂ := hr₁.declare hsymbol (c := c)
    simp only [Node.stamp, Node.sign, Node.expr.injEq, Node.decl.injEq, Decl.sign,
      Decl.stamp_var hnone, Decl.stamp_var hnone'] at *
    exact ⟨by rw [he]; rfl, hr₂⟩
  fn {_ n u ps _} ihe := .of_running fun T c g r r' hnone hnone' hr => by
    have hdeclared := hr.declare (.refl ⟨.fn, n.text, n.place, n.place, g, u⟩) (c := c)
    generalize hr₁ : r.declare c ⟨.fn, n.text, n.place, n.place, g, u⟩ = r₁,
      hr₁' : r'.declare c ⟨.fn, n.text, n.place, n.place, g, u⟩ = r₁' at hdeclared
    cases hname : r₁.failure with
    | some why =>
      have hname' := hdeclared.failure.trans hname
      simp only [Node.stamp, Node.sign, Decl.sign, Decl.stamp_fn_of_clash hnone hr₁ hname,
        Decl.stamp_fn_of_clash hnone' hr₁' hname']
      exact ⟨trivial, hdeclared⟩
    | none =>
      have hname' := hdeclared.failure.trans hname
      have hparams := (hdeclared.openScope n.place c).declareParams (r₁.openScope n.place c).1 ps
        (T.argumentsOf u)
      obtain ⟨he, hr₂⟩ := ihe T (r₁.openScope n.place c).1 false hparams
      simp only [Node.stamp, Node.sign, Node.expr.injEq] at he hr₂
      simp only [Node.stamp, Node.sign, Decl.sign, Decl.stamp_fn hnone hr₁ hname,
        Decl.stamp_fn hnone' hr₁' hname', hdeclared.openScope_fst]
      exact ⟨by rw [he], hr₂⟩

end Node

/-- The scopes of a signed program are those of the program, and they bind the same symbols. -/
theorem Decl.stampAll_sign (q : Position) (t : TypeId) (T : TypeTable) (c : ScopeId) (g : Bool)
    (ds : List Decl) {r r' : Stamping} (hr : r.Signs t r') :
    (stampAll T c g (ds.map (Decl.sign q t)) r').1 = (stampAll T c g ds r).1.map (Decl.sign q t) ∧
      (stampAll T c g ds r).2.Signs t (stampAll T c g (ds.map (Decl.sign q t)) r').2 := by
  induction ds generalizing r r' with
  | nil => exact ⟨rfl, hr⟩
  | cons d ds ih =>
    obtain ⟨hd, hr₁⟩ := (Node.hereditary_stampsSigned q t).decl d T c g hr
    obtain ⟨hds, hr₂⟩ := ih hr₁
    simp only [Node.stamp, Node.sign, Node.decl.injEq] at hd
    simp only [Node.stamp, Node.sign] at hds hr₂
    simp only [List.map_cons, stampAll]
    exact ⟨by rw [hd, hds], hr₂⟩

section Names

variable {S S' : ScopeTree}

theorem Expr.checkName_sign (h : S.Signs t S') (e : Expr) (P : List SymbolId) :
    (e.sign q t).checkName S' P = e.checkName S P := by
  unfold Expr.checkName
  rw [Expr.name?_sign, Expr.scope_sign]
  simp only [h.lookup_eq]

/-- Names are checked without a look at signatures. -/
def Node.ChecksUnsigned (q : Position) (t : TypeId) (S S' : ScopeTree) (a : Node) : Prop :=
  ∀ P, (a.sign q t).checkNames S' P = a.checkNames S P

theorem Node.hereditary_checksUnsigned (q : Position) (h : S.Signs t S') :
    Hereditary (ChecksUnsigned q t S S') := by
  constructor
  case noExpr | noStmt => exact fun _ => rfl
  case moreExprs | moreStmts | evaluated | assigned | declared | var | fn =>
    intros
    intro P
    simp only [ChecksUnsigned, Node.sign, Node.checkNames] at *
    simp only [Expr.signAll, Stmt.sign, Stmt.signAll, Decl.sign, Expr.checkAllNames,
      Stmt.checkNames, Stmt.checkAllNames, Decl.checkNames, h.ownSymbol?_eq, *]
  -- an expression is checked as a name first
  all_goals
    intros
    intro P
    simp only [ChecksUnsigned, Node.sign, Node.checkNames] at *
    unfold Expr.checkNames
    rw [Expr.checkName_sign h]
    simp only [Expr.sign, *]

theorem Decl.checkNames_sign (h : S.Signs t S') (q : Position) (P : List SymbolId) (d : Decl) :
    (d.sign q t).checkNames S' P = d.checkNames S P :=
  (Node.hereditary_checksUnsigned q h).decl d P

end Names

end FrontEnd
