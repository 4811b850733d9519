import Mathlib
import FrontEnd.Proofs.Scope.Placement
import FrontEnd.Proofs.Scope.Signing
import FrontEnd.Proofs.Syntax.Visits
import FrontEnd.Proofs.Typing.Completeness
import FrontEnd.Proofs.Typing.Correspondence

/-! Typing a program in which a variable is signed with the type that was inferred for it. The same
types are written on all expressions: what was looked up among the inferred types is declared now.
-/

namespace FrontEnd

variable {q : Position} {t : TypeId} {S : ScopeTree} {T : TypeTable} {fn : Option TypeId}

/-- In the scopes `S` a variable has the signature of its declaration. -/
def Node.Owned (S : ScopeTree) : Node → Prop
  | decl (.var site n g _ _) =>
    ∃ s a, site.ownSymbol? S n = some s ∧ S.symbol? s = some a ∧ a.signature = g
  | _ => True

/-- If a variable without a signature stands at `q`, its initial value has the type `t`. -/
def Node.InfersAt (q : Position) (t : TypeId) : Node → Prop
  | decl (.var site _ none e _) => site.place = q → e.type = some t
  | _ => True

theorem Placed.owned {c : ScopeId} {g : Bool} {w : List Token} {a : Node}
    (h : Placed S T c g w a) : a.Everywhere (Node.Owned S) := by
  induction h with
  | among _ _ ih => exact ih
  | var hs hn _ ih =>
    obtain ⟨s, hs', ha⟩ := hn
    refine Node.everywhere_var.mpr ⟨⟨s, _, ?_, ha, rfl⟩, ih⟩
    rw [Site.ownSymbol?, hs, Option.bind_some, hs']
  | _ => simp_all [Node.Owned]

/-- The scopes of the context are `S`, and of every symbol that had a type the type is known. -/
structure TypeContext.Signs (t : TypeId) (S : ScopeTree) (X X' : TypeContext) : Prop where
  scopes : X'.scopes = S
  types : X'.types = X.types
  signs : X.scopes.Signs t S
  known {s : SymbolId} {u : TypeId} : X.scopes.HasType X.inferred s u → S.HasType X'.inferred s u

/-- The work goes on. -/
structure Annotating.Signs (t : TypeId) (S : ScopeTree) (r r' : Annotating) : Prop
    extends r.context.Signs t S r'.context where
  failure : r'.failure = none

theorem ScopeTree.hasType_cons_self {Γ : Inferred} {s : SymbolId} {u v : TypeId} :
    S.HasType ((s, u) :: Γ) s v ↔
      ∃ d, S.symbol? s = some d ∧ (d.signature = some v ∨ d.signature = none ∧ u = v) := by
  simp [ScopeTree.HasType]

theorem ScopeTree.hasType_cons_of_ne {Γ : Inferred} {s s' : SymbolId} {u v : TypeId}
    (h : s' ≠ s) : S.HasType ((s, u) :: Γ) s' v ↔ S.HasType Γ s' v := by
  simp only [ScopeTree.HasType, List.lookup_cons, beq_false_of_ne h]

namespace TypeContext

theorem blockType_signAll (ss : List Stmt) : blockType (Stmt.signAll q t ss) = blockType ss := by
  induction ss with
  | nil => rfl
  | cons s ss ih =>
    cases ss with
    | nil =>
      cases s with
      | expr _ e => simp [blockType, Stmt.signAll, Stmt.sign, Expr.written]
      | _ => rfl
    | cons s' ss =>
      rw [blockType_cons_cons, ← ih]
      exact blockType_cons_cons _ _ _

namespace Signs

variable {X X' : TypeContext} {u : TypeId} (h : X.Signs t S X')
include h

theorem same_eq (a b : TypeId) : X'.same a b = X.same a b := by rw [same, same, h.types]

theorem shown_eq (a : TypeId) : X'.shown a = X.shown a := by rw [shown, shown, h.types]

theorem requireInt_sign (e : Expr) (p : Position) :
    X'.requireInt (e.sign q t) p = X.requireInt e p := by
  simp only [requireInt, Expr.written, Expr.type_sign, Expr.place_sign, h.same_eq]

theorem requireBool_sign (e : Expr) : X'.requireBool (e.sign q t) = X.requireBool e := by
  simp only [requireBool, Expr.written, Expr.type_sign, Expr.place_sign, h.same_eq, h.shown_eq]

theorem requireArguments_sign (n : Nat) (ts : List TypeId) (es : List Expr) :
    X'.requireArguments n ts (Expr.signAll q t es) = X.requireArguments n ts es := by
  induction es generalizing n ts with
  | nil => cases ts <;> rfl
  | cons e es ih =>
    cases ts with
    | nil => rfl
    | cons u ts =>
      simp only [Expr.signAll, requireArguments, Expr.written, Expr.type_sign, Expr.place_sign,
        h.same_eq, h.shown_eq, ih]

theorem callType_sign (site : ExprSite) (f : Expr) (as : List Expr) :
    X'.callType site (f.sign q t) (Expr.signAll q t as) = X.callType site f as := by
  have hlength : (Expr.signAll q t as).length = as.length := by
    induction as with
    | nil => rfl
    | cons a as ih => simp [Expr.signAll, ih]
  simp only [callType, Expr.written, Expr.type_sign, Expr.place_sign, h.types, h.shown_eq, hlength,
    h.requireArguments_sign]

theorem resultType_sign (fn : Option TypeId) (site : ExprSite) (form : ResultForm) (e : Expr) :
    X'.resultType fn site form (e.sign q t) = X.resultType fn site form e := by
  simp only [resultType, Expr.written, Expr.type_sign, Expr.place_sign, h.types, h.same_eq,
    h.shown_eq]

theorem names {site : Site} {k : Token} {s : SymbolId} (hs : X.scopes.Names site k s) :
    X'.scopes.Names site k s := by
  obtain ⟨c, hc, hlookup⟩ := hs
  rw [← h.signs.lookup_eq] at hlookup
  exact ⟨c, hc, h.scopes ▸ hlookup⟩

theorem leafType {site : ExprSite} {k : Token} (hu : X.leafType site k = .ok u) :
    X'.leafType site k = .ok u := by
  unfold TypeContext.leafType at hu ⊢
  split at hu
  next => exact hu
  next => exact hu
  next => exact hu
  next => exact hu
  next =>
    obtain ⟨s, hs, ht⟩ := bind_eq_ok.mp hu
    have hs := resolve_eq_ok.mp hs
    have hs' := h.names hs
    have ht' := h.known ((symbolType_eq_ok hs).mp ht)
    exact bind_eq_ok.mpr ⟨s, resolve_eq_ok.mpr hs', (symbolType_eq_ok hs').mpr (h.scopes ▸ ht')⟩
  next => exact nomatch hu

theorem typeOf {e : Expr} (hu : X.typeOf fn e = .ok u) : X'.typeOf fn (e.sign q t) = .ok u := by
  rw [← hu]
  cases e with
  | leaf site form k => exact (h.leafType hu).trans hu.symm
  | binary site form k a b =>
    simp only [Expr.sign, TypeContext.typeOf, h.requireInt_sign]
  | unary site k a => simp only [Expr.sign, TypeContext.typeOf, h.requireInt_sign]
  | call site f as => exact h.callType_sign site f as
  | block site ss => exact blockType_signAll ss
  | ifThen site c a =>
    simp only [Expr.sign, TypeContext.typeOf, h.requireBool_sign, Expr.written, Expr.type_sign,
      Expr.place_sign]
  | ifElse site c a b =>
    simp only [Expr.sign, TypeContext.typeOf, h.requireBool_sign, Expr.written, Expr.type_sign,
      Expr.place_sign, h.same_eq, h.shown_eq]
  | result site form a => exact h.resultType_sign fn site form a

theorem checkAssignment {l e : Expr} {v : Unit} (hv : X.checkAssignment l e = .ok v) :
    X'.checkAssignment (l.sign q t) (e.sign q t) = .ok v := by
  obtain ⟨k, s, u, x, hk, hs, hvar, hu, hx, hsame⟩ := checkAssignment_eq_ok.mp hv
  refine checkAssignment_eq_ok.mpr
    ⟨k, s, u, x, (Expr.name?_sign l).trans hk, ?_, ?_, h.scopes ▸ h.known hu,
      (Expr.type_sign e).trans hx, (h.same_eq u x).trans hsame⟩
  · rw [Expr.site_sign]
    exact h.names hs
  · have hsymbol := h.signs.symbol? s
    rw [← h.scopes] at hsymbol
    generalize X.scopes.symbol? s = y, X'.scopes.symbol? s = y' at hsymbol hvar
    cases hsymbol with
    | none => exact hvar
    | some ha => rcases ha with rfl | ⟨-, rfl⟩ <;> exact hvar

/-- What is declared for a symbol now is what is inferred for it. -/
theorem infer {s : SymbolId} {Γ : Inferred} (hΓ : Γ = X'.inferred ∨ Γ = (s, u) :: X'.inferred)
    (hs : S.HasType Γ s u) :
    TypeContext.Signs t S { X with inferred := (s, u) :: X.inferred }
      { X' with inferred := Γ } where
  scopes := h.scopes
  types := h.types
  signs := h.signs
  known {s' v} hv := by
    by_cases he : s' = s
    · subst he
      obtain ⟨d, hd, hcases⟩ := ScopeTree.hasType_cons_self.mp hv
      rcases hcases with hsig | ⟨-, rfl⟩
      · obtain ⟨d', hd', hsig'⟩ := h.signs.exists_signed hd hsig
        exact ⟨d', hd', .inl hsig'⟩
      · exact hs
    · have hold := h.known ((ScopeTree.hasType_cons_of_ne he).mp hv)
      rcases hΓ with rfl | rfl
      · exact hold
      · exact (ScopeTree.hasType_cons_of_ne he).mpr hold

/-- The signature that the variable gets is the type of its initial value. -/
theorem declareVar {Y : TypeContext} {site : Site} {n : Token} {g : Option TypeId} {e : Expr}
    {p : Position} (hY : X.declareVar site n g e = .ok Y)
    (howned : Node.Owned S (.decl (.var site n (site.sign q t g) e p)))
    (hinfers : Node.InfersAt q t (.decl (.var site n g e p))) :
    ∃ Y', X'.declareVar site n (site.sign q t g) (e.sign q t) = .ok Y' ∧ Y.Signs t S Y' := by
  obtain ⟨u, hu, hcases⟩ := declareVar_eq_ok.mp hY
  have hu' : (e.sign q t).type = some u := (Expr.type_sign e).trans hu
  obtain ⟨s, a, hs, ha, hsig⟩ := howned
  rcases hcases with ⟨v, rfl, hsame, rfl⟩ | ⟨rfl, s', hs', rfl⟩
  · exact ⟨X', declareVar_eq_ok.mpr ⟨u, hu', .inl ⟨v, rfl, (h.same_eq v u).trans hsame, rfl⟩⟩, h⟩
  · have hown := h.signs.ownSymbol?_eq site n
    obtain rfl : s = s' := Option.some.inj (hs.symm.trans (hown.trans hs'))
    by_cases hq : site.place = q
    · obtain rfl := Option.some.inj (hu.symm.trans (hinfers hq))
      rw [Site.sign_of_place hq] at hsig ⊢
      exact ⟨X', declareVar_eq_ok.mpr ⟨u, hu', .inl ⟨u, rfl, TypeTable.same_refl _ u, rfl⟩⟩,
        h.infer (.inl rfl) ⟨a, ha, .inl hsig⟩⟩
    · rw [Site.sign_of_ne hq] at hsig ⊢
      exact ⟨_, declareVar_eq_ok.mpr ⟨u, hu', .inr ⟨rfl, s, h.scopes ▸ hs, rfl⟩⟩,
        h.infer (.inr rfl) (ScopeTree.hasType_cons_self.mpr ⟨a, ha, .inr ⟨hsig, rfl⟩⟩)⟩

end Signs

end TypeContext

namespace Annotating

namespace Signs

variable {r r' : Annotating}

theorem start {S' : ScopeTree} (h : S.Signs t S') (T : TypeTable) :
    Annotating.Signs t S' { context := { scopes := S, types := T } }
      { context := { scopes := S', types := T } } where
  scopes := rfl
  types := rfl
  signs := h
  known := by
    rintro s u ⟨d, hd, hsig | ⟨-, hlookup⟩⟩
    · obtain ⟨d', hd', hsig'⟩ := h.exists_signed hd hsig
      exact ⟨d', hd', .inl hsig'⟩
    · exact nomatch hlookup
  failure := rfl

theorem write (hr : r.Signs t S r') {e : Expr} (hdone : (r.write fn e).2.failure = none) :
    (r'.write fn (e.sign q t)).1 = (r.write fn e).1.sign q t ∧
      (r.write fn e).2.Signs t S (r'.write fn (e.sign q t)).2 := by
  generalize hw : r.write fn e = x at hdone ⊢
  obtain ⟨e', r₁⟩ := x
  obtain ⟨rfl, -, u, hu, rfl⟩ := of_write hw hdone
  rw [write_of_typeOf hr.failure (hr.typeOf hu), Expr.sign_mapSite]
  exact ⟨rfl, hr⟩

theorem require {check check' : TypeContext → Except Diagnostic TypeContext}
    (hr : r.Signs t S r') (hdone : (r.require check).failure = none)
    (hcheck : ∀ Y, check r.context = .ok Y → ∃ Y', check' r'.context = .ok Y' ∧ Y.Signs t S Y') :
    (r.require check).Signs t S (r'.require check') := by
  obtain ⟨Y', hY', hsigns⟩ := hcheck _ (of_require hdone).2
  rw [require_of_ok hr.failure hY']
  exact ⟨hsigns, hr.failure⟩

end Signs

end Annotating

namespace Node

variable {P : Node → Prop}

theorem everywhere_write (r : Annotating) (e : Expr) :
    (expr (r.write fn e).1).Everywhere (InfersAt q t) ↔ (expr e).Everywhere (InfersAt q t) := by
  unfold Annotating.write
  split
  · rfl
  · split
    · cases e <;> simp [Expr.mapSite, InfersAt]
    · rfl

/-- Signing the node changes what annotating makes of it by the signature only, if the types that
are inferred at `q` are the signature. -/
def AnnotatesSigned (q : Position) (t : TypeId) (S : ScopeTree) (a : Node) : Prop :=
  ∀ fn ⦃r r'⦄, Annotating.Signs t S r r' → (a.annotate fn r).2.failure = none →
    (a.sign q t).Everywhere (Owned S) → (a.annotate fn r).1.Everywhere (InfersAt q t) →
      ((a.sign q t).annotate fn r').1 = (a.annotate fn r).1.sign q t ∧
        (a.annotate fn r).2.Signs t S ((a.sign q t).annotate fn r').2

theorem AnnotatesSigned.of_running {a : Node}
    (h : ∀ fn r r', Annotating.Signs t S r r' → r.failure = none →
      (a.annotate fn r).2.failure = none → (a.sign q t).Everywhere (Owned S) →
        (a.annotate fn r).1.Everywhere (InfersAt q t) →
          ((a.sign q t).annotate fn r').1 = (a.annotate fn r).1.sign q t ∧
            (a.annotate fn r).2.Signs t S ((a.sign q t).annotate fn r').2) :
    a.AnnotatesSigned q t S :=
  fun fn r r' hr hdone => h fn r r' hr (failure_of_annotate hdone) hdone

theorem hereditary_annotatesSigned (q : Position) (t : TypeId) (S : ScopeTree) :
    Hereditary (AnnotatesSigned q t S) where
  leaf := .of_running fun fn r r' hr hnone hdone _ _ => by
    simp only [Node.annotate, Node.sign, Node.expr.injEq, Expr.sign, Expr.annotate_leaf hnone,
      Expr.annotate_leaf hr.failure] at *
    exact hr.write hdone
  binary iha ihb := .of_running fun fn r r' hr hnone hdone hown hinfers => by
    simp only [AnnotatesSigned, Node.annotate, Node.sign, Node.expr.injEq, Expr.sign,
      Expr.annotate_binary hnone, Expr.annotate_binary hr.failure] at *
    obtain ⟨-, hao, hbo⟩ := everywhere_binary.mp hown
    obtain ⟨-, hai, hbi⟩ := everywhere_binary.mp ((everywhere_write _ _).mp hinfers)
    have hb := Expr.failure_of_write rfl hdone
    have ha := Expr.failure_of_annotate rfl hb
    obtain ⟨hea, hr₁⟩ := iha fn hr ha hao hai
    obtain ⟨heb, hr₂⟩ := ihb fn hr₁ hb hbo hbi
    rw [hea, heb]
    exact hr₂.write hdone
  unary iha := .of_running fun fn r r' hr hnone hdone hown hinfers => by
    simp only [AnnotatesSigned, Node.annotate, Node.sign, Node.expr.injEq, Expr.sign,
      Expr.annotate_unary hnone, Expr.annotate_unary hr.failure] at *
    obtain ⟨-, hao⟩ := everywhere_unary.mp hown
    obtain ⟨-, hai⟩ := everywhere_unary.mp ((everywhere_write _ _).mp hinfers)
    obtain ⟨hea, hr₁⟩ := iha fn hr (Expr.failure_of_write rfl hdone) hao hai
    rw [hea]
    exact hr₁.write hdone
  call ihf ihas := .of_running fun fn r r' hr hnone hdone hown hinfers => by
    simp only [AnnotatesSigned, Node.annotate, Node.sign, Node.expr.injEq, Node.exprs.injEq,
      Expr.sign, Expr.annotate_call hnone, Expr.annotate_call hr.failure] at *
    obtain ⟨-, hfo, haso⟩ := everywhere_call.mp hown
    obtain ⟨-, hfi, hasi⟩ := everywhere_call.mp ((everywhere_write _ _).mp hinfers)
    have has := Expr.failure_of_write rfl hdone
    have hf := Expr.failure_of_annotateAll rfl has
    obtain ⟨hef, hr₁⟩ := ihf fn hr hf hfo hfi
    obtain ⟨heas, hr₂⟩ := ihas fn hr₁ has haso hasi
    rw [hef, heas]
    exact hr₂.write hdone
  block ihss := .of_running fun fn r r' hr hnone hdone hown hinfers => by
    simp only [AnnotatesSigned, Node.annotate, Node.sign, Node.expr.injEq, Node.stmts.injEq,
      Expr.sign, Expr.annotate_block hnone, Expr.annotate_block hr.failure] at *
    obtain ⟨-, hsso⟩ := everywhere_block.mp hown
    obtain ⟨-, hssi⟩ := everywhere_block.mp ((everywhere_write _ _).mp hinfers)
    obtain ⟨hess, hr₁⟩ := ihss fn hr (Expr.failure_of_write rfl hdone) hsso hssi
    rw [hess]
    exact hr₁.write hdone
  ifThen ihc iha := .of_running fun fn r r' hr hnone hdone hown hinfers => by
    simp only [AnnotatesSigned, Node.annotate, Node.sign, Node.expr.injEq, Expr.sign,
      Expr.annotate_ifThen hnone, Expr.annotate_ifThen hr.failure] at *
    obtain ⟨-, hco, hao⟩ := everywhere_ifThen.mp hown
    obtain ⟨-, hci, hai⟩ := everywhere_ifThen.mp ((everywhere_write _ _).mp hinfers)
    have ha := Expr.failure_of_write rfl hdone
    have hc := Expr.failure_of_annotate rfl ha
    obtain ⟨hec, hr₁⟩ := ihc fn hr hc hco hci
    obtain ⟨hea, hr₂⟩ := iha fn hr₁ ha hao hai
    rw [hec, hea]
    exact hr₂.write hdone
  ifElse ihc iha ihb := .of_running fun fn r r' hr hnone hdone hown hinfers => by
    simp only [AnnotatesSigned, Node.annotate, Node.sign, Node.expr.injEq, Expr.sign,
      Expr.annotate_ifElse hnone, Expr.annotate_ifElse hr.failure] at *
    obtain ⟨-, hco, hao, hbo⟩ := everywhere_ifElse.mp hown
    obtain ⟨-, hci, hai, hbi⟩ := everywhere_ifElse.mp ((everywhere_write _ _).mp hinfers)
    have hb := Expr.failure_of_write rfl hdone
    have ha := Expr.failure_of_annotate rfl hb
    have hc := Expr.failure_of_annotate rfl ha
    obtain ⟨hec, hr₁⟩ := ihc fn hr hc hco hci
    obtain ⟨hea, hr₂⟩ := iha fn hr₁ ha hao hai
    obtain ⟨heb, hr₃⟩ := ihb fn hr₂ hb hbo hbi
    rw [hec, hea, heb]
    exact hr₃.write hdone
  result iha := .of_running fun fn r r' hr hnone hdone hown hinfers => by
    simp only [AnnotatesSigned, Node.annotate, Node.sign, Node.expr.injEq, Expr.sign,
      Expr.annotate_result hnone, Expr.annotate_result hr.failure] at *
    obtain ⟨-, hao⟩ := everywhere_result.mp hown
    obtain ⟨-, hai⟩ := everywhere_result.mp ((everywhere_write _ _).mp hinfers)
    obtain ⟨hea, hr₁⟩ := iha fn hr (Expr.failure_of_write rfl hdone) hao hai
    rw [hea]
    exact hr₁.write hdone
  noExpr := fun _ _ _ hr _ _ _ => ⟨rfl, hr⟩
  moreExprs := by
    intro e es ihe ihes fn r r' hr hdone hown hinfers
    simp only [AnnotatesSigned, Node.annotate, Node.sign, Node.expr.injEq, Node.exprs.injEq,
      Expr.signAll, Expr.annotateAll_cons] at *
    obtain ⟨heo, heso⟩ := everywhere_moreExprs.mp hown
    obtain ⟨hei, hesi⟩ := everywhere_moreExprs.mp hinfers
    obtain ⟨he, hr₁⟩ := ihe fn hr (Expr.failure_of_annotateAll rfl hdone) heo hei
    obtain ⟨hes, hr₂⟩ := ihes fn hr₁ hdone heso hesi
    exact ⟨by rw [he, hes], hr₂⟩
  evaluated ihe := .of_running fun fn r r' hr hnone hdone hown hinfers => by
    simp only [AnnotatesSigned, Node.annotate, Node.sign, Node.expr.injEq, Node.stmt.injEq,
      Stmt.sign, Stmt.annotate_expr hnone, Stmt.annotate_expr hr.failure] at *
    obtain ⟨-, heo⟩ := everywhere_evaluated.mp hown
    obtain ⟨-, hei⟩ := everywhere_evaluated.mp hinfers
    obtain ⟨he, hr₁⟩ := ihe fn hr hdone heo hei
    exact ⟨by rw [he], hr₁⟩
  assigned ihl ihe := .of_running fun fn r r' hr hnone hdone hown hinfers => by
    simp only [AnnotatesSigned, Node.annotate, Node.sign, Node.expr.injEq, Node.stmt.injEq,
      Stmt.sign, Stmt.annotate_assign hnone, Stmt.annotate_assign hr.failure] at *
    obtain ⟨-, hlo, heo⟩ := everywhere_assigned.mp hown
    obtain ⟨-, hli, hei⟩ := everywhere_assigned.mp hinfers
    have he := (Annotating.of_require hdone).1
    have hl := Expr.failure_of_annotate rfl he
    obtain ⟨hel, hr₁⟩ := ihl fn hr hl hlo hli
    obtain ⟨hee, hr₂⟩ := ihe fn hr₁ he heo hei
    rw [hel, hee]
    refine ⟨rfl, hr₂.require hdone fun Y hY => ?_⟩
    obtain ⟨v, hv, rfl⟩ := except_map_eq_ok.mp hY
    exact ⟨_, except_map_eq_ok.mpr ⟨v, hr₂.checkAssignment hv, rfl⟩, hr₂.toSigns⟩
  declared ihd := .of_running fun fn r r' hr hnone hdone hown hinfers => by
    simp only [AnnotatesSigned, Node.annotate, Node.sign, Node.decl.injEq, Node.stmt.injEq,
      Stmt.sign, Stmt.annotate_decl hnone, Stmt.annotate_decl hr.failure] at *
    obtain ⟨-, hdo⟩ := everywhere_declared.mp hown
    obtain ⟨-, hdi⟩ := everywhere_declared.mp hinfers
    obtain ⟨hd, hr₁⟩ := ihd fn hr hdone hdo hdi
    exact ⟨by rw [hd], hr₁⟩
  noStmt := fun _ _ _ hr _ _ _ => ⟨rfl, hr⟩
  moreStmts := by
    intro s ss ihs ihss fn r r' hr hdone hown hinfers
    simp only [AnnotatesSigned, Node.annotate, Node.sign, Node.stmt.injEq, Node.stmts.injEq,
      Stmt.signAll, Stmt.annotateAll_cons] at *
    obtain ⟨hso, hsso⟩ := everywhere_moreStmts.mp hown
    obtain ⟨hsi, hssi⟩ := everywhere_moreStmts.mp hinfers
    obtain ⟨hs, hr₁⟩ := ihs fn hr (Stmt.failure_of_annotateAll rfl hdone) hso hsi
    obtain ⟨hss, hr₂⟩ := ihss fn hr₁ hdone hsso hssi
    exact ⟨by rw [hs, hss], hr₂⟩
  var ihe := .of_running fun fn r r' hr hnone hdone hown hinfers => by
    simp only [AnnotatesSigned, Node.annotate, Node.sign, Node.expr.injEq, Node.decl.injEq,
      Decl.sign, Decl.annotate_var hnone, Decl.annotate_var hr.failure] at *
    obtain ⟨hvo, heo⟩ := everywhere_var.mp hown
    obtain ⟨hvi, hei⟩ := everywhere_var.mp hinfers
    obtain ⟨he, hr₁⟩ := ihe fn hr (Annotating.of_require hdone).1 heo hei
    rw [he]
    exact ⟨rfl, hr₁.require hdone fun Y hY => hr₁.declareVar hY hvo hvi⟩
  fn {_ _ g _ _} ihe := .of_running fun fn r r' hr hnone hdone hown hinfers => by
    cases g with
    | none =>
      simp only [Node.annotate, Decl.annotate_unsigned hnone] at hdone
      cases hdone
    | some g =>
      simp only [AnnotatesSigned, Node.annotate, Node.sign, Node.expr.injEq, Node.decl.injEq,
        Decl.sign, Decl.annotate_signed hnone, Decl.annotate_signed hr.failure] at *
      obtain ⟨-, heo⟩ := everywhere_fn.mp hown
      obtain ⟨-, hei⟩ := everywhere_fn.mp hinfers
      obtain ⟨he, hr₁⟩ := ihe (some g) hr hdone heo hei
      exact ⟨by rw [he], hr₁⟩

theorem annotatesSigned_decls (q : Position) (t : TypeId) (S : ScopeTree) (ds : List Decl) :
    (decls ds).AnnotatesSigned q t S := by
  induction ds with
  | nil => exact fun _ _ _ hr _ _ _ => ⟨rfl, hr⟩
  | cons d ds ih =>
    intro fn r r' hr hdone hown hinfers
    have ihd := (hereditary_annotatesSigned q t S).decl d
    simp only [AnnotatesSigned, Node.annotate, Node.sign, Node.decl.injEq, Node.decls.injEq,
      List.map_cons, Decl.annotateAll_cons] at *
    obtain ⟨hdo, hdso⟩ := everywhere_moreDecls.mp hown
    obtain ⟨hdi, hdsi⟩ := everywhere_moreDecls.mp hinfers
    obtain ⟨hd, hr₁⟩ := ihd fn hr (Decl.failure_of_annotateAll rfl hdone) hdo hdi
    obtain ⟨hds, hr₂⟩ := ih fn hr₁ hdone hdso hdsi
    exact ⟨by rw [hd, hds], hr₂⟩

end Node

end FrontEnd
