import FrontEnd.Proofs.Syntax.Likeness
import FrontEnd.Proofs.Types.Sameness

/-! Syntax trees that differ in their places, scopes and types. Which of them correspond is left
open; between the runs of a pass over two programs it is told by what each of the runs has numbered.
-/

namespace FrontEnd

/-- What stands for what in two runs. -/
structure Correspondence where
  place : Position → Position → Prop
  scope : ScopeId → ScopeId → Prop
  symbol : SymbolId → SymbolId → Prop
  type : TypeId → TypeId → Prop

/-- Corresponding types of the tables `T` and `T'` are built alike. -/
structure Correspondence.Tables (C : Correspondence) (T T' : TypeTable) : Prop where
  primitive (p : Primitive) : C.type (TypeTable.primitive p) (TypeTable.primitive p)
  same {a a' b b' : TypeId} (ha : C.type a a') (hb : C.type b b') : T.same a b = T'.same a' b'
  shown {a a' : TypeId} (ha : C.type a a') : T.shown a = T'.shown a'
  function {a a' : TypeId} (ha : C.type a a') :
    Option.Rel (fun f f' => List.Forall₂ C.type f.1 f'.1 ∧ C.type f.2 f'.2) (T.function? a)
      (T'.function? a')

variable (C : Correspondence)

structure Site.Corresponds (s s' : Site) : Prop where
  place : C.place s.place s'.place
  scope : Option.Rel C.scope s.scope s'.scope

structure ExprSite.Corresponds (s s' : ExprSite) : Prop
    extends Site.Corresponds C s.toSite s'.toSite where
  type : Option.Rel C.type s.type s'.type

/-- Trees of one shape and with the same tokens. -/
inductive Node.Corresponds : Node → Node → Prop
  | leaf {s s' : ExprSite} {form : LeafForm} {k k' : Token} :
      s.Corresponds C s' → k.Like C.place k' →
      Corresponds (.expr (.leaf s form k)) (.expr (.leaf s' form k'))
  | binary {s s' : ExprSite} {form : BinaryForm} {k k' : Token} {a a' b b' : Expr} :
      s.Corresponds C s' → k.Like C.place k' → Corresponds (.expr a) (.expr a') →
      Corresponds (.expr b) (.expr b') →
      Corresponds (.expr (.binary s form k a b)) (.expr (.binary s' form k' a' b'))
  | unary {s s' : ExprSite} {k k' : Token} {a a' : Expr} :
      s.Corresponds C s' → k.Like C.place k' → Corresponds (.expr a) (.expr a') →
      Corresponds (.expr (.unary s k a)) (.expr (.unary s' k' a'))
  | call {s s' : ExprSite} {f f' : Expr} {as as' : List Expr} :
      s.Corresponds C s' → Corresponds (.expr f) (.expr f') →
      Corresponds (.exprs as) (.exprs as') →
      Corresponds (.expr (.call s f as)) (.expr (.call s' f' as'))
  | block {s s' : ExprSite} {ss ss' : List Stmt} :
      s.Corresponds C s' → Corresponds (.stmts ss) (.stmts ss') →
      Corresponds (.expr (.block s ss)) (.expr (.block s' ss'))
  | ifThen {s s' : ExprSite} {c c' a a' : Expr} :
      s.Corresponds C s' → Corresponds (.expr c) (.expr c') → Corresponds (.expr a) (.expr a') →
      Corresponds (.expr (.ifThen s c a)) (.expr (.ifThen s' c' a'))
  | ifElse {s s' : ExprSite} {c c' a a' b b' : Expr} :
      s.Corresponds C s' → Corresponds (.expr c) (.expr c') → Corresponds (.expr a) (.expr a') →
      Corresponds (.expr b) (.expr b') →
      Corresponds (.expr (.ifElse s c a b)) (.expr (.ifElse s' c' a' b'))
  | result {s s' : ExprSite} {form : ResultForm} {a a' : Expr} :
      s.Corresponds C s' → Corresponds (.expr a) (.expr a') →
      Corresponds (.expr (.result s form a)) (.expr (.result s' form a'))
  | noExpr : Corresponds (.exprs []) (.exprs [])
  | moreExprs {e e' : Expr} {es es' : List Expr} : Corresponds (.expr e) (.expr e') →
      Corresponds (.exprs es) (.exprs es') → Corresponds (.exprs (e :: es)) (.exprs (e' :: es'))
  | evaluated {s s' : Site} {e e' : Expr} : s.Corresponds C s' → Corresponds (.expr e) (.expr e') →
      Corresponds (.stmt (.expr s e)) (.stmt (.expr s' e'))
  | assigned {s s' : Site} {l l' e e' : Expr} : s.Corresponds C s' →
      Corresponds (.expr l) (.expr l') → Corresponds (.expr e) (.expr e') →
      Corresponds (.stmt (.assign s l e)) (.stmt (.assign s' l' e'))
  | declared {s s' : Site} {d d' : Decl} : s.Corresponds C s' → Corresponds (.decl d) (.decl d') →
      Corresponds (.stmt (.decl s d)) (.stmt (.decl s' d'))
  | noStmt : Corresponds (.stmts []) (.stmts [])
  | moreStmts {a a' : Stmt} {as as' : List Stmt} : Corresponds (.stmt a) (.stmt a') →
      Corresponds (.stmts as) (.stmts as') → Corresponds (.stmts (a :: as)) (.stmts (a' :: as'))
  | var {s s' : Site} {n n' : Token} {g g' : Option TypeId} {e e' : Expr} {p p' : Position} :
      s.Corresponds C s' → n.Like C.place n' → Option.Rel C.type g g' → C.place p p' →
      Corresponds (.expr e) (.expr e') →
      Corresponds (.decl (.var s n g e p)) (.decl (.var s' n' g' e' p'))
  | fn {s s' : Site} {n n' : Token} {g g' : Option TypeId} {ps ps' : List Token} {e e' : Expr} :
      s.Corresponds C s' → n.Like C.place n' → Option.Rel C.type g g' →
      List.Forall₂ (Token.Like C.place) ps ps' → Corresponds (.expr e) (.expr e') →
      Corresponds (.decl (.fn s n g ps e)) (.decl (.fn s' n' g' ps' e'))
  | noDecl : Corresponds (.decls []) (.decls [])
  | moreDecls {d d' : Decl} {ds ds' : List Decl} : Corresponds (.decl d) (.decl d') →
      Corresponds (.decls ds) (.decls ds') → Corresponds (.decls (d :: ds)) (.decls (d' :: ds'))

abbrev Expr.Corresponds (e e' : Expr) : Prop := Node.Corresponds C (.expr e) (.expr e')

/-- The scopes and symbols of one run, with places and types left open. -/
def Correspondence.sameScopes (R : Position → Position → Prop) (M : TypeId → TypeId → Prop) :
    Correspondence := ⟨R, Eq, Eq, M⟩

section Like

variable {R : Position → Position → Prop} {M : TypeId → TypeId → Prop}

theorem rel_eq_iff {α : Type} {x y : Option α} : Option.Rel Eq x y ↔ x = y := by
  refine ⟨eq_of_rel_eq, ?_⟩
  rintro rfl
  cases x with
  | none => exact .none
  | some a => exact .some rfl

theorem Correspondence.tables_self (T : TypeTable) :
    (Correspondence.sameScopes R Eq).Tables T T := by
  refine ⟨fun _ => rfl, ?_, ?_, ?_⟩
  · rintro a _ b _ rfl rfl
    rfl
  · rintro a _ rfl
    rfl
  · rintro a _ rfl
    cases T.function? a with
    | none => exact .none
    | some f => exact .some ⟨List.forall₂_same.mpr fun _ _ => rfl, rfl⟩

theorem Site.corresponds_sameScopes {s s' : Site} :
    s.Corresponds (.sameScopes R M) s' ↔ s.Like R s' :=
  ⟨fun h => ⟨h.place, rel_eq_iff.mp h.scope⟩, fun h => ⟨h.place, rel_eq_iff.mpr h.scope⟩⟩

theorem ExprSite.corresponds_sameScopes {s s' : ExprSite} :
    s.Corresponds (.sameScopes R M) s' ↔ s.Like R M s' :=
  ⟨fun h => ⟨Site.corresponds_sameScopes.mp h.toCorresponds, h.type⟩,
    fun h => ⟨Site.corresponds_sameScopes.mpr h.toLike, h.type⟩⟩

theorem Node.Like.corresponds {a a' : Node} (h : a.Like R M a') :
    a.Corresponds (.sameScopes R M) a' := by
  induction h with
  | leaf hs hk => exact .leaf (ExprSite.corresponds_sameScopes.mpr hs) hk
  | binary hs hk _ _ ih ih' =>
    exact .binary (ExprSite.corresponds_sameScopes.mpr hs) hk ih ih'
  | unary hs hk _ ih => exact .unary (ExprSite.corresponds_sameScopes.mpr hs) hk ih
  | call hs _ _ ih ih' => exact .call (ExprSite.corresponds_sameScopes.mpr hs) ih ih'
  | block hs _ ih => exact .block (ExprSite.corresponds_sameScopes.mpr hs) ih
  | ifThen hs _ _ ih ih' => exact .ifThen (ExprSite.corresponds_sameScopes.mpr hs) ih ih'
  | ifElse hs _ _ _ ih ih' ih'' =>
    exact .ifElse (ExprSite.corresponds_sameScopes.mpr hs) ih ih' ih''
  | result hs _ ih => exact .result (ExprSite.corresponds_sameScopes.mpr hs) ih
  | noExpr => exact .noExpr
  | moreExprs _ _ ih ih' => exact .moreExprs ih ih'
  | evaluated hs _ ih => exact .evaluated (Site.corresponds_sameScopes.mpr hs) ih
  | assigned hs _ _ ih ih' => exact .assigned (Site.corresponds_sameScopes.mpr hs) ih ih'
  | declared hs _ ih => exact .declared (Site.corresponds_sameScopes.mpr hs) ih
  | noStmt => exact .noStmt
  | moreStmts _ _ ih ih' => exact .moreStmts ih ih'
  | var hs hn hg hp _ ih => exact .var (Site.corresponds_sameScopes.mpr hs) hn hg hp ih
  | fn hs hn hg hps _ ih => exact .fn (Site.corresponds_sameScopes.mpr hs) hn hg hps ih
  | noDecl => exact .noDecl
  | moreDecls _ _ ih ih' => exact .moreDecls ih ih'

theorem Node.Corresponds.like {a a' : Node} (h : a.Corresponds (.sameScopes R M) a') :
    a.Like R M a' := by
  induction h with
  | leaf hs hk => exact .leaf (ExprSite.corresponds_sameScopes.mp hs) hk
  | binary hs hk _ _ ih ih' => exact .binary (ExprSite.corresponds_sameScopes.mp hs) hk ih ih'
  | unary hs hk _ ih => exact .unary (ExprSite.corresponds_sameScopes.mp hs) hk ih
  | call hs _ _ ih ih' => exact .call (ExprSite.corresponds_sameScopes.mp hs) ih ih'
  | block hs _ ih => exact .block (ExprSite.corresponds_sameScopes.mp hs) ih
  | ifThen hs _ _ ih ih' => exact .ifThen (ExprSite.corresponds_sameScopes.mp hs) ih ih'
  | ifElse hs _ _ _ ih ih' ih'' =>
    exact .ifElse (ExprSite.corresponds_sameScopes.mp hs) ih ih' ih''
  | result hs _ ih => exact .result (ExprSite.corresponds_sameScopes.mp hs) ih
  | noExpr => exact .noExpr
  | moreExprs _ _ ih ih' => exact .moreExprs ih ih'
  | evaluated hs _ ih => exact .evaluated (Site.corresponds_sameScopes.mp hs) ih
  | assigned hs _ _ ih ih' => exact .assigned (Site.corresponds_sameScopes.mp hs) ih ih'
  | declared hs _ ih => exact .declared (Site.corresponds_sameScopes.mp hs) ih
  | noStmt => exact .noStmt
  | moreStmts _ _ ih ih' => exact .moreStmts ih ih'
  | var hs hn hg hp _ ih => exact .var (Site.corresponds_sameScopes.mp hs) hn hg hp ih
  | fn hs hn hg hps _ ih => exact .fn (Site.corresponds_sameScopes.mp hs) hn hg hps ih
  | noDecl => exact .noDecl
  | moreDecls _ _ ih ih' => exact .moreDecls ih ih'

end Like

variable {C}

namespace Node.Corresponds

theorem site {e e' : Expr} (h : e.Corresponds C e') : e.site.Corresponds C e'.site := by
  cases h <;> assumption

theorem place {e e' : Expr} (h : e.Corresponds C e') : C.place e.place e'.place := h.site.place

theorem type {e e' : Expr} (h : e.Corresponds C e') : Option.Rel C.type e.type e'.type :=
  h.site.type

theorem name? {e e' : Expr} (h : e.Corresponds C e') :
    Option.Rel (Token.Like C.place) e.name? e'.name? := by
  cases h with
  | @leaf s s' form k k' _ hk =>
    cases form with
    | literal =>
      by_cases hi : k.kind = .identifier
      · simp only [Expr.name?, hk.kind ▸ hi, hi, if_true]
        exact .some hk
      · simp only [Expr.name?, hk.kind ▸ hi, hi, if_false]
        exact .none
    | access => exact .some hk
  | _ => exact .none

theorem mapSite {e e' : Expr} (h : e.Corresponds C e') {f f' : ExprSite → ExprSite}
    (hf : ∀ {s s' : ExprSite}, s.Corresponds C s' → (f s).Corresponds C (f' s')) :
    (e.mapSite f).Corresponds C (e'.mapSite f') := by
  cases h with
  | leaf hs hk => exact .leaf (hf hs) hk
  | binary hs hk ha hb => exact .binary (hf hs) hk ha hb
  | unary hs hk ha => exact .unary (hf hs) hk ha
  | call hs hg has => exact .call (hf hs) hg has
  | block hs hss => exact .block (hf hs) hss
  | ifThen hs hc ha => exact .ifThen (hf hs) hc ha
  | ifElse hs hc ha hb => exact .ifElse (hf hs) hc ha hb
  | result hs ha => exact .result (hf hs) ha

theorem declName {d d' : Decl} (h : Node.Corresponds C (.decl d) (.decl d')) :
    d.name.text = d'.name.text := by
  cases h with
  | var _ hn _ _ _ => exact hn.text
  | fn _ hn _ _ _ => exact hn.text

theorem declSignature {d d' : Decl} (h : Node.Corresponds C (.decl d) (.decl d')) :
    Option.Rel C.type d.signature d'.signature := by
  cases h with
  | var _ _ hg _ _ => exact hg
  | fn _ _ hg _ _ => exact hg

theorem exprs {es es' : List Expr} (h : Node.Corresponds C (.exprs es) (.exprs es')) :
    List.Forall₂ (Expr.Corresponds C) es es' := by
  induction es generalizing es' with
  | nil => cases h; exact .nil
  | cons e es ih =>
    cases h with
    | moreExprs he hes => exact .cons he (ih hes)

end Node.Corresponds

section Composition

theorem rel_comp {α β γ : Type} {R : α → β → Prop} {Q : β → γ → Prop} {U : α → γ → Prop}
    (hU : ∀ a b c, R a b → Q b c → U a c) {x : Option α} {y : Option β} {z : Option γ}
    (h : Option.Rel R x y) (h' : Option.Rel Q y z) : Option.Rel U x z := by
  cases h with
  | none => cases h'; exact .none
  | some h =>
    cases h' with
    | some h' => exact .some (hU _ _ _ h h')

theorem rel_flip {α β : Type} {R : α → β → Prop} {Q : β → α → Prop}
    (hQ : ∀ a b, R a b → Q b a) {x : Option α} {y : Option β} (h : Option.Rel R x y) :
    Option.Rel Q y x := by
  cases h with
  | none => exact .none
  | some h => exact .some (hQ _ _ h)

/-- What stands for something in the runs taken in the other order. -/
structure Correspondence.Inverts (C D : Correspondence) : Prop where
  place (p q : Position) : C.place p q → D.place q p
  scope (c d : ScopeId) : C.scope c d → D.scope d c
  type (t u : TypeId) : C.type t u → D.type u t

/-- What stands for something by way of a third run. -/
structure Correspondence.Composes (C D E : Correspondence) : Prop where
  place (p q r : Position) : C.place p q → D.place q r → E.place p r
  scope (c d e : ScopeId) : C.scope c d → D.scope d e → E.scope c e
  type (t u v : TypeId) : C.type t u → D.type u v → E.type t v

variable {D E : Correspondence}

section Inverse

variable (hD : C.Inverts D)
include hD

theorem Token.Like.symm {k k' : Token} (h : k.Like C.place k') : k'.Like D.place k :=
  ⟨h.kind.symm, h.payload.symm, hD.place _ _ h.place⟩

theorem Site.Corresponds.symm {s s' : Site} (h : s.Corresponds C s') : s'.Corresponds D s :=
  ⟨hD.place _ _ h.place, rel_flip hD.scope h.scope⟩

theorem ExprSite.Corresponds.symm {s s' : ExprSite} (h : s.Corresponds C s') :
    s'.Corresponds D s := ⟨h.toCorresponds.symm hD, rel_flip hD.type h.type⟩

theorem Node.Corresponds.symm {a a' : Node} (h : a.Corresponds C a') : a'.Corresponds D a := by
  induction h with
  | leaf hs hk => exact .leaf (hs.symm hD) (hk.symm hD)
  | binary hs hk _ _ iha ihb => exact .binary (hs.symm hD) (hk.symm hD) iha ihb
  | unary hs hk _ iha => exact .unary (hs.symm hD) (hk.symm hD) iha
  | call hs _ _ ihf ihas => exact .call (hs.symm hD) ihf ihas
  | block hs _ ih => exact .block (hs.symm hD) ih
  | ifThen hs _ _ ihc iha => exact .ifThen (hs.symm hD) ihc iha
  | ifElse hs _ _ _ ihc iha ihb => exact .ifElse (hs.symm hD) ihc iha ihb
  | result hs _ ih => exact .result (hs.symm hD) ih
  | noExpr => exact .noExpr
  | moreExprs _ _ ih ihs => exact .moreExprs ih ihs
  | evaluated hs _ ih => exact .evaluated (hs.symm hD) ih
  | assigned hs _ _ ihl ihe => exact .assigned (hs.symm hD) ihl ihe
  | declared hs _ ih => exact .declared (hs.symm hD) ih
  | noStmt => exact .noStmt
  | moreStmts _ _ ih ihs => exact .moreStmts ih ihs
  | var hs hn hg hp _ ih =>
    exact .var (hs.symm hD) (hn.symm hD) (rel_flip hD.type hg) (hD.place _ _ hp) ih
  | fn hs hn hg hps _ ih =>
    refine .fn (hs.symm hD) (hn.symm hD) (rel_flip hD.type hg) ?_ ih
    exact hps.flip.imp fun _ _ hp => hp.symm hD
  | noDecl => exact .noDecl
  | moreDecls _ _ ih ihs => exact .moreDecls ih ihs

end Inverse

theorem Node.Corresponds.mono (hplace : ∀ p q, C.place p q → D.place p q)
    (hscope : ∀ c d, C.scope c d → D.scope c d) (htype : ∀ t u, C.type t u → D.type t u)
    {a a' : Node} (h : a.Corresponds C a') : a.Corresponds D a' := by
  let B : Correspondence :=
    ⟨fun q p => C.place p q, fun d c => C.scope c d, fun t s => C.symbol s t, fun u t => C.type t u⟩
  have hB : C.Inverts B := ⟨fun _ _ => id, fun _ _ => id, fun _ _ => id⟩
  have hD : B.Inverts D := ⟨fun q p => hplace p q, fun d c => hscope c d, fun u t => htype t u⟩
  exact (h.symm hB).symm hD

variable (hE : C.Composes D E)
include hE

theorem Token.Like.trans {k k' k'' : Token} (h : k.Like C.place k') (h' : k'.Like D.place k'') :
    k.Like E.place k'' :=
  ⟨h.kind.trans h'.kind, h.payload.trans h'.payload, hE.place _ _ _ h.place h'.place⟩

theorem Site.Corresponds.trans {s s' s'' : Site} (h : s.Corresponds C s')
    (h' : s'.Corresponds D s'') : s.Corresponds E s'' :=
  ⟨hE.place _ _ _ h.place h'.place, rel_comp hE.scope h.scope h'.scope⟩

theorem ExprSite.Corresponds.trans {s s' s'' : ExprSite} (h : s.Corresponds C s')
    (h' : s'.Corresponds D s'') : s.Corresponds E s'' :=
  ⟨h.toCorresponds.trans hE h'.toCorresponds, rel_comp hE.type h.type h'.type⟩

theorem Node.Corresponds.trans {a a' a'' : Node} (h : a.Corresponds C a')
    (h' : a'.Corresponds D a'') : a.Corresponds E a'' := by
  induction h generalizing a'' with
  | leaf hs hk =>
    cases h' with
    | leaf hs' hk' => exact .leaf (hs.trans hE hs') (hk.trans hE hk')
  | binary hs hk _ _ iha ihb =>
    cases h' with
    | binary hs' hk' ha hb => exact .binary (hs.trans hE hs') (hk.trans hE hk') (iha ha) (ihb hb)
  | unary hs hk _ iha =>
    cases h' with
    | unary hs' hk' ha => exact .unary (hs.trans hE hs') (hk.trans hE hk') (iha ha)
  | call hs _ _ ihf ihas =>
    cases h' with
    | call hs' hf has => exact .call (hs.trans hE hs') (ihf hf) (ihas has)
  | block hs _ ih =>
    cases h' with
    | block hs' hss => exact .block (hs.trans hE hs') (ih hss)
  | ifThen hs _ _ ihc iha =>
    cases h' with
    | ifThen hs' hc ha => exact .ifThen (hs.trans hE hs') (ihc hc) (iha ha)
  | ifElse hs _ _ _ ihc iha ihb =>
    cases h' with
    | ifElse hs' hc ha hb => exact .ifElse (hs.trans hE hs') (ihc hc) (iha ha) (ihb hb)
  | result hs _ ih =>
    cases h' with
    | result hs' ha => exact .result (hs.trans hE hs') (ih ha)
  | noExpr => cases h'; exact .noExpr
  | moreExprs _ _ ih ihs =>
    cases h' with
    | moreExprs he hes => exact .moreExprs (ih he) (ihs hes)
  | evaluated hs _ ih =>
    cases h' with
    | evaluated hs' he => exact .evaluated (hs.trans hE hs') (ih he)
  | assigned hs _ _ ihl ihe =>
    cases h' with
    | assigned hs' hl he => exact .assigned (hs.trans hE hs') (ihl hl) (ihe he)
  | declared hs _ ih =>
    cases h' with
    | declared hs' hd => exact .declared (hs.trans hE hs') (ih hd)
  | noStmt => cases h'; exact .noStmt
  | moreStmts _ _ ih ihs =>
    cases h' with
    | moreStmts hs hss => exact .moreStmts (ih hs) (ihs hss)
  | var hs hn hg hp _ ih =>
    cases h' with
    | var hs' hn' hg' hp' he =>
      exact .var (hs.trans hE hs') (hn.trans hE hn') (rel_comp hE.type hg hg')
        (hE.place _ _ _ hp hp') (ih he)
  | fn hs hn hg hps _ ih =>
    cases h' with
    | fn hs' hn' hg' hps' he =>
      have hkeys (k k' k'' : Token) (h : k.Like C.place k') (h' : k'.Like D.place k'') :
          k.Like E.place k'' := h.trans hE h'
      exact .fn (hs.trans hE hs') (hn.trans hE hn') (rel_comp hE.type hg hg')
        (forall₂_comp hkeys hps hps') (ih he)
  | noDecl => cases h'; exact .noDecl
  | moreDecls _ _ ih ihs =>
    cases h' with
    | moreDecls hd hds => exact .moreDecls (ih hd) (ihs hds)

end Composition

end FrontEnd
