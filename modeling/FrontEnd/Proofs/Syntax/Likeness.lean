import FrontEnd.Grammar.Expression
import FrontEnd.Proofs.Grammar.Reading
import Mathlib.Data.List.Forall2

/-! Tokens, diagnostics and syntax trees that differ in their places and types only. How the places
and the types correspond is left open. -/

namespace FrontEnd

variable (R : Position → Position → Prop) (S : TypeId → TypeId → Prop)

structure Token.Like (t t' : Token) : Prop where
  kind : t.kind = t'.kind
  payload : t.payload = t'.payload
  place : R t.place t'.place

structure Diagnostic.Like (d d' : Diagnostic) : Prop where
  fault : d.fault = d'.fault
  place : R d.place d'.place

structure Site.Like (s s' : Site) : Prop where
  place : R s.place s'.place
  scope : s.scope = s'.scope

structure ExprSite.Like (s s' : ExprSite) : Prop extends Site.Like R s.toSite s'.toSite where
  type : Option.Rel S s.type s'.type

/-- Trees of one shape and with like tokens. -/
inductive Node.Like : Node → Node → Prop
  | leaf {s s' : ExprSite} {form : LeafForm} {k k' : Token} :
      s.Like R S s' → k.Like R k' → Like (.expr (.leaf s form k)) (.expr (.leaf s' form k'))
  | binary {s s' : ExprSite} {form : BinaryForm} {k k' : Token} {a a' b b' : Expr} :
      s.Like R S s' → k.Like R k' → Like (.expr a) (.expr a') → Like (.expr b) (.expr b') →
      Like (.expr (.binary s form k a b)) (.expr (.binary s' form k' a' b'))
  | unary {s s' : ExprSite} {k k' : Token} {a a' : Expr} :
      s.Like R S s' → k.Like R k' → Like (.expr a) (.expr a') →
      Like (.expr (.unary s k a)) (.expr (.unary s' k' a'))
  | call {s s' : ExprSite} {f f' : Expr} {as as' : List Expr} :
      s.Like R S s' → Like (.expr f) (.expr f') → Like (.exprs as) (.exprs as') →
      Like (.expr (.call s f as)) (.expr (.call s' f' as'))
  | block {s s' : ExprSite} {ss ss' : List Stmt} :
      s.Like R S s' → Like (.stmts ss) (.stmts ss') →
      Like (.expr (.block s ss)) (.expr (.block s' ss'))
  | ifThen {s s' : ExprSite} {c c' a a' : Expr} :
      s.Like R S s' → Like (.expr c) (.expr c') → Like (.expr a) (.expr a') →
      Like (.expr (.ifThen s c a)) (.expr (.ifThen s' c' a'))
  | ifElse {s s' : ExprSite} {c c' a a' b b' : Expr} :
      s.Like R S s' → Like (.expr c) (.expr c') → Like (.expr a) (.expr a') →
      Like (.expr b) (.expr b') → Like (.expr (.ifElse s c a b)) (.expr (.ifElse s' c' a' b'))
  | result {s s' : ExprSite} {form : ResultForm} {a a' : Expr} :
      s.Like R S s' → Like (.expr a) (.expr a') →
      Like (.expr (.result s form a)) (.expr (.result s' form a'))
  | noExpr : Like (.exprs []) (.exprs [])
  | moreExprs {e e' : Expr} {es es' : List Expr} : Like (.expr e) (.expr e') →
      Like (.exprs es) (.exprs es') → Like (.exprs (e :: es)) (.exprs (e' :: es'))
  | evaluated {s s' : Site} {e e' : Expr} :
      s.Like R s' → Like (.expr e) (.expr e') → Like (.stmt (.expr s e)) (.stmt (.expr s' e'))
  | assigned {s s' : Site} {l l' e e' : Expr} :
      s.Like R s' → Like (.expr l) (.expr l') → Like (.expr e) (.expr e') →
      Like (.stmt (.assign s l e)) (.stmt (.assign s' l' e'))
  | declared {s s' : Site} {d d' : Decl} :
      s.Like R s' → Like (.decl d) (.decl d') → Like (.stmt (.decl s d)) (.stmt (.decl s' d'))
  | noStmt : Like (.stmts []) (.stmts [])
  | moreStmts {a a' : Stmt} {as as' : List Stmt} : Like (.stmt a) (.stmt a') →
      Like (.stmts as) (.stmts as') → Like (.stmts (a :: as)) (.stmts (a' :: as'))
  | var {s s' : Site} {n n' : Token} {g g' : Option TypeId} {e e' : Expr} {p p' : Position} :
      s.Like R s' → n.Like R n' → Option.Rel S g g' → R p p' → Like (.expr e) (.expr e') →
      Like (.decl (.var s n g e p)) (.decl (.var s' n' g' e' p'))
  | fn {s s' : Site} {n n' : Token} {g g' : Option TypeId} {ps ps' : List Token} {e e' : Expr} :
      s.Like R s' → n.Like R n' → Option.Rel S g g' → List.Forall₂ (Token.Like R) ps ps' →
      Like (.expr e) (.expr e') → Like (.decl (.fn s n g ps e)) (.decl (.fn s' n' g' ps' e'))
  | noDecl : Like (.decls []) (.decls [])
  | moreDecls {d d' : Decl} {ds ds' : List Decl} : Like (.decl d) (.decl d') →
      Like (.decls ds) (.decls ds') → Like (.decls (d :: ds)) (.decls (d' :: ds'))

abbrev Expr.Like (e e' : Expr) : Prop := Node.Like R S (.expr e) (.expr e')

abbrev Stmt.Like (s s' : Stmt) : Prop := Node.Like R S (.stmt s) (.stmt s')

abbrev Decl.Like (d d' : Decl) : Prop := Node.Like R S (.decl d) (.decl d')

structure Program.Like (p p' : Program) : Prop where
  decls : Node.Like R S (.decls p.decls) (.decls p'.decls)
  scope : p.scope = p'.scope

theorem Token.Like.eq {t t' : Token} (h : t.Like Eq t') : t = t' := by
  cases t
  cases t'
  cases h
  simp_all

theorem Diagnostic.Like.eq {d d' : Diagnostic} (h : d.Like Eq d') : d = d' := by
  cases d
  cases d'
  cases h
  simp_all

theorem Site.Like.eq {s s' : Site} (h : s.Like Eq s') : s = s' := by
  cases s
  cases s'
  cases h
  simp_all

theorem eq_of_rel_eq {α : Type} {x y : Option α} (h : Option.Rel Eq x y) : x = y := by
  cases h with
  | some h => rw [h]
  | none => rfl

theorem eq_none_of_rel {α β : Type} {Q : α → β → Prop} {y : Option β} (h : Option.Rel Q none y) :
    y = none := by
  cases h
  rfl

theorem ExprSite.Like.eq {s s' : ExprSite} (h : s.Like Eq Eq s') : s = s' := by
  have hsite := h.toLike.eq
  have htype := eq_of_rel_eq h.type
  cases s
  cases s'
  simp_all

theorem eq_of_forall₂ {α : Type} {R : α → α → Prop} (hR : ∀ a b, R a b → a = b) {as bs : List α}
    (h : List.Forall₂ R as bs) : as = bs :=
  List.forall₂_eq_eq_eq ▸ h.imp hR

theorem Node.Like.eq {a a' : Node} (h : a.Like Eq Eq a') : a = a' := by
  induction h with
  | leaf hs hk => rw [hs.eq, hk.eq]
  | binary hs hk _ _ iha ihb =>
    rw [hs.eq, hk.eq, Node.expr.inj iha, Node.expr.inj ihb]
  | unary hs hk _ iha => rw [hs.eq, hk.eq, Node.expr.inj iha]
  | call hs _ _ ihf ihas => rw [hs.eq, Node.expr.inj ihf, Node.exprs.inj ihas]
  | block hs _ ih => rw [hs.eq, Node.stmts.inj ih]
  | ifThen hs _ _ ihc iha => rw [hs.eq, Node.expr.inj ihc, Node.expr.inj iha]
  | ifElse hs _ _ _ ihc iha ihb =>
    rw [hs.eq, Node.expr.inj ihc, Node.expr.inj iha, Node.expr.inj ihb]
  | result hs _ ih => rw [hs.eq, Node.expr.inj ih]
  | noExpr | noStmt | noDecl => rfl
  | moreExprs _ _ ih ihs => rw [Node.expr.inj ih, Node.exprs.inj ihs]
  | evaluated hs _ ih => rw [hs.eq, Node.expr.inj ih]
  | assigned hs _ _ ihl ihe => rw [hs.eq, Node.expr.inj ihl, Node.expr.inj ihe]
  | declared hs _ ih => rw [hs.eq, Node.decl.inj ih]
  | moreStmts _ _ ih ihs => rw [Node.stmt.inj ih, Node.stmts.inj ihs]
  | var hs hn hg hp _ ih => rw [hs.eq, hn.eq, eq_of_rel_eq hg, hp, Node.expr.inj ih]
  | fn hs hn hg hps _ ih =>
    rw [hs.eq, hn.eq, eq_of_rel_eq hg, eq_of_forall₂ (fun _ _ => Token.Like.eq) hps,
      Node.expr.inj ih]
  | moreDecls _ _ ih ihs => rw [Node.decl.inj ih, Node.decls.inj ihs]

variable {R S}

theorem Token.Like.shown {t t' : Token} (h : t.Like R t') : t.shown = t'.shown := by
  simp only [Token.shown, h.payload, h.kind]

theorem Token.Like.text {t t' : Token} (h : t.Like R t') : t.text = t'.text := by
  simp only [Token.text, h.payload]

theorem Token.Like.lexicalFault? {t t' : Token} (h : t.Like R t') :
    t.lexicalFault? = t'.lexicalFault? := by
  simp only [Token.lexicalFault?, h.payload]

theorem Token.map_kind_eq {w w' : List Token} (h : List.Forall₂ (Token.Like R) w w') :
    w.map Token.kind = w'.map Token.kind := by
  induction h with
  | nil => rfl
  | cons ht _ ih => rw [List.map_cons, List.map_cons, ht.kind, ih]

theorem Site.Like.fresh {p p' : Position} (h : R p p') : (Rule.site p).Like R (Rule.site p') :=
  ⟨h, rfl⟩

theorem ExprSite.Like.fresh {p p' : Position} (h : R p p') :
    (Rule.exprSite p).Like R S (Rule.exprSite p') := ⟨⟨h, rfl⟩, .none⟩

theorem rel_mono {S' : TypeId → TypeId → Prop} (hS : ∀ a b, S a b → S' a b)
    {g g' : Option TypeId} (h : Option.Rel S g g') : Option.Rel S' g g' := by
  cases h with
  | some h => exact .some (hS _ _ h)
  | none => exact .none

theorem ExprSite.Like.mono {S' : TypeId → TypeId → Prop} (hS : ∀ a b, S a b → S' a b)
    {s s' : ExprSite} (h : s.Like R S s') : s.Like R S' s' := ⟨h.toLike, rel_mono hS h.type⟩

namespace Node.Like

theorem mono {S' : TypeId → TypeId → Prop} (hS : ∀ a b, S a b → S' a b) {a a' : Node}
    (h : a.Like R S a') : a.Like R S' a' := by
  induction h with
  | leaf hs hk => exact .leaf (hs.mono hS) hk
  | binary hs hk _ _ iha ihb => exact .binary (hs.mono hS) hk iha ihb
  | unary hs hk _ iha => exact .unary (hs.mono hS) hk iha
  | call hs _ _ ihf ihas => exact .call (hs.mono hS) ihf ihas
  | block hs _ ih => exact .block (hs.mono hS) ih
  | ifThen hs _ _ ihc iha => exact .ifThen (hs.mono hS) ihc iha
  | ifElse hs _ _ _ ihc iha ihb => exact .ifElse (hs.mono hS) ihc iha ihb
  | result hs _ ih => exact .result (hs.mono hS) ih
  | noExpr => exact .noExpr
  | moreExprs _ _ ih ihs => exact .moreExprs ih ihs
  | evaluated hs _ ih => exact .evaluated hs ih
  | assigned hs _ _ ihl ihe => exact .assigned hs ihl ihe
  | declared hs _ ih => exact .declared hs ih
  | noStmt => exact .noStmt
  | moreStmts _ _ ih ihs => exact .moreStmts ih ihs
  | var hs hn hg hp _ ih => exact .var hs hn (rel_mono hS hg) hp ih
  | fn hs hn hg hps _ ih => exact .fn hs hn (rel_mono hS hg) hps ih
  | noDecl => exact .noDecl
  | moreDecls _ _ ih ihs => exact .moreDecls ih ihs

theorem site {e e' : Expr} (h : e.Like R S e') : e.site.Like R S e'.site := by
  cases h <;> assumption

theorem place {e e' : Expr} (h : e.Like R S e') : R e.place e'.place := h.site.place

theorem declPlace {d d' : Decl} (h : d.Like R S d') : R d.place d'.place := by
  cases h with
  | var hs _ _ _ _ => exact hs.place
  | fn hs _ _ _ _ => exact hs.place

theorem name? {e e' : Expr} (h : e.Like R S e') :
    Option.Rel (Token.Like R) e.name? e'.name? := by
  cases h with
  | @leaf s s' form k k' _ hk =>
    cases form with
    | literal =>
      by_cases hi : k.kind = .identifier
      · simp only [Expr.name?, hk.kind ▸ hi, hi, if_true]
        exact .some hk
      · simp only [Expr.name?, hk.kind ▸ hi, hi, if_false]
        exact .none
    | access => exact .some hk
  | _ => exact .none

theorem exprs {es es' : List Expr} :
    Node.Like R S (.exprs es) (.exprs es') ↔ List.Forall₂ (Expr.Like R S) es es' := by
  constructor
  · intro h
    induction es generalizing es' with
    | nil => cases h; exact .nil
    | cons e es ih =>
      cases h with
      | moreExprs he hes => exact .cons he (ih hes)
  · intro h
    induction h with
    | nil => exact .noExpr
    | cons he _ ih => exact .moreExprs he ih

end Node.Like

end FrontEnd
