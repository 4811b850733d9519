import FrontEnd.Proofs.Scope.Growth
import FrontEnd.Proofs.Scope.Stamping
import FrontEnd.Proofs.Syntax.Likeness

/-! Scopes built for like programs bind the same names to the same symbols. Only the places differ,
and of those only the order counts for what a name means. -/

namespace FrontEnd

structure Symbol.Like (R : Position → Position → Prop) (s s' : Symbol) : Prop where
  kind : s.kind = s'.kind
  name : s.name = s'.name
  place : R s.place s'.place
  visibleFrom : R s.visibleFrom s'.visibleFrom
  isGlobal : s.isGlobal = s'.isGlobal
  signature : s.signature = s'.signature

/-- Where the scopes begin is left open. -/
structure Scope.Like (s s' : Scope) : Prop where
  parent : s.parent = s'.parent
  names : s.names = s'.names

structure ScopeTree.Like (R : Position → Position → Prop) (S S' : ScopeTree) : Prop where
  scopes : S.scopes.size = S'.scopes.size
  symbols : S.symbols.size = S'.symbols.size
  scope? (c : ScopeId) : Option.Rel Scope.Like (S.scope? c) (S'.scope? c)
  symbol? (s : SymbolId) : Option.Rel (Symbol.Like R) (S.symbol? s) (S'.symbol? s)

/-- Corresponding places stand in the same order. -/
def KeepsOrder (R : Position → Position → Prop) : Prop :=
  ∀ p p' q q', R p p' → R q q' → (p < q ↔ p' < q')

variable {R : Position → Position → Prop}

theorem KeepsOrder.eq_iff (hR : KeepsOrder R) {p p' q q' : Position} (hp : R p p') (hq : R q q') :
    p = q ↔ p' = q' := by
  have htotal (p q : Position) : p = q ↔ ¬ p < q ∧ ¬ q < p := by
    obtain ⟨o, l, c⟩ := p
    obtain ⟨o', l', c'⟩ := q
    simp only [Position.lt_def, Position.mk.injEq]
    omega
  rw [htotal, htotal, hR p p' q q' hp hq, hR q q' p p' hq hp]

namespace ScopeTree.Like

variable {S S' : ScopeTree}

theorem local?_eq (h : S.Like R S') (c : ScopeId) (n : String) :
    S.local? c n = S'.local? c n := by
  have hc := h.scope? c
  unfold ScopeTree.local?
  generalize S.scope? c = x, S'.scope? c = x' at hc
  cases hc with
  | none => rfl
  | some hs => simp [hs.names]

theorem parent?_eq (h : S.Like R S') (c : ScopeId) : S.parent? c = S'.parent? c := by
  have hc := h.scope? c
  unfold ScopeTree.parent?
  generalize S.scope? c = x, S'.scope? c = x' at hc
  cases hc with
  | none => rfl
  | some hs => simp [hs.parent]

theorem chainWithin_eq (h : S.Like R S') (n : Nat) (c : ScopeId) :
    S.chainWithin n c = S'.chainWithin n c := by
  induction n generalizing c with
  | zero => rfl
  | succ n ih =>
    have hparent : (S.scope? c).bind Scope.parent = (S'.scope? c).bind Scope.parent :=
      h.parent?_eq c
    simp only [ScopeTree.chainWithin, hparent, ih]

/-- Names are looked up alike at like places if the places keep their order. -/
theorem lookup_eq (h : S.Like R S') (hR : KeepsOrder R) (c : ScopeId) (n : String)
    {p p' : Position} (hp : R p p') : S.lookup c n p = S'.lookup c n p' := by
  have hseen (s : SymbolId) : ((S.symbol? s).map (·.visibleAt p)).getD false =
      ((S'.symbol? s).map (·.visibleAt p')).getD false := by
    have hs := h.symbol? s
    generalize S.symbol? s = x, S'.symbol? s = x' at hs
    cases hs with
    | none => rfl
    | some hs =>
      have horder := hR _ _ _ _ hs.visibleFrom hp
      simp [Symbol.visibleAt, hs.isGlobal, horder]
  have hvisible (d : ScopeId) : S.visible? d n p = S'.visible? d n p' := by
    simp only [ScopeTree.visible?, h.local?_eq, hseen]
  unfold ScopeTree.lookup ScopeTree.chain
  rw [h.chainWithin_eq]
  simp only [hvisible]

theorem push_fst (h : S.Like R S') (p p' : Position) (parent : Option ScopeId) :
    (S.push p parent).1 = (S'.push p' parent).1 := congrArg ScopeId.mk h.scopes

theorem push (h : S.Like R S') (p p' : Position) (parent : Option ScopeId) :
    (S.push p parent).2.Like R (S'.push p' parent).2 := by
  refine ⟨by simp [ScopeTree.push, h.scopes], h.symbols, fun c => ?_, h.symbol?⟩
  by_cases hc : c = (S.push p parent).1
  · have hc' : c = (S'.push p' parent).1 := hc.trans (h.push_fst p p' parent)
    have hnew : (S.push p parent).2.scope? c = some ⟨p, parent, []⟩ := hc ▸ scope?_push_self
    have hnew' : (S'.push p' parent).2.scope? c = some ⟨p', parent, []⟩ :=
      hc' ▸ scope?_push_self
    rw [hnew, hnew']
    exact .some ⟨rfl, rfl⟩
  · have hc' : c ≠ (S'.push p' parent).1 := fun he => hc (he.trans (h.push_fst p p' parent).symm)
    rw [scope?_push_of_ne hc, scope?_push_of_ne hc']
    exact h.scope? c

theorem bind (h : S.Like R S') (c : ScopeId) {a a' : Symbol} (ha : a.Like R a') :
    Alike (fun _ _ => True) (fun x x' => x.2.Like R x'.2) (S.bind c a) (S'.bind c a') := by
  have hlocal : S'.local? c a'.name = S.local? c a.name := by rw [← ha.name, ← h.local?_eq]
  cases hs : S.local? c a.name with
  | some existing =>
    rw [bind_eq_error.mpr hs, bind_eq_error.mpr (hlocal.trans hs)]
    exact .error trivial
  | none =>
    obtain ⟨T, hb⟩ := exists_bind hs
    obtain ⟨T', hb'⟩ := exists_bind (hlocal.trans hs)
    rw [hb, hb']
    rw [← h.symbols] at hb'
    refine .ok ⟨?_, ?_, fun d => ?_, fun s => ?_⟩
    · rw [size_bind hb, size_bind hb', h.scopes]
    · rw [size_symbols_bind hb, size_symbols_bind hb', h.symbols]
    · by_cases hd : d = c
      · have hscope := h.scope? c
        rw [hd, scope?_bind_self hb, scope?_bind_self hb', ← ha.name]
        generalize S.scope? c = x, S'.scope? c = x' at hscope
        cases hscope with
        | none => exact .none
        | some hsc => exact .some ⟨hsc.parent, congrArg (List.cons _) hsc.names⟩
      · rw [scope?_bind_of_ne hb hd, scope?_bind_of_ne hb' hd]
        exact h.scope? d
    · by_cases hi : s = ⟨S.symbols.size⟩
      · rw [hi, symbol?_bind_self hb, symbol?_bind_self hb']
        exact .some ha
      · rw [symbol?_bind_of_ne hb hi, symbol?_bind_of_ne hb' hi]
        exact h.symbol? s

end ScopeTree.Like

structure Stamping.Like (R : Position → Position → Prop) (r r' : Stamping) : Prop where
  tree : r.tree.Like R r'.tree
  failure : Option.Rel (Diagnostic.Like R) r.failure r'.failure

namespace Stamping.Like

variable {r r' : Stamping}

theorem cases_failure (h : r.Like R r') : r.failure = none ∧ r'.failure = none ∨
    ∃ d d', r.failure = some d ∧ r'.failure = some d' := by
  have hf := h.failure
  generalize r.failure = x, r'.failure = x' at hf
  cases hf with
  | none => exact .inl ⟨rfl, rfl⟩
  | some _ => exact .inr ⟨_, _, rfl, rfl⟩

theorem declare (h : r.Like R r') (c : ScopeId) {a a' : Symbol} (ha : a.Like R a') :
    (r.declare c a).Like R (r'.declare c a') := by
  rcases h.cases_failure with ⟨hnone, hnone'⟩ | ⟨d, d', hstop, hstop'⟩
  · have hbind := h.tree.bind c ha
    generalize hb : r.tree.bind c a = x, hb' : r'.tree.bind c a' = x' at hbind
    cases hbind with
    | ok hx =>
      rw [declare_of_bind hnone hb, declare_of_bind hnone' hb']
      exact ⟨hx, h.failure⟩
    | error _ =>
      rw [declare_of_taken hnone hb, declare_of_taken hnone' hb']
      exact ⟨h.tree, .some ⟨congrArg Fault.redefinition ha.name, ha.place⟩⟩
  · rw [declare_of_stopped hstop, declare_of_stopped hstop']
    exact h

theorem declareParams (h : r.Like R r') (c : ScopeId) {ps ps' : List Token}
    (hps : List.Forall₂ (Token.Like R) ps ps') (ts : List TypeId) :
    (Stamping.declareParams c ps ts r).Like R (Stamping.declareParams c ps' ts r') := by
  induction hps generalizing r r' ts with
  | nil => exact h
  | @cons p p' ps ps' hp _ ih =>
    have hparam : (Symbol.mk .var p.text p.place p.place false ts.head?).Like R
        (Symbol.mk .var p'.text p'.place p'.place false ts.head?) :=
      ⟨rfl, hp.text, hp.place, hp.place, rfl, rfl⟩
    exact ih (h.declare c hparam) ts.tail

theorem openScope_fst (h : r.Like R r') (p p' : Position) (c : ScopeId) :
    (r.openScope p c).1 = (r'.openScope p' c).1 := h.tree.push_fst p p' (some c)

theorem openScope (h : r.Like R r') (p p' : Position) (c : ScopeId) :
    (r.openScope p c).2.Like R (r'.openScope p' c).2 := ⟨h.tree.push p p' (some c), h.failure⟩

end Stamping.Like

def Node.stamp (T : TypeTable) (c : ScopeId) (g : Bool) (r : Stamping) : Node → Node × Stamping
  | .expr e => (.expr (e.stamp T c g r).1, (e.stamp T c g r).2)
  | .exprs es => (.exprs (Expr.stampAll T c g es r).1, (Expr.stampAll T c g es r).2)
  | .stmt s => (.stmt (s.stamp T c g r).1, (s.stamp T c g r).2)
  | .stmts ss => (.stmts (Stmt.stampAll T c g ss r).1, (Stmt.stampAll T c g ss r).2)
  | .decl d => (.decl (d.stamp T c g r).1, (d.stamp T c g r).2)
  | .decls ds => (.decls (Decl.stampAll T c g ds r).1, (Decl.stampAll T c g ds r).2)
  | a => (a, r)

theorem Node.stamp_of_stopped {T : TypeTable} {c : ScopeId} {g : Bool} {r : Stamping}
    {why : Diagnostic} (h : r.failure = some why) (a : Node) : a.stamp T c g r = (a, r) := by
  cases a with
  | expr e => simp only [Node.stamp, Expr.stamp_of_stopped h]
  | exprs es => simp only [Node.stamp, Expr.stampAll_of_stopped h]
  | stmt s => simp only [Node.stamp, Stmt.stamp_of_stopped h]
  | stmts ss => simp only [Node.stamp, Stmt.stampAll_of_stopped h]
  | decl d => simp only [Node.stamp, Decl.stamp_of_stopped h]
  | decls ds => simp only [Node.stamp, Decl.stampAll_of_stopped h]
  | _ => rfl

theorem Site.Like.stamp {s s' : Site} (h : s.Like R s') (c : Option ScopeId) :
    Site.Like R { s with scope := c } { s' with scope := c } := ⟨h.place, rfl⟩

theorem ExprSite.Like.stamp {s s' : ExprSite} (h : s.Like R Eq s') (c : Option ScopeId) :
    ExprSite.Like R Eq { s with scope := c } { s' with scope := c } := ⟨⟨h.place, rfl⟩, h.type⟩

theorem Node.Like.stamp_of_running {T : TypeTable} {c : ScopeId} {g : Bool} {a a' : Node}
    {r r' : Stamping} (h : a.Like R Eq a') (hr : r.Like R r')
    (hrun : r.failure = none → r'.failure = none →
      (a.stamp T c g r).1.Like R Eq (a'.stamp T c g r').1 ∧
        (a.stamp T c g r).2.Like R (a'.stamp T c g r').2) :
    (a.stamp T c g r).1.Like R Eq (a'.stamp T c g r').1 ∧
      (a.stamp T c g r).2.Like R (a'.stamp T c g r').2 := by
  rcases hr.cases_failure with ⟨hnone, hnone'⟩ | ⟨d, d', hstop, hstop'⟩
  · exact hrun hnone hnone'
  · rw [stamp_of_stopped hstop, stamp_of_stopped hstop']
    exact ⟨h, hr⟩

theorem Node.Like.stamp {a a' : Node} (h : a.Like R Eq a') (T : TypeTable) (c : ScopeId)
    (g : Bool) {r r' : Stamping} (hr : r.Like R r') :
    (a.stamp T c g r).1.Like R Eq (a'.stamp T c g r').1 ∧
      (a.stamp T c g r).2.Like R (a'.stamp T c g r').2 := by
  induction h generalizing c g r r' with
  | leaf hs hk =>
    refine Node.Like.stamp_of_running (.leaf hs hk) hr fun hnone hnone' => ?_
    simp only [Node.stamp, Expr.stamp_leaf hnone, Expr.stamp_leaf hnone']
    exact ⟨.leaf (hs.stamp _) hk, hr⟩
  | binary hs hk ha hb iha ihb =>
    refine Node.Like.stamp_of_running (.binary hs hk ha hb) hr fun hnone hnone' => ?_
    simp only [Node.stamp, Expr.stamp_binary hnone, Expr.stamp_binary hnone']
    obtain ⟨ha, hr⟩ := iha c g hr
    obtain ⟨hb, hr⟩ := ihb c g hr
    exact ⟨.binary (hs.stamp _) hk ha hb, hr⟩
  | unary hs hk ha iha =>
    refine Node.Like.stamp_of_running (.unary hs hk ha) hr fun hnone hnone' => ?_
    simp only [Node.stamp, Expr.stamp_unary hnone, Expr.stamp_unary hnone']
    obtain ⟨ha, hr⟩ := iha c g hr
    exact ⟨.unary (hs.stamp _) hk ha, hr⟩
  | call hs hf has ihf ihas =>
    refine Node.Like.stamp_of_running (.call hs hf has) hr fun hnone hnone' => ?_
    simp only [Node.stamp, Expr.stamp_call hnone, Expr.stamp_call hnone']
    obtain ⟨hf, hr⟩ := ihf c g hr
    obtain ⟨has, hr⟩ := ihas c g hr
    exact ⟨.call (hs.stamp _) hf has, hr⟩
  | @block s s' ss ss' hs hss ihss =>
    refine Node.Like.stamp_of_running (.block hs hss) hr fun hnone hnone' => ?_
    simp only [Node.stamp, Expr.stamp_block hnone, Expr.stamp_block hnone']
    rw [← hr.openScope_fst s.place s'.place c]
    obtain ⟨hss, hr⟩ := ihss (r.openScope s.place c).1 g (hr.openScope s.place s'.place c)
    exact ⟨.block (hs.stamp _) hss, hr⟩
  | ifThen hs hc ha ihc iha =>
    refine Node.Like.stamp_of_running (.ifThen hs hc ha) hr fun hnone hnone' => ?_
    simp only [Node.stamp, Expr.stamp_ifThen hnone, Expr.stamp_ifThen hnone']
    obtain ⟨hc, hr⟩ := ihc c g hr
    obtain ⟨ha, hr⟩ := iha c g hr
    exact ⟨.ifThen (hs.stamp _) hc ha, hr⟩
  | ifElse hs hc ha hb ihc iha ihb =>
    refine Node.Like.stamp_of_running (.ifElse hs hc ha hb) hr fun hnone hnone' => ?_
    simp only [Node.stamp, Expr.stamp_ifElse hnone, Expr.stamp_ifElse hnone']
    obtain ⟨hc, hr⟩ := ihc c g hr
    obtain ⟨ha, hr⟩ := iha c g hr
    obtain ⟨hb, hr⟩ := ihb c g hr
    exact ⟨.ifElse (hs.stamp _) hc ha hb, hr⟩
  | result hs ha iha =>
    refine Node.Like.stamp_of_running (.result hs ha) hr fun hnone hnone' => ?_
    simp only [Node.stamp, Expr.stamp_result hnone, Expr.stamp_result hnone']
    obtain ⟨ha, hr⟩ := iha c g hr
    exact ⟨.result (hs.stamp _) ha, hr⟩
  | noExpr => exact ⟨.noExpr, hr⟩
  | moreExprs _ _ ihe ihes =>
    obtain ⟨he, hr⟩ := ihe c g hr
    obtain ⟨hes, hr⟩ := ihes c g hr
    exact ⟨.moreExprs he hes, hr⟩
  | evaluated hs he ihe =>
    refine Node.Like.stamp_of_running (.evaluated hs he) hr fun hnone hnone' => ?_
    simp only [Node.stamp, Stmt.stamp_expr hnone, Stmt.stamp_expr hnone']
    obtain ⟨he, hr⟩ := ihe c g hr
    exact ⟨.evaluated (hs.stamp _) he, hr⟩
  | assigned hs hl he ihl ihe =>
    refine Node.Like.stamp_of_running (.assigned hs hl he) hr fun hnone hnone' => ?_
    simp only [Node.stamp, Stmt.stamp_assign hnone, Stmt.stamp_assign hnone']
    obtain ⟨hl, hr⟩ := ihl c g hr
    obtain ⟨he, hr⟩ := ihe c g hr
    exact ⟨.assigned (hs.stamp _) hl he, hr⟩
  | declared hs hd ihd =>
    refine Node.Like.stamp_of_running (.declared hs hd) hr fun hnone hnone' => ?_
    simp only [Node.stamp, Stmt.stamp_decl hnone, Stmt.stamp_decl hnone']
    obtain ⟨hd, hr⟩ := ihd c g hr
    exact ⟨.declared (hs.stamp _) hd, hr⟩
  | noStmt => exact ⟨.noStmt, hr⟩
  | moreStmts _ _ iha ihas =>
    obtain ⟨ha, hr⟩ := iha c g hr
    obtain ⟨has, hr⟩ := ihas c g hr
    exact ⟨.moreStmts ha has, hr⟩
  | @var s s' n n' g₁ g₁' e e' p p' hs hn hg hp he ihe =>
    obtain rfl := eq_of_rel_eq hg
    refine Node.Like.stamp_of_running (.var hs hn hg hp he) hr fun hnone hnone' => ?_
    simp only [Node.stamp, Decl.stamp_var hnone, Decl.stamp_var hnone']
    obtain ⟨he, hr⟩ := ihe c g hr
    exact ⟨.var (hs.stamp _) hn hg hp he,
      hr.declare c ⟨rfl, hn.text, hn.place, hp, rfl, rfl⟩⟩
  | @fn s s' n n' g₁ g₁' ps ps' e e' hs hn hg hps he ihe =>
    obtain rfl := eq_of_rel_eq hg
    refine Node.Like.stamp_of_running (.fn hs hn hg hps he) hr fun hnone hnone' => ?_
    have hsymbol : Symbol.Like R ⟨.fn, n.text, n.place, n.place, g, g₁⟩
        ⟨.fn, n'.text, n'.place, n'.place, g, g₁⟩ := ⟨rfl, hn.text, hn.place, hn.place, rfl, rfl⟩
    have hdeclared := hr.declare c hsymbol
    generalize hr₁ : r.declare c ⟨.fn, n.text, n.place, n.place, g, g₁⟩ = r₁,
      hr₁' : r'.declare c ⟨.fn, n'.text, n'.place, n'.place, g, g₁⟩ = r₁' at hdeclared
    rcases hdeclared.cases_failure with ⟨hname, hname'⟩ | ⟨d, d', hname, hname'⟩
    · simp only [Node.stamp, Decl.stamp_fn hnone hr₁ hname, Decl.stamp_fn hnone' hr₁' hname']
      have hopened := hdeclared.openScope n.place n'.place c
      rw [← hdeclared.openScope_fst n.place n'.place c]
      obtain ⟨he, hr⟩ := ihe _ false (hopened.declareParams _ hps (T.argumentsOf g₁))
      exact ⟨.fn (hs.stamp _) hn hg hps he, hr⟩
    · simp only [Node.stamp, Decl.stamp_fn_of_clash hnone hr₁ hname,
        Decl.stamp_fn_of_clash hnone' hr₁' hname']
      exact ⟨.fn (hs.stamp _) hn hg hps he, hdeclared⟩
  | noDecl => exact ⟨.noDecl, hr⟩
  | moreDecls _ _ ihd ihds =>
    obtain ⟨hd, hr⟩ := ihd c g hr
    obtain ⟨hds, hr⟩ := ihds c g hr
    exact ⟨.moreDecls hd hds, hr⟩

theorem Program.Like.buildScopes {p p' : Program} (h : p.Like R Eq p') (T : TypeTable) :
    (p.buildScopes T .empty).1.Like R Eq (p'.buildScopes T .empty).1 ∧
      (p.buildScopes T .empty).2.Like R (p'.buildScopes T .empty).2 := by
  have hempty : ScopeTree.empty.Like R ScopeTree.empty :=
    ⟨rfl, rfl, fun _ => .none, fun _ => .none⟩
  have hroot : Stamping.Like R { tree := (ScopeTree.empty.push .origin none).2 }
      { tree := (ScopeTree.empty.push .origin none).2 } := ⟨hempty.push _ _ _, .none⟩
  obtain ⟨hdecls, hr⟩ := h.decls.stamp T (ScopeTree.empty.push .origin none).1 true hroot
  exact ⟨⟨hdecls, rfl⟩, hr⟩

def Node.checkNames (S : ScopeTree) (P : List SymbolId) : Node → Except Diagnostic Unit
  | .expr e => e.checkNames S P
  | .exprs es => Expr.checkAllNames S P es
  | .stmt s => s.checkNames S P
  | .stmts ss => Stmt.checkAllNames S P ss
  | .decl d => d.checkNames S P
  | .decls ds => ds.forM (Decl.checkNames S P)
  | _ => .ok ()

end FrontEnd
