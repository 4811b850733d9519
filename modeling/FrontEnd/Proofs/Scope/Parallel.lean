import FrontEnd.Proofs.Scope.Correspondence
import FrontEnd.Proofs.Scope.InRange

/-! Stamping like nodes over two trees of scopes that need not be like each other. What is added to
the one tree stands for what is added to the other, in the order in which it is added. In the root,
which both trees have, only some names are watched. -/

namespace FrontEnd

variable {C : Correspondence} {W : ScopeId → String → Prop}

/-- Symbols that are declared alike are seen from corresponding places if the places keep their
order. -/
structure Symbol.DeclaredAlike (C : Correspondence) (a a' : Symbol) : Prop
    extends Symbol.Corresponds C a a' where
  isGlobal : a.isGlobal = a'.isGlobal
  visibleFrom : C.place a.visibleFrom a'.visibleFrom

theorem Symbol.DeclaredAlike.visibleAt_eq {a a' : Symbol} (h : a.DeclaredAlike C a')
    (hC : KeepsOrder C.place) (p p' : Position) (hp : C.place p p') :
    a.visibleAt p = a'.visibleAt p' := by
  have horder := hC _ _ _ _ h.visibleFrom hp
  simp [Symbol.visibleAt, h.isGlobal, horder]

/-- The scopes bind corresponding symbols under each of the names that are watched. -/
structure Scope.Corresponds (C : Correspondence) (watched : String → Prop) (a a' : Scope) :
    Prop where
  parent : Option.Rel C.scope a.parent a'.parent
  names (m : String) : watched m →
    Option.Rel C.symbol (a.names.lookup m) (a'.names.lookup m)

/-- Scopes and symbols stand for one another in the order of their numbers. -/
structure Correspondence.Counting (C : Correspondence) : Prop where
  root : C.scope ⟨0⟩ ⟨0⟩
  scope_succ {i i' : Nat} : i ≠ 0 → C.scope ⟨i⟩ ⟨i'⟩ → C.scope ⟨i + 1⟩ ⟨i' + 1⟩
  scope_unique {c c' d d' : ScopeId} : C.scope c c' → C.scope d d' → (c = d ↔ c' = d')
  symbol_succ {i i' : Nat} : C.symbol ⟨i⟩ ⟨i'⟩ → C.symbol ⟨i + 1⟩ ⟨i' + 1⟩
  symbol_unique {s s' t t' : SymbolId} : C.symbol s s' → C.symbol t t' → (s = t ↔ s' = t')

def Watched (n : String) (c : ScopeId) (m : String) : Prop := c = ⟨0⟩ → m = n

/-- The two runs have come equally far, as to the names that are watched. -/
structure Stamping.Parallel (C : Correspondence) (W : ScopeId → String → Prop)
    (r r' : Stamping) : Prop where
  held : r.tree.Holds ⟨0⟩
  scopes : C.scope ⟨r.tree.scopes.size⟩ ⟨r'.tree.scopes.size⟩
  symbols : C.symbol ⟨r.tree.symbols.size⟩ ⟨r'.tree.symbols.size⟩
  scope? {c c' : ScopeId} : C.scope c c' →
    Option.Rel (Scope.Corresponds C (W c)) (r.tree.scope? c) (r'.tree.scope? c')
  symbol? {s s' : SymbolId} : C.symbol s s' →
    Option.Rel (Symbol.DeclaredAlike C) (r.tree.symbol? s) (r'.tree.symbol? s')
  failure : r.failure.isSome = r'.failure.isSome

namespace Stamping.Parallel

variable {r r' : Stamping} {c c' : ScopeId} {a a' : Symbol}

theorem cases_failure (h : r.Parallel C W r') : r.failure = none ∧ r'.failure = none ∨
    ∃ d d', r.failure = some d ∧ r'.failure = some d' := by
  have hf := h.failure
  generalize r.failure = x, r'.failure = x' at hf
  cases x with
  | none => exact .inl ⟨rfl, Option.not_isSome_iff_eq_none.mp (by simp [← hf])⟩
  | some d =>
    obtain ⟨d', hd'⟩ := Option.isSome_iff_exists.mp hf.symm
    exact .inr ⟨d, d', rfl, hd'⟩

theorem own (h : r.Parallel C W r') (hc : C.scope c c') {m : String} (hm : W c m) :
    Option.Rel C.symbol (r.tree.local? c m) (r'.tree.local? c' m) := by
  have hscope := h.scope? hc
  unfold ScopeTree.local?
  generalize r.tree.scope? c = x, r'.tree.scope? c' = x' at hscope
  cases hscope with
  | none => exact .none
  | some hs => exact hs.names m hm

theorem parent (h : r.Parallel C W r') (hc : C.scope c c') :
    Option.Rel C.scope (r.tree.parent? c) (r'.tree.parent? c') := by
  have hscope := h.scope? hc
  unfold ScopeTree.parent?
  generalize r.tree.scope? c = x, r'.tree.scope? c' = x' at hscope
  cases hscope with
  | none => exact .none
  | some hs => exact hs.parent

theorem openScope_ne_root (h : r.Parallel C W r') (p : Position) (d : ScopeId) :
    (r.openScope p d).1 ≠ ⟨0⟩ := by
  intro he
  have hheld : 0 < r.tree.scopes.size := h.held
  exact absurd (congrArg ScopeId.index he) (Nat.ne_of_gt hheld)

theorem openScope (hC : C.Counting) (h : r.Parallel C W r') (p p' : Position) (hc : C.scope c c') :
    C.scope (r.openScope p c).1 (r'.openScope p' c').1 ∧
      (r.openScope p c).2.Parallel C W (r'.openScope p' c').2 := by
  refine ⟨h.scopes, ?_, ?_, h.symbols, fun {d d'} hd => ?_, h.symbol?, h.failure⟩
  · exact h.held.mono (size_le_openScope r p c)
  · have hsucc := hC.scope_succ (Nat.ne_of_gt h.held) h.scopes
    simpa [Stamping.openScope, ScopeTree.push] using hsucc
  · have hiff := hC.scope_unique hd h.scopes
    by_cases he : d = (r.tree.push p (some c)).1
    · obtain rfl := he
      obtain rfl := hiff.mp rfl
      change Option.Rel _ ((r.tree.push p (some c)).2.scope? (r.tree.push p (some c)).1)
        ((r'.tree.push p' (some c')).2.scope? (r'.tree.push p' (some c')).1)
      rw [ScopeTree.scope?_push_self, ScopeTree.scope?_push_self]
      exact .some ⟨.some hc, fun _ _ => .none⟩
    · have he' : d' ≠ (r'.tree.push p' (some c')).1 := fun hd' => he (hiff.mpr hd')
      change Option.Rel _ ((r.tree.push p (some c)).2.scope? d)
        ((r'.tree.push p' (some c')).2.scope? d')
      rw [ScopeTree.scope?_push_of_ne he, ScopeTree.scope?_push_of_ne he']
      exact h.scope? hd

section Bind

variable {S S' : ScopeTree} {i i' : SymbolId} (hC : C.Counting) (h : r.Parallel C W r')
  (hb : r.tree.bind c a = .ok (i, S)) (hb' : r'.tree.bind c' a' = .ok (i', S'))
include hC h hb hb'

theorem scope?_bind (hc : C.scope c c') (hname : a.name = a'.name) {d d' : ScopeId}
    (hd : C.scope d d') :
    Option.Rel (Scope.Corresponds C (W d)) (S.scope? d) (S'.scope? d') := by
  obtain ⟨_, rfl, _⟩ := ScopeTree.of_bind_ok hb
  obtain ⟨_, rfl, _⟩ := ScopeTree.of_bind_ok hb'
  have hscope := h.scope? hd
  have hiff := hC.scope_unique hd hc
  by_cases he : d = c
  · obtain rfl := he
    obtain rfl := hiff.mp rfl
    rw [ScopeTree.scope?_bind_self hb, ScopeTree.scope?_bind_self hb', hname]
    generalize r.tree.scope? d = x, r'.tree.scope? d' = x' at hscope
    cases hscope with
    | none => exact .none
    | some hsc =>
      refine .some ⟨hsc.parent, fun m hm => ?_⟩
      simp only [List.lookup_cons]
      split
      · exact .some h.symbols
      · exact hsc.names m hm
  · rw [ScopeTree.scope?_bind_of_ne hb he,
      ScopeTree.scope?_bind_of_ne hb' fun he' => he (hiff.mpr he')]
    exact hscope

theorem symbol?_bind (ha : a.DeclaredAlike C a') {s s' : SymbolId} (hs : C.symbol s s') :
    Option.Rel (Symbol.DeclaredAlike C) (S.symbol? s) (S'.symbol? s') := by
  obtain ⟨_, rfl, _⟩ := ScopeTree.of_bind_ok hb
  obtain ⟨_, rfl, _⟩ := ScopeTree.of_bind_ok hb'
  have hiff := hC.symbol_unique hs h.symbols
  by_cases he : s = ⟨r.tree.symbols.size⟩
  · obtain rfl := he
    obtain rfl := hiff.mp rfl
    rw [ScopeTree.symbol?_bind_self hb, ScopeTree.symbol?_bind_self hb']
    exact .some ha
  · rw [ScopeTree.symbol?_bind_of_ne hb he,
      ScopeTree.symbol?_bind_of_ne hb' fun he' => he (hiff.mpr he')]
    exact h.symbol? hs

theorem bind (hc : C.scope c c') (ha : a.DeclaredAlike C a') :
    Stamping.Parallel C W { r with tree := S } { r' with tree := S' } where
  held := h.held.mono (ScopeTree.size_bind hb).ge
  scopes := by
    rw [ScopeTree.size_bind hb, ScopeTree.size_bind hb']
    exact h.scopes
  symbols := by
    rw [ScopeTree.size_symbols_bind hb, ScopeTree.size_symbols_bind hb']
    exact hC.symbol_succ h.symbols
  scope? := h.scope?_bind hC hb hb' hc ha.name
  symbol? := h.symbol?_bind hC hb hb' ha
  failure := h.failure

end Bind

/-- A name is bound in both scopes, or it is bound there already in both. -/
theorem declare (hC : C.Counting) (h : r.Parallel C W r') (hc : C.scope c c')
    (ha : a.DeclaredAlike C a') (hn : W c a.name) :
    (r.declare c a).Parallel C W (r'.declare c' a') := by
  rcases h.cases_failure with ⟨hnone, hnone'⟩ | ⟨d, d', hstop, hstop'⟩
  · have hown := h.own hc hn
    rw [show r'.tree.local? c' a.name = r'.tree.local? c' a'.name by rw [ha.name]] at hown
    generalize hs : r.tree.local? c a.name = x, hs' : r'.tree.local? c' a'.name = x' at hown
    cases hown with
    | some _ =>
      rw [declare_of_taken hnone (ScopeTree.bind_eq_error.mpr hs),
        declare_of_taken hnone' (ScopeTree.bind_eq_error.mpr hs')]
      exact ⟨h.held, h.scopes, h.symbols, h.scope?, h.symbol?, rfl⟩
    | none =>
      obtain ⟨S, hb⟩ := ScopeTree.exists_bind hs
      obtain ⟨S', hb'⟩ := ScopeTree.exists_bind hs'
      rw [declare_of_bind hnone hb, declare_of_bind hnone' hb']
      exact h.bind hC hb hb' hc ha
  · rw [declare_of_stopped hstop, declare_of_stopped hstop']
    exact h

theorem declareParams (hC : C.Counting) (h : r.Parallel C W r') (hc : C.scope c c')
    (hall : ∀ m, W c m) {ps ps' : List Token} (hps : List.Forall₂ (Token.Like C.place) ps ps')
    {ts ts' : List TypeId} (hts : List.Forall₂ C.type ts ts') :
    (declareParams c ps ts r).Parallel C W (declareParams c' ps' ts' r') := by
  induction hps generalizing r r' ts ts' with
  | nil => exact h
  | @cons p p' ps ps' hp _ ih =>
    have hhead : Option.Rel C.type ts.head? ts'.head? := by
      cases hts with
      | nil => exact .none
      | cons ht _ => exact .some ht
    have htail : List.Forall₂ C.type ts.tail ts'.tail := by
      cases hts with
      | nil => exact .nil
      | cons _ hts => exact hts
    have hparam : Symbol.DeclaredAlike C ⟨.var, p.text, p.place, p.place, false, ts.head?⟩
        ⟨.var, p'.text, p'.place, p'.place, false, ts'.head?⟩ :=
      ⟨⟨rfl, hp.text, hhead⟩, rfl, hp.place⟩
    exact ih (h.declare hC hc hparam (hall _)) htail

theorem scopes_of_watched (hC : C.Counting) (hplace : KeepsOrder C.place)
    (h : r.Parallel C (fun _ _ => True) r') (hwf : r.tree.WellFormed)
    (hwf' : r'.tree.WellFormed) : C.Scopes r.tree r'.tree where
  wellFormed := hwf
  wellFormed' := hwf'
  parent := h.parent
  own hc _ := h.own hc trivial
  symbol {s s'} hs := by
    have hsymbol := h.symbol? hs
    generalize r.tree.symbol? s = x, r'.tree.symbol? s' = x' at hsymbol
    cases hsymbol with
    | none => exact .none
    | some ha => exact .some ⟨ha.toCorresponds, ha.visibleAt_eq hplace⟩
  unique := hC.symbol_unique

end Stamping.Parallel

/-- What a node that stands in the scope declares there is watched. -/
def Node.StandsIn (W : ScopeId → String → Prop) (c : ScopeId) : Node → Prop
  | .expr _ | .exprs _ => True
  | .decl d => W c d.name.text
  | _ => ∀ m, W c m

theorem Site.Corresponds.stamp {s s' : Site} (h : s.Corresponds C s') {c c' : ScopeId}
    (hc : C.scope c c') :
    Site.Corresponds C { s with scope := some c } { s' with scope := some c' } :=
  ⟨h.place, .some hc⟩

theorem ExprSite.Corresponds.stamp {s s' : ExprSite} (h : s.Corresponds C s') {c c' : ScopeId}
    (hc : C.scope c c') :
    ExprSite.Corresponds C { s with scope := some c } { s' with scope := some c' } :=
  ⟨⟨h.place, .some hc⟩, h.type⟩

theorem Correspondence.Tables.argumentsOf {T T' : TypeTable} (hT : C.Tables T T')
    {g g' : Option TypeId} (hg : Option.Rel C.type g g') :
    List.Forall₂ C.type (T.argumentsOf g) (T'.argumentsOf g') := by
  unfold TypeTable.argumentsOf
  cases hg with
  | none => exact .nil
  | @some t t' ht =>
    have hfunction := hT.function ht
    dsimp only [Option.bind_some]
    generalize T.function? t = x, T'.function? t' = x' at hfunction
    cases hfunction with
    | none => exact .nil
    | some hf => exact hf.1

theorem Node.Corresponds.stamp_of_running {T T' : TypeTable} {c c' : ScopeId} {g : Bool}
    {a a' : Node} {r r' : Stamping} (h : a.Corresponds C a') (hr : r.Parallel C W r')
    (hrun : r.failure = none → r'.failure = none →
      (a.stamp T c g r).1.Corresponds C (a'.stamp T' c' g r').1 ∧
        (a.stamp T c g r).2.Parallel C W (a'.stamp T' c' g r').2) :
    (a.stamp T c g r).1.Corresponds C (a'.stamp T' c' g r').1 ∧
      (a.stamp T c g r).2.Parallel C W (a'.stamp T' c' g r').2 := by
  rcases hr.cases_failure with ⟨hnone, hnone'⟩ | ⟨d, d', hstop, hstop'⟩
  · exact hrun hnone hnone'
  · rw [stamp_of_stopped hstop, stamp_of_stopped hstop']
    exact ⟨h, hr⟩

/-- Nodes that correspond are stamped alike, each form in the same steps. -/
theorem Node.Corresponds.stamp {T T' : TypeTable} (hC : C.Counting) (hT : C.Tables T T')
    (hW : ∀ c, c ≠ ⟨0⟩ → ∀ m, W c m) {a a' : Node} (h : a.Corresponds C a') {c c' : ScopeId}
    (hc : C.scope c c') (hin : a.StandsIn W c) (g : Bool) {r r' : Stamping}
    (hr : r.Parallel C W r') :
    (a.stamp T c g r).1.Corresponds C (a'.stamp T' c' g r').1 ∧
      (a.stamp T c g r).2.Parallel C W (a'.stamp T' c' g r').2 := by
  induction h generalizing c c' g r r' with
  | leaf hs hk =>
    refine Node.Corresponds.stamp_of_running (.leaf hs hk) hr fun hnone hnone' => ?_
    simp only [Node.stamp, Expr.stamp_leaf hnone, Expr.stamp_leaf hnone']
    exact ⟨.leaf (hs.stamp hc) hk, hr⟩
  | binary hs hk ha hb iha ihb =>
    refine Node.Corresponds.stamp_of_running (.binary hs hk ha hb) hr fun hnone hnone' => ?_
    simp only [Node.stamp, Expr.stamp_binary hnone, Expr.stamp_binary hnone']
    obtain ⟨ha, hr⟩ := iha hc trivial g hr
    obtain ⟨hb, hr⟩ := ihb hc trivial g hr
    exact ⟨.binary (hs.stamp hc) hk ha hb, hr⟩
  | unary hs hk ha iha =>
    refine Node.Corresponds.stamp_of_running (.unary hs hk ha) hr fun hnone hnone' => ?_
    simp only [Node.stamp, Expr.stamp_unary hnone, Expr.stamp_unary hnone']
    obtain ⟨ha, hr⟩ := iha hc trivial g hr
    exact ⟨.unary (hs.stamp hc) hk ha, hr⟩
  | call hs hf has ihf ihas =>
    refine Node.Corresponds.stamp_of_running (.call hs hf has) hr fun hnone hnone' => ?_
    simp only [Node.stamp, Expr.stamp_call hnone, Expr.stamp_call hnone']
    obtain ⟨hf, hr⟩ := ihf hc trivial g hr
    obtain ⟨has, hr⟩ := ihas hc trivial g hr
    exact ⟨.call (hs.stamp hc) hf has, hr⟩
  | @block s s' ss ss' hs hss ihss =>
    refine Node.Corresponds.stamp_of_running (.block hs hss) hr fun hnone hnone' => ?_
    simp only [Node.stamp, Expr.stamp_block hnone, Expr.stamp_block hnone']
    obtain ⟨hd, hopened⟩ := hr.openScope hC s.place s'.place hc
    obtain ⟨hss, hr⟩ := ihss hd (hW _ (hr.openScope_ne_root s.place c)) g hopened
    exact ⟨.block (hs.stamp hc) hss, hr⟩
  | ifThen hs hx ha ihx iha =>
    refine Node.Corresponds.stamp_of_running (.ifThen hs hx ha) hr fun hnone hnone' => ?_
    simp only [Node.stamp, Expr.stamp_ifThen hnone, Expr.stamp_ifThen hnone']
    obtain ⟨hx, hr⟩ := ihx hc trivial g hr
    obtain ⟨ha, hr⟩ := iha hc trivial g hr
    exact ⟨.ifThen (hs.stamp hc) hx ha, hr⟩
  | ifElse hs hx ha hb ihx iha ihb =>
    refine Node.Corresponds.stamp_of_running (.ifElse hs hx ha hb) hr fun hnone hnone' => ?_
    simp only [Node.stamp, Expr.stamp_ifElse hnone, Expr.stamp_ifElse hnone']
    obtain ⟨hx, hr⟩ := ihx hc trivial g hr
    obtain ⟨ha, hr⟩ := iha hc trivial g hr
    obtain ⟨hb, hr⟩ := ihb hc trivial g hr
    exact ⟨.ifElse (hs.stamp hc) hx ha hb, hr⟩
  | result hs ha iha =>
    refine Node.Corresponds.stamp_of_running (.result hs ha) hr fun hnone hnone' => ?_
    simp only [Node.stamp, Expr.stamp_result hnone, Expr.stamp_result hnone']
    obtain ⟨ha, hr⟩ := iha hc trivial g hr
    exact ⟨.result (hs.stamp hc) ha, hr⟩
  | noExpr => exact ⟨.noExpr, hr⟩
  | moreExprs _ _ ihe ihes =>
    obtain ⟨he, hr⟩ := ihe hc trivial g hr
    obtain ⟨hes, hr⟩ := ihes hc trivial g hr
    exact ⟨.moreExprs he hes, hr⟩
  | evaluated hs he ihe =>
    refine Node.Corresponds.stamp_of_running (.evaluated hs he) hr fun hnone hnone' => ?_
    simp only [Node.stamp, Stmt.stamp_expr hnone, Stmt.stamp_expr hnone']
    obtain ⟨he, hr⟩ := ihe hc trivial g hr
    exact ⟨.evaluated (hs.stamp hc) he, hr⟩
  | assigned hs hl he ihl ihe =>
    refine Node.Corresponds.stamp_of_running (.assigned hs hl he) hr fun hnone hnone' => ?_
    simp only [Node.stamp, Stmt.stamp_assign hnone, Stmt.stamp_assign hnone']
    obtain ⟨hl, hr⟩ := ihl hc trivial g hr
    obtain ⟨he, hr⟩ := ihe hc trivial g hr
    exact ⟨.assigned (hs.stamp hc) hl he, hr⟩
  | declared hs hd ihd =>
    refine Node.Corresponds.stamp_of_running (.declared hs hd) hr fun hnone hnone' => ?_
    simp only [Node.stamp, Stmt.stamp_decl hnone, Stmt.stamp_decl hnone']
    obtain ⟨hd, hr⟩ := ihd hc (hin _) g hr
    exact ⟨.declared (hs.stamp hc) hd, hr⟩
  | noStmt => exact ⟨.noStmt, hr⟩
  | moreStmts _ _ iha ihas =>
    obtain ⟨hs, hr⟩ := iha hc hin g hr
    obtain ⟨hss, hr⟩ := ihas hc hin g hr
    exact ⟨.moreStmts hs hss, hr⟩
  | @var s s' k k' t t' e e' p p' hs hk ht hp he ihe =>
    refine Node.Corresponds.stamp_of_running (.var hs hk ht hp he) hr fun hnone hnone' => ?_
    simp only [Node.stamp, Decl.stamp_var hnone, Decl.stamp_var hnone']
    obtain ⟨he, hr⟩ := ihe hc trivial g hr
    have hsymbol : Symbol.DeclaredAlike C ⟨.var, k.text, k.place, p, g, t⟩
        ⟨.var, k'.text, k'.place, p', g, t'⟩ := ⟨⟨rfl, hk.text, ht⟩, rfl, hp⟩
    exact ⟨.var (hs.stamp hc) hk ht hp he, hr.declare hC hc hsymbol hin⟩
  | @fn s s' k k' t t' ps ps' e e' hs hk ht hps he ihe =>
    refine Node.Corresponds.stamp_of_running (.fn hs hk ht hps he) hr fun hnone hnone' => ?_
    have hsymbol : Symbol.DeclaredAlike C ⟨.fn, k.text, k.place, k.place, g, t⟩
        ⟨.fn, k'.text, k'.place, k'.place, g, t'⟩ := ⟨⟨rfl, hk.text, ht⟩, rfl, hk.place⟩
    have hdeclared := hr.declare hC hc hsymbol hin
    generalize hr₁ : r.declare c ⟨.fn, k.text, k.place, k.place, g, t⟩ = r₁,
      hr₁' : r'.declare c' ⟨.fn, k'.text, k'.place, k'.place, g, t'⟩ = r₁' at hdeclared
    rcases hdeclared.cases_failure with ⟨hname, hname'⟩ | ⟨d, d', hname, hname'⟩
    · -- the parameters and the body stand in a scope of their own
      simp only [Node.stamp, Decl.stamp_fn hnone hr₁ hname, Decl.stamp_fn hnone' hr₁' hname']
      obtain ⟨hd, hopened⟩ := hdeclared.openScope hC k.place k'.place hc
      have hparams := hopened.declareParams hC hd
        (hW _ (hdeclared.openScope_ne_root k.place c)) hps (hT.argumentsOf ht)
      obtain ⟨he, hr⟩ := ihe hd trivial false hparams
      exact ⟨.fn (hs.stamp hc) hk ht hps he, hr⟩
    · simp only [Node.stamp, Decl.stamp_fn_of_clash hnone hr₁ hname,
        Decl.stamp_fn_of_clash hnone' hr₁' hname']
      exact ⟨.fn (hs.stamp hc) hk ht hps he, hdeclared⟩
  | noDecl => exact ⟨.noDecl, hr⟩
  | moreDecls _ _ ihd ihds =>
    obtain ⟨hd, hr⟩ := ihd hc (hin _) g hr
    obtain ⟨hds, hr⟩ := ihds hc hin g hr
    exact ⟨.moreDecls hd hds, hr⟩

end FrontEnd
