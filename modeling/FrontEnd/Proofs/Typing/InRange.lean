import FrontEnd.Proofs.Scope.InRange
import FrontEnd.Proofs.Typing.Correspondence
import FrontEnd.Proofs.Typing.Differences
import FrontEnd.Proofs.Typing.Results

/-! The types that are written on a program. Annotating finds every type in the table, on a part, at
a symbol or among those inferred so far, and all of these are in range; so is what it leaves when a
broken rule stops it. Types in range can be told apart by how they are shown. -/

namespace FrontEnd

variable {S : ScopeTree} {T : TypeTable} {Q : Site → Prop} {fn : Option TypeId}

/-- What types are read from refers to types of the table only. Types are inferred for variables
whose declarations carry what `Q` says. -/
structure TypeContext.InRange (Q : Site → Prop) (S : ScopeTree) (T : TypeTable) (X : TypeContext) :
    Prop where
  types : X.types = T
  scopes : X.scopes = S
  symbols : S.Closed T
  inferred : ∀ x ∈ X.inferred, T.Holds x.2
  owned : ∀ x ∈ X.inferred, ∃ site n, Q site ∧ Site.ownSymbol? S site n = some x.1

def Annotating.InRange (Q : Site → Prop) (S : ScopeTree) (T : TypeTable) (r : Annotating) : Prop :=
  r.context.InRange Q S T

/-- The work goes on, or a fault stopped it that does not show the same type twice. -/
structure Annotating.Discerning (Q : Site → Prop) (S : ScopeTree) (T : TypeTable)
    (r : Annotating) : Prop where
  inRange : r.InRange Q S T
  apart : ∀ d ∈ r.failure, d.fault.TellsApart

namespace TypeContext

variable {X : TypeContext} {t : TypeId}

theorem InRange.holds_of_symbolType (hX : X.InRange Q S T) {s : SymbolId} {k : Token}
    (h : X.symbolType s k = .ok t) : T.Holds t := by
  unfold symbolType at h
  dsimp only at h
  cases hg : (X.scopes.symbol? s).bind Symbol.signature with
  | some g =>
    obtain ⟨a, ha, hsig⟩ := Option.bind_eq_some_iff.mp hg
    have hgt : g = t := by simpa [hg] using h
    subst hgt
    exact hX.symbols.types (hX.scopes ▸ ha) g hsig
  | none =>
    cases hl : X.inferred.lookup s with
    | none => simp [hg, hl] at h
    | some u =>
      have hut : u = t := by simpa [hg, hl] using h
      subst hut
      obtain ⟨l₁, l₂, he, -⟩ := List.lookup_eq_some_iff.mp hl
      exact hX.inferred (s, u) (he ▸ List.mem_append_right _ List.mem_cons_self)

theorem InRange.holds_of_leafType (hT : T.Reachable) (hX : X.InRange Q S T) {site : ExprSite}
    {k : Token} (h : X.leafType site k = .ok t) : T.Holds t := by
  unfold leafType at h
  split at h
  next => exact pure_eq_ok.mp h ▸ hT.holds_primitive .int
  next => exact pure_eq_ok.mp h ▸ hT.holds_primitive .string
  next => exact pure_eq_ok.mp h ▸ hT.holds_primitive .bool
  next => exact pure_eq_ok.mp h ▸ hT.holds_primitive .bool
  next =>
    obtain ⟨s, -, hs⟩ := bind_eq_ok.mp h
    exact hX.holds_of_symbolType hs
  next => exact nomatch h

theorem holds_of_blockType (hT : T.Reachable) {ss : List Stmt}
    (hss : (Node.stmts ss).Everywhere (Node.Refers Q T)) (h : blockType ss = .ok t) :
    T.Holds t := by
  unfold blockType at h
  split at h
  next e hlast =>
    have hs := Node.Everywhere.stmt_of_mem hss (List.mem_of_getLast? hlast)
    have he := (Node.everywhere_evaluated.mp hs).2
    exact he.self.2 t (Expr.written_eq_ok.mp h)
  next => exact Except.ok.inj h ▸ hT.holds_primitive .unit

/-- A type that is found for an expression is in the table if those on its parts are. -/
theorem InRange.holds_of_typeOf (hT : T.Reachable) (hX : X.InRange Q S T) {e : Expr}
    (he : (Node.expr e).Everywhere (Node.Refers Q T)) (h : X.typeOf fn e = .ok t) : T.Holds t := by
  cases e with
  | leaf site form k => exact hX.holds_of_leafType hT h
  | binary site form k l r =>
    obtain ⟨-, -, rfl⟩ := typeOf_binary.mp h
    cases form with
    | comparison => exact hT.holds_primitive .bool
    | arithmetic => exact hT.holds_primitive .int
  | unary site k e =>
    obtain ⟨-, rfl⟩ := typeOf_unary.mp h
    exact hT.holds_primitive .int
  | call site f as =>
    obtain ⟨g, ts, -, hfun⟩ := function?_of_callType h
    exact (hT.holds_of_function? (hX.types ▸ hfun)).2
  | block site ss => exact holds_of_blockType hT (Node.everywhere_block.mp he).2 h
  | ifThen site c a =>
    obtain ⟨-, -, rfl⟩ := typeOf_ifThen.mp h
    exact hT.holds_primitive .unit
  | ifElse site c a b =>
    obtain ⟨-, ha, -⟩ := typeOf_ifElse.mp h
    exact (Node.everywhere_ifElse.mp he).2.2.1.self.2 t ha
  | result site form v =>
    have hv := (Node.everywhere_result.mp he).2.self.2
    cases form with
    | fromFunction => exact hv t (typeOf_returned.mp h).1
    | fromBlock => exact hv t (typeOf_yielded.mp h)

theorem InRange.declareVar {X' : TypeContext} (hX : X.InRange Q S T) {site : Site} {n : Token}
    {g : Option TypeId} {e : Expr} (hsite : Q site) (he : ∀ t ∈ e.type, T.Holds t)
    (h : X.declareVar site n g e = .ok X') : X'.InRange Q S T := by
  obtain ⟨u, hu, hcases⟩ := declareVar_eq_ok.mp h
  rcases hcases with ⟨_, -, -, rfl⟩ | ⟨-, s, hs, rfl⟩
  · exact hX
  · refine ⟨hX.types, hX.scopes, hX.symbols, ?_, ?_⟩
    · exact List.forall_mem_cons.mpr ⟨he u hu, hX.inferred⟩
    · exact List.forall_mem_cons.mpr ⟨⟨site, n, hsite, hX.scopes ▸ hs⟩, hX.owned⟩

theorem InRange.discerns_typeOf (hT : T.Reachable) (hX : X.InRange Q S T) {e : Expr}
    (he : (Node.expr e).Everywhere (Node.Refers Q T)) : Discerns (X.typeOf fn e) := by
  obtain rfl := hX.types
  cases e with
  | leaf site form k => exact .leafType site k
  | binary site form k l r =>
    refine .bind (Discerns.requireInt l _) fun _ _ => .bind (Discerns.requireInt r _) fun _ _ => ?_
    cases form <;> exact .ok _
  | unary site k e => exact .bind (Discerns.requireInt e _) fun _ _ => .ok _
  | call site f as =>
    have has := (Node.everywhere_call.mp he).2.2
    exact .callType hT fun e he => (Node.Everywhere.expr_of_mem has he).self.2
  | block site ss => exact .blockType ss
  | ifThen site c a =>
    have hc := (Node.everywhere_ifThen.mp he).2.1.self.2
    exact .bind (Discerns.requireBool hT hc) fun _ _ => .bind (Discerns.written a) fun _ _ => .ok _
  | ifElse site c a b =>
    obtain ⟨-, hc, ha, hb⟩ := Node.everywhere_ifElse.mp he
    exact .ifElse hT hc.self.2 ha.self.2 hb.self.2
  | result site form v => exact .resultType hT (Node.everywhere_result.mp he).2.self.2

theorem InRange.discerns_checkAssignment (hT : T.Reachable) (hX : X.InRange Q S T) {l e : Expr}
    (he : ∀ t ∈ e.type, T.Holds t) : Discerns (X.checkAssignment l e) := by
  obtain rfl := hX.types
  exact .checkAssignment hT (fun _ _ _ => hX.holds_of_symbolType) he

theorem InRange.discerns_declareVar (hT : T.Reachable) (hX : X.InRange Q S T) {site : Site}
    {n : Token} {g : Option TypeId} {e : Expr} (hg : ∀ t ∈ g, T.Holds t)
    (he : ∀ t ∈ e.type, T.Holds t) : Discerns (X.declareVar site n g e) := by
  obtain rfl := hX.types
  exact .declareVar hT hg he

end TypeContext

namespace Annotating

variable {r : Annotating}

theorem Discerning.fail (hr : r.Discerning Q S T) {d : Diagnostic} (hd : d.fault.TellsApart) :
    Discerning Q S T { r with failure := some d } :=
  ⟨hr.inRange, fun _ h => Option.some.inj h ▸ hd⟩

/-- The type that is written on an expression is in the table; on its parts nothing changes. -/
theorem Discerning.write (hT : T.Reachable) (hr : r.Discerning Q S T) {e : Expr}
    (he : (Node.expr e).Everywhere (Node.Refers Q T)) : (r.write fn e).2.Discerning Q S T ∧
      (Node.expr (r.write fn e).1).Everywhere (Node.Refers Q T) := by
  unfold Annotating.write
  split
  · exact ⟨hr, he⟩
  · split
    next t ht =>
      have hheld := hr.inRange.holds_of_typeOf hT he ht
      have hown (s : ExprSite) : ∀ u ∈ ({ s with type := some t } : ExprSite).type, T.Holds u := by
        intro u hu
        obtain rfl := Option.some.inj hu
        exact hheld
      refine ⟨hr, ?_⟩
      cases e with
      | leaf s _ _ => exact Node.everywhere_leaf.mpr ⟨he.self.1, hown s⟩
      | binary s _ _ _ _ =>
        exact Node.everywhere_binary.mpr ⟨⟨he.self.1, hown s⟩, (Node.everywhere_binary.mp he).2⟩
      | unary s _ _ =>
        exact Node.everywhere_unary.mpr ⟨⟨he.self.1, hown s⟩, (Node.everywhere_unary.mp he).2⟩
      | call s _ _ =>
        exact Node.everywhere_call.mpr ⟨⟨he.self.1, hown s⟩, (Node.everywhere_call.mp he).2⟩
      | block s _ =>
        exact Node.everywhere_block.mpr ⟨⟨he.self.1, hown s⟩, (Node.everywhere_block.mp he).2⟩
      | ifThen s _ _ =>
        exact Node.everywhere_ifThen.mpr ⟨⟨he.self.1, hown s⟩, (Node.everywhere_ifThen.mp he).2⟩
      | ifElse s _ _ _ =>
        exact Node.everywhere_ifElse.mpr ⟨⟨he.self.1, hown s⟩, (Node.everywhere_ifElse.mp he).2⟩
      | result s _ _ =>
        exact Node.everywhere_result.mpr ⟨⟨he.self.1, hown s⟩, (Node.everywhere_result.mp he).2⟩
    next d hd => exact ⟨hr.fail (hr.inRange.discerns_typeOf hT he d hd), he⟩

theorem Discerning.require (hr : r.Discerning Q S T)
    {check : TypeContext → Except Diagnostic TypeContext}
    (h : ∀ X X', TypeContext.InRange Q S T X → check X = .ok X' → X'.InRange Q S T)
    (hcheck : ∀ X, TypeContext.InRange Q S T X → Discerns (check X)) :
    (r.require check).Discerning Q S T := by
  unfold Annotating.require
  split
  · exact hr
  · split
    next X' hX' => exact ⟨h _ X' hr.inRange hX', hr.apart⟩
    next d hd => exact hr.fail (hcheck _ hr.inRange d hd)

end Annotating

/-- Annotating the node leaves types in range everywhere, and nothing else changes on the nodes. -/
def Node.Annotates (Q : Site → Prop) (S : ScopeTree) (T : TypeTable) (a : Node) : Prop :=
  ∀ fn ⦃r⦄, Annotating.Discerning Q S T r → a.Everywhere (Refers Q T) →
    (a.annotate fn r).2.Discerning Q S T ∧ (a.annotate fn r).1.Everywhere (Refers Q T)

namespace Node

theorem Annotates.of_running {a : Node} (h : ∀ fn r, r.failure = none →
    Annotating.Discerning Q S T r → a.Everywhere (Refers Q T) →
      (a.annotate fn r).2.Discerning Q S T ∧ (a.annotate fn r).1.Everywhere (Refers Q T)) :
    a.Annotates Q S T := by
  intro fn r hr ha
  cases hstop : r.failure with
  | none => exact h fn r hstop hr ha
  | some d =>
    rw [annotate_of_stopped hstop]
    exact ⟨hr, ha⟩

theorem hereditary_annotates (hT : T.Reachable) : Hereditary (Annotates Q S T) where
  leaf := .of_running fun fn r hnone hr h => by
    simp only [Node.annotate, Expr.annotate_leaf hnone]
    exact hr.write hT h
  binary iha ihb := .of_running fun fn r hnone hr h => by
    simp only [Node.annotate, Expr.annotate_binary hnone]
    obtain ⟨hown, ha, hb⟩ := everywhere_binary.mp h
    obtain ⟨hr₁, ha'⟩ := iha fn hr ha
    obtain ⟨hr₂, hb'⟩ := ihb fn hr₁ hb
    exact hr₂.write hT (everywhere_binary.mpr ⟨hown, ha', hb'⟩)
  unary iha := .of_running fun fn r hnone hr h => by
    simp only [Node.annotate, Expr.annotate_unary hnone]
    obtain ⟨hown, ha⟩ := everywhere_unary.mp h
    obtain ⟨hr₁, ha'⟩ := iha fn hr ha
    exact hr₁.write hT (everywhere_unary.mpr ⟨hown, ha'⟩)
  call ihf ihas := .of_running fun fn r hnone hr h => by
    simp only [Node.annotate, Expr.annotate_call hnone]
    obtain ⟨hown, hf, has⟩ := everywhere_call.mp h
    obtain ⟨hr₁, hf'⟩ := ihf fn hr hf
    obtain ⟨hr₂, has'⟩ := ihas fn hr₁ has
    exact hr₂.write hT (everywhere_call.mpr ⟨hown, hf', has'⟩)
  block ih := .of_running fun fn r hnone hr h => by
    simp only [Node.annotate, Expr.annotate_block hnone]
    obtain ⟨hown, hss⟩ := everywhere_block.mp h
    obtain ⟨hr₁, hss'⟩ := ih fn hr hss
    exact hr₁.write hT (everywhere_block.mpr ⟨hown, hss'⟩)
  ifThen iha ihb := .of_running fun fn r hnone hr h => by
    simp only [Node.annotate, Expr.annotate_ifThen hnone]
    obtain ⟨hown, ha, hb⟩ := everywhere_ifThen.mp h
    obtain ⟨hr₁, ha'⟩ := iha fn hr ha
    obtain ⟨hr₂, hb'⟩ := ihb fn hr₁ hb
    exact hr₂.write hT (everywhere_ifThen.mpr ⟨hown, ha', hb'⟩)
  ifElse iha ihb ihd := .of_running fun fn r hnone hr h => by
    simp only [Node.annotate, Expr.annotate_ifElse hnone]
    obtain ⟨hown, ha, hb, hd⟩ := everywhere_ifElse.mp h
    obtain ⟨hr₁, ha'⟩ := iha fn hr ha
    obtain ⟨hr₂, hb'⟩ := ihb fn hr₁ hb
    obtain ⟨hr₃, hd'⟩ := ihd fn hr₂ hd
    exact hr₃.write hT (everywhere_ifElse.mpr ⟨hown, ha', hb', hd'⟩)
  result iha := .of_running fun fn r hnone hr h => by
    simp only [Node.annotate, Expr.annotate_result hnone]
    obtain ⟨hown, ha⟩ := everywhere_result.mp h
    obtain ⟨hr₁, ha'⟩ := iha fn hr ha
    exact hr₁.write hT (everywhere_result.mpr ⟨hown, ha'⟩)
  noExpr := fun _ _ hr h => ⟨hr, h⟩
  moreExprs := by
    intro e es ihe ihes fn r hr h
    obtain ⟨he, hes⟩ := everywhere_moreExprs.mp h
    obtain ⟨hr₁, he'⟩ := ihe fn hr he
    obtain ⟨hr₂, hes'⟩ := ihes fn hr₁ hes
    exact ⟨hr₂, everywhere_moreExprs.mpr ⟨he', hes'⟩⟩
  evaluated ihe := .of_running fun fn r hnone hr h => by
    simp only [Node.annotate, Stmt.annotate_expr hnone]
    obtain ⟨hown, he⟩ := everywhere_evaluated.mp h
    obtain ⟨hr₁, he'⟩ := ihe fn hr he
    exact ⟨hr₁, everywhere_evaluated.mpr ⟨hown, he'⟩⟩
  assigned ihl ihe := .of_running fun fn r hnone hr h => by
    simp only [Node.annotate, Stmt.annotate_assign hnone]
    obtain ⟨hown, hl, he⟩ := everywhere_assigned.mp h
    obtain ⟨hr₁, hl'⟩ := ihl fn hr hl
    obtain ⟨hr₂, he'⟩ := ihe fn hr₁ he
    refine ⟨?_, everywhere_assigned.mpr ⟨hown, hl', he'⟩⟩
    refine hr₂.require (fun X X' hX hX' => ?_) fun X hX => ?_
    · obtain ⟨_, -, rfl⟩ := except_map_eq_ok.mp hX'
      exact hX
    · exact (hX.discerns_checkAssignment hT he'.self.2).map _
  declared ihd := .of_running fun fn r hnone hr h => by
    simp only [Node.annotate, Stmt.annotate_decl hnone]
    obtain ⟨hown, hd⟩ := everywhere_declared.mp h
    obtain ⟨hr₁, hd'⟩ := ihd fn hr hd
    exact ⟨hr₁, everywhere_declared.mpr ⟨hown, hd'⟩⟩
  noStmt := fun _ _ hr h => ⟨hr, h⟩
  moreStmts := by
    intro s ss ihs ihss fn r hr h
    obtain ⟨hs, hss⟩ := everywhere_moreStmts.mp h
    obtain ⟨hr₁, hs'⟩ := ihs fn hr hs
    obtain ⟨hr₂, hss'⟩ := ihss fn hr₁ hss
    exact ⟨hr₂, everywhere_moreStmts.mpr ⟨hs', hss'⟩⟩
  var ihe := .of_running fun fn r hnone hr h => by
    simp only [Node.annotate, Decl.annotate_var hnone]
    obtain ⟨hown, he⟩ := everywhere_var.mp h
    obtain ⟨hr₁, he'⟩ := ihe fn hr he
    refine ⟨?_, everywhere_var.mpr ⟨hown, he'⟩⟩
    refine hr₁.require (fun X X' hX hX' => ?_) fun X hX => ?_
    · exact hX.declareVar hown.1 he'.self.2 hX'
    · exact hX.discerns_declareVar hT hown.2 he'.self.2
  fn {_ _ g _ _} ihe := .of_running fun fn r hnone hr h => by
    cases g with
    | none =>
      simp only [Node.annotate, Decl.annotate_unsigned hnone]
      exact ⟨hr.fail (Fault.tellsApart_of_none rfl), h⟩
    | some g =>
      simp only [Node.annotate, Decl.annotate_signed hnone]
      obtain ⟨hown, he⟩ := everywhere_fn.mp h
      obtain ⟨hr₁, he'⟩ := ihe (some g) hr he
      exact ⟨hr₁, everywhere_fn.mpr ⟨hown, he'⟩⟩

theorem annotates_decls (hT : T.Reachable) (ds : List Decl) : (decls ds).Annotates Q S T := by
  induction ds with
  | nil => exact fun _ _ hr h => ⟨hr, h⟩
  | cons d ds ih =>
    intro fn r hr h
    obtain ⟨hd, hds⟩ := everywhere_moreDecls.mp h
    obtain ⟨hr₁, hd'⟩ := (hereditary_annotates hT).decl d fn hr hd
    obtain ⟨hr₂, hds'⟩ := ih fn hr₁ hds
    exact ⟨hr₂, everywhere_moreDecls.mpr ⟨hd', hds'⟩⟩

end Node

/-- Whether or not the program comes to be annotated, the types on its nodes are in the table, and a
fault that stops the work does not show the same type twice. -/
theorem Program.discerns_annotate (hT : T.Reachable) (hS : S.Closed T) {p : Program}
    (hp : (Node.decls p.decls).Everywhere (Node.Refers Q T)) :
    (Node.decls (p.annotate S T).1.decls).Everywhere (Node.Refers Q T) ∧
      ∀ d ∈ (p.annotate S T).2, d.fault.TellsApart := by
  have hstart : Annotating.InRange Q S T { context := { scopes := S, types := T } } :=
    ⟨rfl, rfl, hS, fun _ hx => (nomatch hx), fun _ hx => nomatch hx⟩
  obtain ⟨hr, hds⟩ := Node.annotates_decls hT p.decls none ⟨hstart, fun _ h => nomatch h⟩ hp
  exact ⟨hds, hr.apart⟩

theorem Program.refers_of_annotate (hT : T.Reachable) (hS : S.Closed T) {p : Program}
    (hp : (Node.decls p.decls).Everywhere (Node.Refers Q T)) :
    (Node.decls (p.annotate S T).1.decls).Everywhere (Node.Refers Q T) :=
  (discerns_annotate hT hS hp).1

end FrontEnd
