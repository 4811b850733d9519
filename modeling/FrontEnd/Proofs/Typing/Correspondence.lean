import FrontEnd.Proofs.Scope.Correspondence
import FrontEnd.Proofs.Typing.Annotating

/-! Programs that correspond are typed alike: corresponding types are written on them, or the same
fault stops the work at a corresponding place. What was inferred before may differ as long as it is
not for symbols that correspond. -/

namespace FrontEnd

variable {C : Correspondence}

namespace Correspondence

/-- What types are read from corresponds; of what is inferred, that for symbols without a signature.
-/
structure Contexts (C : Correspondence) (X X' : TypeContext) : Prop where
  trees : C.Trees X.scopes X'.scopes
  tables : C.Tables X.types X'.types
  inferred {s s' : SymbolId} (hs : C.symbol s s')
    (hnone : (X.scopes.symbol? s).bind Symbol.signature = none) :
    Option.Rel C.type (X.inferred.lookup s) (X'.inferred.lookup s')

/-- The work has come equally far, or was stopped by the same fault. -/
structure Runs (C : Correspondence) (r r' : Annotating) : Prop where
  context : C.Contexts r.context r'.context
  failure : Option.Rel (Diagnostic.Like C.place) r.failure r'.failure

end Correspondence

namespace Node.Corresponds

theorem written {e e' : Expr} (h : e.Corresponds C e') :
    Alike (Diagnostic.Like C.place) C.type e.written e'.written := by
  have htype := h.type
  unfold Expr.written
  generalize e.type = x, e'.type = x' at htype
  cases htype with
  | none => exact .error ⟨rfl, h.place⟩
  | some ht => exact .ok ht

theorem blockType {T T' : TypeTable} (hT : C.Tables T T') {ss ss' : List Stmt}
    (h : Node.Corresponds C (.stmts ss) (.stmts ss')) :
    Alike (Diagnostic.Like C.place) C.type (TypeContext.blockType ss)
      (TypeContext.blockType ss') := by
  induction ss generalizing ss' with
  | nil => cases h; exact .ok (hT.primitive .unit)
  | cons a ss ih =>
    cases h with
    | moreStmts ha hss =>
      cases hss with
      | noStmt =>
        cases ha with
        | evaluated _ he => exact he.written
        | assigned _ _ _ => exact .ok (hT.primitive .unit)
        | declared _ _ => exact .ok (hT.primitive .unit)
      | moreStmts hb hss =>
        have hrest := ih (.moreStmts hb hss)
        simpa only [TypeContext.blockType, List.getLast?_cons_cons] using hrest

end Node.Corresponds

namespace Correspondence.Contexts

variable {X X' : TypeContext} (h : C.Contexts X X')
include h

theorem same_eq {a a' b b' : TypeId} (ha : C.type a a') (hb : C.type b b') :
    X.same a b = X'.same a' b' := h.tables.same ha hb

theorem shown_eq {a a' : TypeId} (ha : C.type a a') : X.shown a = X'.shown a' := h.tables.shown ha

theorem symbolType {s s' : SymbolId} (hs : C.symbol s s') {t t' : Token} (ht : t.Like C.place t') :
    Alike (Diagnostic.Like C.place) C.type (X.symbolType s t) (X'.symbolType s' t') := by
  have hsymbol := h.trees.symbol hs
  have hinferred := h.inferred hs
  unfold TypeContext.symbolType
  rw [← ht.text]
  generalize X.scopes.symbol? s = x, X'.scopes.symbol? s' = x' at hsymbol hinferred
  generalize X.inferred.lookup s = y, X'.inferred.lookup s' = y' at hinferred
  cases hsymbol with
  | none =>
    cases hinferred rfl with
    | none => exact .error ⟨rfl, ht.place⟩
    | some hy => exact .ok hy
  | @some a a' ha =>
    obtain ⟨hkind, hname, hsignature⟩ := ha
    simp only [Option.bind_some, Option.map_some, ← hname] at hinferred ⊢
    generalize a.signature = z, a'.signature = z' at hsignature hinferred
    cases hsignature with
    | some hz => exact .ok hz
    | none =>
      cases hinferred rfl with
      | none => exact .error ⟨rfl, ht.place⟩
      | some hy => exact .ok hy

theorem requireInt {e e' : Expr} (he : e.Corresponds C e') {p p' : Position}
    (hp : C.place p p') :
    Alike (Diagnostic.Like C.place) Eq (X.requireInt e p) (X'.requireInt e' p') := by
  refine he.written.bind fun t t' ht => ?_
  have hsame : X.same t TypeTable.int = X'.same t' TypeTable.int :=
    h.same_eq ht (h.tables.primitive .int)
  rw [hsame]
  exact .ite Iff.rfl (.ok rfl) (.error ⟨rfl, hp⟩)

theorem requireBool {e e' : Expr} (he : e.Corresponds C e') :
    Alike (Diagnostic.Like C.place) Eq (X.requireBool e) (X'.requireBool e') := by
  refine he.written.bind fun t t' ht => ?_
  have hsame : X.same t TypeTable.bool = X'.same t' TypeTable.bool :=
    h.same_eq ht (h.tables.primitive .bool)
  rw [hsame, h.shown_eq ht]
  exact .ite Iff.rfl (.ok rfl) (.error ⟨rfl, he.place⟩)

theorem requireArguments (n : Nat) {ts ts' : List TypeId} (hts : List.Forall₂ C.type ts ts')
    {es es' : List Expr} (hes : List.Forall₂ (Expr.Corresponds C) es es') :
    Alike (Diagnostic.Like C.place) Eq (X.requireArguments n ts es)
      (X'.requireArguments n ts' es') := by
  induction hes generalizing n ts ts' with
  | nil => cases hts <;> exact .ok rfl
  | cons he _ ih =>
    cases hts with
    | nil => exact .ok rfl
    | cons ht hts =>
      refine he.written.bind fun u u' hu => ?_
      rw [h.same_eq ht hu, h.shown_eq ht, h.shown_eq hu]
      exact .ite Iff.rfl (ih (n + 1) hts) (.error ⟨rfl, he.place⟩)

theorem callType {s s' : ExprSite} (hs : s.Corresponds C s') {f f' : Expr}
    (hf : f.Corresponds C f') {as as' : List Expr}
    (has : List.Forall₂ (Expr.Corresponds C) as as') :
    Alike (Diagnostic.Like C.place) C.type (X.callType s f as) (X'.callType s' f' as') := by
  refine hf.written.bind fun t t' ht => ?_
  have hfunction := h.tables.function ht
  rw [← has.length_eq, ← h.shown_eq ht]
  generalize X.types.function? t = x, X'.types.function? t' = x' at hfunction
  cases hfunction with
  | none => exact .error ⟨rfl, hf.place⟩
  | @some g g' hg =>
    obtain ⟨hargs, hresult⟩ := hg
    simp only [← hargs.length_eq]
    refine .ite Iff.rfl ?_ (.error ⟨rfl, hs.place⟩)
    exact (h.requireArguments 0 hargs has).bind fun _ _ _ => .ok hresult

theorem resultType {fn fn' : Option TypeId} (hfn : Option.Rel C.type fn fn') {s s' : ExprSite}
    (hs : s.Corresponds C s') (form : ResultForm) {e e' : Expr} (he : e.Corresponds C e') :
    Alike (Diagnostic.Like C.place) C.type (X.resultType fn s form e)
      (X'.resultType fn' s' form e') := by
  cases form with
  | fromBlock => exact he.written
  | fromFunction =>
    cases hfn with
    | none => exact .error ⟨rfl, hs.place⟩
    | @some g g' hg =>
      have hfunction := h.tables.function hg
      unfold TypeContext.resultType
      dsimp only
      generalize X.types.function? g = x, X'.types.function? g' = x' at hfunction
      cases hfunction with
      | none => exact .error ⟨rfl, hs.place⟩
      | some hf =>
        refine he.written.bind fun t t' ht => ?_
        rw [h.same_eq hf.2 ht, h.shown_eq hf.2, h.shown_eq ht]
        exact .ite Iff.rfl (.ok ht) (.error ⟨rfl, hs.place⟩)

theorem resolve {c c' : Option ScopeId} (hc : Option.Rel C.scope c c') {t t' : Token}
    (ht : t.Like C.place t') :
    Alike (Diagnostic.Like C.place) C.symbol (X.resolve c t) (X'.resolve c' t') := by
  unfold TypeContext.resolve
  rw [← ht.text]
  cases hc with
  | none => exact .error ⟨rfl, ht.place⟩
  | @some c c' hc =>
    have hlookup := h.trees.lookup hc ht.place t.text
    dsimp only [Option.bind_some]
    generalize X.scopes.lookup c t.text t.place = x, X'.scopes.lookup c' t.text t'.place = x'
      at hlookup
    cases hlookup with
    | none => exact .error ⟨rfl, ht.place⟩
    | some hs => exact .ok hs

theorem leafType {s s' : ExprSite} (hs : s.Corresponds C s') {t t' : Token}
    (ht : t.Like C.place t') :
    Alike (Diagnostic.Like C.place) C.type (X.leafType s t) (X'.leafType s' t') := by
  unfold TypeContext.leafType
  rw [← ht.kind, ← ht.shown]
  split
  · exact .ok (h.tables.primitive .int)
  · exact .ok (h.tables.primitive .string)
  · exact .ok (h.tables.primitive .bool)
  · exact .ok (h.tables.primitive .bool)
  · exact (h.resolve hs.scope ht).bind fun _ _ hx => h.symbolType hx ht
  · exact .error ⟨rfl, hs.place⟩

theorem typeOf {fn fn' : Option TypeId} (hfn : Option.Rel C.type fn fn') {e e' : Expr}
    (he : e.Corresponds C e') :
    Alike (Diagnostic.Like C.place) C.type (X.typeOf fn e) (X'.typeOf fn' e') := by
  cases he with
  | leaf hs hk => exact h.leafType hs hk
  | @binary s s' form _ _ _ _ _ _ hs _ ha hb =>
    refine (h.requireInt ha hs.place).bind fun _ _ _ => (h.requireInt hb hs.place).bind
      fun _ _ _ => ?_
    cases form with
    | comparison => exact .ok (h.tables.primitive .bool)
    | arithmetic => exact .ok (h.tables.primitive .int)
  | unary hs _ ha =>
    exact (h.requireInt ha hs.place).bind fun _ _ _ => .ok (h.tables.primitive .int)
  | call hs hf has => exact h.callType hs hf has.exprs
  | block _ hss => exact hss.blockType h.tables
  | ifThen _ hc ha =>
    exact (h.requireBool hc).bind fun _ _ _ => ha.written.bind fun _ _ _ =>
      .ok (h.tables.primitive .unit)
  | ifElse hs hc ha hb =>
    refine (h.requireBool hc).bind fun _ _ _ => ha.written.bind fun t t' ht =>
      hb.written.bind fun u u' hu => ?_
    rw [h.same_eq ht hu, h.shown_eq ht, h.shown_eq hu]
    exact .ite Iff.rfl (.ok ht) (.error ⟨rfl, hs.place⟩)
  | result hs ha => exact h.resultType hfn hs _ ha

theorem checkAssignment {l l' e e' : Expr} (hl : l.Corresponds C l') (he : e.Corresponds C e') :
    Alike (Diagnostic.Like C.place) Eq (X.checkAssignment l e) (X'.checkAssignment l' e') := by
  have hname := hl.name?
  have hscope : Option.Rel C.scope l.scope l'.scope := hl.site.scope
  unfold TypeContext.checkAssignment
  generalize l.name? = x, l'.name? = x' at hname
  cases hname with
  | none => exact .error ⟨rfl, hl.place⟩
  | @some t t' ht =>
    dsimp only
    rw [← ht.text]
    refine (h.resolve hscope ht).bind fun s s' hs => ?_
    have hkind : (X.scopes.symbol? s).map Symbol.kind = (X'.scopes.symbol? s').map Symbol.kind := by
      have hsymbol := h.trees.symbol hs
      generalize X.scopes.symbol? s = y, X'.scopes.symbol? s' = y' at hsymbol
      cases hsymbol with
      | none => rfl
      | some hy => exact congrArg some hy.kind
    rw [hkind]
    refine .ite Iff.rfl ?_ (.error ⟨rfl, hl.place⟩)
    refine (h.symbolType hs ht).bind fun a a' ha => he.written.bind fun b b' hb => ?_
    rw [h.same_eq ha hb, h.shown_eq ha, h.shown_eq hb]
    exact .ite Iff.rfl (.ok rfl) (.error ⟨rfl, he.place⟩)

/-- The inferred type of a symbol comes to stand for that of the corresponding one only. -/
theorem infer {s s' : SymbolId} (hs : C.symbol s s') {t t' : TypeId} (ht : C.type t t') :
    C.Contexts { X with inferred := (s, t) :: X.inferred }
      { X' with inferred := (s', t') :: X'.inferred } where
  trees := h.trees
  tables := h.tables
  inferred {u u'} hu hnone := by
    have hiff := h.trees.unique hu hs
    by_cases he : u = s
    · obtain rfl := he
      obtain rfl := hiff.mp rfl
      simp only [List.lookup_cons_self]
      exact .some ht
    · have he' : u' ≠ s' := fun hu' => he (hiff.mpr hu')
      simp only [List.lookup_cons, beq_false_of_ne he, beq_false_of_ne he']
      exact h.inferred hu hnone

theorem declareVar {s s' : Site} (hs : s.Corresponds C s') {n n' : Token}
    (hn : n.Like C.place n') {g g' : Option TypeId} (hg : Option.Rel C.type g g') {e e' : Expr}
    (he : e.Corresponds C e') :
    Alike (Diagnostic.Like C.place) C.Contexts (X.declareVar s n g e)
      (X'.declareVar s' n' g' e') := by
  refine he.written.bind fun t t' ht => ?_
  cases hg with
  | some hg =>
    dsimp only
    rw [h.same_eq hg ht, h.shown_eq hg, h.shown_eq ht]
    exact .ite Iff.rfl (.ok h) (.error ⟨rfl, he.place⟩)
  | none =>
    have hown := h.trees.ownSymbol? hs hn
    dsimp only
    rw [← hn.text]
    generalize s.ownSymbol? X.scopes n = x, s'.ownSymbol? X'.scopes n' = x' at hown
    cases hown with
    | none => exact .error ⟨rfl, hn.place⟩
    | some hsymbol => exact .ok (h.infer hsymbol ht)

end Correspondence.Contexts

namespace Correspondence.Runs

variable {r r' : Annotating}

theorem isSome_eq (h : C.Runs r r') : r.failure.isSome = r'.failure.isSome := by
  have hf := h.failure
  generalize r.failure = x, r'.failure = x' at hf
  cases hf <;> rfl

theorem cases_failure (h : C.Runs r r') : r.failure = none ∧ r'.failure = none ∨
    ∃ d d', r.failure = some d ∧ r'.failure = some d' := by
  have hf := h.failure
  generalize r.failure = x, r'.failure = x' at hf
  cases hf with
  | none => exact .inl ⟨rfl, rfl⟩
  | some _ => exact .inr ⟨_, _, rfl, rfl⟩

theorem write (h : C.Runs r r') {fn fn' : Option TypeId} (hfn : Option.Rel C.type fn fn')
    {e e' : Expr} (he : e.Corresponds C e') :
    (r.write fn e).1.Corresponds C (r'.write fn' e').1 ∧
      C.Runs (r.write fn e).2 (r'.write fn' e').2 := by
  have htype := h.context.typeOf hfn he
  unfold Annotating.write
  rw [h.isSome_eq]
  split
  · exact ⟨he, h⟩
  · generalize r.context.typeOf fn e = x, r'.context.typeOf fn' e' = x' at htype
    cases htype with
    | error hd => exact ⟨he, h.context, .some hd⟩
    | ok ht => exact ⟨he.mapSite fun hs => ⟨hs.toCorresponds, .some ht⟩, h⟩

theorem require (h : C.Runs r r') {check check' : TypeContext → Except Diagnostic TypeContext}
    (hcheck : Alike (Diagnostic.Like C.place) C.Contexts (check r.context)
      (check' r'.context)) : C.Runs (r.require check) (r'.require check') := by
  unfold Annotating.require
  rw [h.isSome_eq]
  split
  · exact h
  · generalize check r.context = x, check' r'.context = x' at hcheck
    cases hcheck with
    | error hd => exact ⟨h.context, .some hd⟩
    | ok hX => exact ⟨hX, h.failure⟩

end Correspondence.Runs

theorem Node.Corresponds.annotate_of_running {fn fn' : Option TypeId} {a a' : Node}
    {r r' : Annotating} (h : a.Corresponds C a') (hr : C.Runs r r')
    (hrun : r.failure = none → r'.failure = none →
      (a.annotate fn r).1.Corresponds C (a'.annotate fn' r').1 ∧
        C.Runs (a.annotate fn r).2 (a'.annotate fn' r').2) :
    (a.annotate fn r).1.Corresponds C (a'.annotate fn' r').1 ∧
      C.Runs (a.annotate fn r).2 (a'.annotate fn' r').2 := by
  rcases hr.cases_failure with ⟨hnone, hnone'⟩ | ⟨d, d', hstop, hstop'⟩
  · exact hrun hnone hnone'
  · rw [Node.annotate_of_stopped hstop, Node.annotate_of_stopped hstop']
    exact ⟨h, hr⟩

/-- Nodes that correspond are annotated alike, each form in the same steps. -/
theorem Node.Corresponds.annotate {a a' : Node} (h : a.Corresponds C a') {fn fn' : Option TypeId}
    (hfn : Option.Rel C.type fn fn') {r r' : Annotating} (hr : C.Runs r r') :
    (a.annotate fn r).1.Corresponds C (a'.annotate fn' r').1 ∧
      C.Runs (a.annotate fn r).2 (a'.annotate fn' r').2 := by
  induction h generalizing fn fn' r r' with
  | leaf hs hk =>
    refine Node.Corresponds.annotate_of_running (.leaf hs hk) hr fun hnone hnone' => ?_
    simp only [Node.annotate, Expr.annotate_leaf hnone, Expr.annotate_leaf hnone']
    exact hr.write hfn (.leaf hs hk)
  | binary hs hk ha hb iha ihb =>
    refine Node.Corresponds.annotate_of_running (.binary hs hk ha hb) hr fun hnone hnone' => ?_
    simp only [Node.annotate, Expr.annotate_binary hnone, Expr.annotate_binary hnone']
    obtain ⟨ha, hr⟩ := iha hfn hr
    obtain ⟨hb, hr⟩ := ihb hfn hr
    exact hr.write hfn (.binary hs hk ha hb)
  | unary hs hk ha iha =>
    refine Node.Corresponds.annotate_of_running (.unary hs hk ha) hr fun hnone hnone' => ?_
    simp only [Node.annotate, Expr.annotate_unary hnone, Expr.annotate_unary hnone']
    obtain ⟨ha, hr⟩ := iha hfn hr
    exact hr.write hfn (.unary hs hk ha)
  | call hs hf has ihf ihas =>
    refine Node.Corresponds.annotate_of_running (.call hs hf has) hr fun hnone hnone' => ?_
    simp only [Node.annotate, Expr.annotate_call hnone, Expr.annotate_call hnone']
    obtain ⟨hf, hr⟩ := ihf hfn hr
    obtain ⟨has, hr⟩ := ihas hfn hr
    exact hr.write hfn (.call hs hf has)
  | block hs hss ihss =>
    refine Node.Corresponds.annotate_of_running (.block hs hss) hr fun hnone hnone' => ?_
    simp only [Node.annotate, Expr.annotate_block hnone, Expr.annotate_block hnone']
    obtain ⟨hss, hr⟩ := ihss hfn hr
    exact hr.write hfn (.block hs hss)
  | ifThen hs hc ha ihc iha =>
    refine Node.Corresponds.annotate_of_running (.ifThen hs hc ha) hr fun hnone hnone' => ?_
    simp only [Node.annotate, Expr.annotate_ifThen hnone, Expr.annotate_ifThen hnone']
    obtain ⟨hc, hr⟩ := ihc hfn hr
    obtain ⟨ha, hr⟩ := iha hfn hr
    exact hr.write hfn (.ifThen hs hc ha)
  | ifElse hs hc ha hb ihc iha ihb =>
    refine Node.Corresponds.annotate_of_running (.ifElse hs hc ha hb) hr fun hnone hnone' => ?_
    simp only [Node.annotate, Expr.annotate_ifElse hnone, Expr.annotate_ifElse hnone']
    obtain ⟨hc, hr⟩ := ihc hfn hr
    obtain ⟨ha, hr⟩ := iha hfn hr
    obtain ⟨hb, hr⟩ := ihb hfn hr
    exact hr.write hfn (.ifElse hs hc ha hb)
  | result hs ha iha =>
    refine Node.Corresponds.annotate_of_running (.result hs ha) hr fun hnone hnone' => ?_
    simp only [Node.annotate, Expr.annotate_result hnone, Expr.annotate_result hnone']
    obtain ⟨ha, hr⟩ := iha hfn hr
    exact hr.write hfn (.result hs ha)
  | noExpr => exact ⟨.noExpr, hr⟩
  | moreExprs _ _ ihe ihes =>
    obtain ⟨he, hr⟩ := ihe hfn hr
    obtain ⟨hes, hr⟩ := ihes hfn hr
    exact ⟨.moreExprs he hes, hr⟩
  | evaluated hs he ihe =>
    refine Node.Corresponds.annotate_of_running (.evaluated hs he) hr fun hnone hnone' => ?_
    simp only [Node.annotate, Stmt.annotate_expr hnone, Stmt.annotate_expr hnone']
    obtain ⟨he, hr⟩ := ihe hfn hr
    exact ⟨.evaluated hs he, hr⟩
  | assigned hs hl he ihl ihe =>
    refine Node.Corresponds.annotate_of_running (.assigned hs hl he) hr fun hnone hnone' => ?_
    simp only [Node.annotate, Stmt.annotate_assign hnone, Stmt.annotate_assign hnone']
    obtain ⟨hl, hr⟩ := ihl hfn hr
    obtain ⟨he, hr⟩ := ihe hfn hr
    refine ⟨.assigned hs hl he, ?_⟩
    exact hr.require ((hr.context.checkAssignment hl he).map fun _ _ _ => hr.context)
  | declared hs hd ihd =>
    refine Node.Corresponds.annotate_of_running (.declared hs hd) hr fun hnone hnone' => ?_
    simp only [Node.annotate, Stmt.annotate_decl hnone, Stmt.annotate_decl hnone']
    obtain ⟨hd, hr⟩ := ihd hfn hr
    exact ⟨.declared hs hd, hr⟩
  | noStmt => exact ⟨.noStmt, hr⟩
  | moreStmts _ _ iha ihas =>
    obtain ⟨ha, hr⟩ := iha hfn hr
    obtain ⟨has, hr⟩ := ihas hfn hr
    exact ⟨.moreStmts ha has, hr⟩
  | var hs hn hg hp he ihe =>
    refine Node.Corresponds.annotate_of_running (.var hs hn hg hp he) hr fun hnone hnone' => ?_
    simp only [Node.annotate, Decl.annotate_var hnone, Decl.annotate_var hnone']
    obtain ⟨he, hr⟩ := ihe hfn hr
    refine ⟨.var hs hn hg hp he, ?_⟩
    exact hr.require (hr.context.declareVar hs hn hg he)
  | @fn s s' n n' g g' ps ps' e e' hs hn hg hps he ihe =>
    cases hg with
    | none =>
      refine Node.Corresponds.annotate_of_running (.fn hs hn .none hps he) hr fun hnone hnone' => ?_
      simp only [Node.annotate, Decl.annotate_unsigned hnone, Decl.annotate_unsigned hnone']
      exact ⟨.fn hs hn .none hps he, hr.context,
        .some ⟨congrArg Fault.missingSignature hn.text, hn.place⟩⟩
    | some hg =>
      refine Node.Corresponds.annotate_of_running (.fn hs hn (.some hg) hps he) hr
        fun hnone hnone' => ?_
      simp only [Node.annotate, Decl.annotate_signed hnone, Decl.annotate_signed hnone']
      obtain ⟨he, hr⟩ := ihe (.some hg) hr
      exact ⟨.fn hs hn (.some hg) hps he, hr⟩
  | noDecl => exact ⟨.noDecl, hr⟩
  | moreDecls _ _ ihd ihds =>
    obtain ⟨hd, hr⟩ := ihd hfn hr
    obtain ⟨hds, hr⟩ := ihds hfn hr
    exact ⟨.moreDecls hd hds, hr⟩

end FrontEnd
