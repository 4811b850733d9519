import FrontEnd.Proofs.Checks
import FrontEnd.Scope.Stamping

/-! What stamping a node does as long as nothing has stopped the work. Work that has stopped leaves
the node as it is. -/

namespace FrontEnd

namespace Expr

variable {T : TypeTable} {c : ScopeId} {g : Bool} {r r' : Stamping} {site : ExprSite}
  {e e' a b d : Expr} {why : Diagnostic}

theorem stamp_of_stopped (h : r.failure = some why) : e.stamp T c g r = (e, r) := by
  cases e <;> exact if_pos (Option.isSome_of_eq_some h)

theorem stampAll_of_stopped (h : r.failure = some why) (es : List Expr) :
    stampAll T c g es r = (es, r) := by
  induction es with
  | nil => rfl
  | cons e es ih => simp only [stampAll, stamp_of_stopped h, ih]

theorem failure_of_stamp (h : e.stamp T c g r = (e', r')) (hr : r'.failure = none) :
    r.failure = none := by
  cases hstop : r.failure with
  | none => rfl
  | some why =>
    obtain ⟨_, rfl⟩ := Prod.mk.inj ((stamp_of_stopped hstop).symm.trans h)
    exact nomatch hstop.symm.trans hr

theorem failure_of_stampAll {es es' : List Expr} (h : stampAll T c g es r = (es', r'))
    (hr : r'.failure = none) : r.failure = none := by
  cases hstop : r.failure with
  | none => rfl
  | some why =>
    obtain ⟨_, rfl⟩ := Prod.mk.inj ((stampAll_of_stopped hstop es).symm.trans h)
    exact nomatch hstop.symm.trans hr

theorem stamp_leaf {form : LeafForm} {k : Token} (h : r.failure = none) :
    (leaf site form k).stamp T c g r = (.leaf { site with scope := some c } form k, r) :=
  ite_isSome_of_none h

theorem stamp_binary {form : BinaryForm} {k : Token} (h : r.failure = none) :
    (binary site form k a b).stamp T c g r =
      let (a, r) := a.stamp T c g r
      let (b, r) := b.stamp T c g r
      (.binary { site with scope := some c } form k a b, r) := ite_isSome_of_none h

theorem stamp_unary {k : Token} (h : r.failure = none) :
    (unary site k a).stamp T c g r =
      let (a, r) := a.stamp T c g r
      (.unary { site with scope := some c } k a, r) := ite_isSome_of_none h

theorem stamp_call {as : List Expr} (h : r.failure = none) :
    (call site a as).stamp T c g r =
      let (a, r) := a.stamp T c g r
      let (as, r) := stampAll T c g as r
      (.call { site with scope := some c } a as, r) := ite_isSome_of_none h

theorem stamp_block {body : List Stmt} (h : r.failure = none) :
    (block site body).stamp T c g r =
      let (inner, r) := r.openScope site.place c
      let (body, r) := Stmt.stampAll T inner g body r
      (.block { site with scope := some c } body, r) := ite_isSome_of_none h

theorem stamp_ifThen (h : r.failure = none) :
    (ifThen site a b).stamp T c g r =
      let (a, r) := a.stamp T c g r
      let (b, r) := b.stamp T c g r
      (.ifThen { site with scope := some c } a b, r) := ite_isSome_of_none h

theorem stamp_ifElse (h : r.failure = none) :
    (ifElse site a b d).stamp T c g r =
      let (a, r) := a.stamp T c g r
      let (b, r) := b.stamp T c g r
      let (d, r) := d.stamp T c g r
      (.ifElse { site with scope := some c } a b d, r) := ite_isSome_of_none h

theorem stamp_result {form : ResultForm} (h : r.failure = none) :
    (result site form a).stamp T c g r =
      let (a, r) := a.stamp T c g r
      (.result { site with scope := some c } form a, r) := ite_isSome_of_none h

theorem name?_stamp (e : Expr) : (e.stamp T c g r).1.name? = e.name? := by
  unfold Expr.stamp
  split
  · rfl
  · cases e with
    | leaf _ form _ => cases form <;> rfl
    | _ => rfl

end Expr

namespace Stmt

variable {T : TypeTable} {c : ScopeId} {g : Bool} {r r' : Stamping} {site : Site} {s s' : Stmt}
  {l e : Expr} {why : Diagnostic}

theorem stamp_of_stopped (h : r.failure = some why) : s.stamp T c g r = (s, r) := by
  cases s <;> exact if_pos (Option.isSome_of_eq_some h)

theorem stampAll_of_stopped (h : r.failure = some why) (ss : List Stmt) :
    stampAll T c g ss r = (ss, r) := by
  induction ss with
  | nil => rfl
  | cons s ss ih => simp only [stampAll, stamp_of_stopped h, ih]

theorem failure_of_stamp (h : s.stamp T c g r = (s', r')) (hr : r'.failure = none) :
    r.failure = none := by
  cases hstop : r.failure with
  | none => rfl
  | some why =>
    obtain ⟨_, rfl⟩ := Prod.mk.inj ((stamp_of_stopped hstop).symm.trans h)
    exact nomatch hstop.symm.trans hr

theorem failure_of_stampAll {ss ss' : List Stmt} (h : stampAll T c g ss r = (ss', r'))
    (hr : r'.failure = none) : r.failure = none := by
  cases hstop : r.failure with
  | none => rfl
  | some why =>
    obtain ⟨_, rfl⟩ := Prod.mk.inj ((stampAll_of_stopped hstop ss).symm.trans h)
    exact nomatch hstop.symm.trans hr

theorem stamp_expr (h : r.failure = none) :
    (expr site e).stamp T c g r =
      let (e, r) := e.stamp T c g r
      (.expr { site with scope := some c } e, r) := ite_isSome_of_none h

theorem stamp_assign (h : r.failure = none) :
    (assign site l e).stamp T c g r =
      let (l, r) := l.stamp T c g r
      let (e, r) := e.stamp T c g r
      (.assign { site with scope := some c } l e, r) := ite_isSome_of_none h

theorem stamp_decl {d : Decl} (h : r.failure = none) :
    (decl site d).stamp T c g r =
      let (d, r) := d.stamp T c g r
      (.decl { site with scope := some c } d, r) := ite_isSome_of_none h

end Stmt

namespace Decl

variable {T : TypeTable} {c : ScopeId} {g : Bool} {r r₁ r' : Stamping} {site : Site} {n : Token}
  {t : Option TypeId} {d d' : Decl} {e : Expr} {why : Diagnostic}

theorem stamp_of_stopped (h : r.failure = some why) : d.stamp T c g r = (d, r) := by
  cases d <;> exact if_pos (Option.isSome_of_eq_some h)

theorem stampAll_of_stopped (h : r.failure = some why) (ds : List Decl) :
    stampAll T c g ds r = (ds, r) := by
  induction ds with
  | nil => rfl
  | cons d ds ih => simp only [stampAll, stamp_of_stopped h, ih]

theorem failure_of_stamp (h : d.stamp T c g r = (d', r')) (hr : r'.failure = none) :
    r.failure = none := by
  cases hstop : r.failure with
  | none => rfl
  | some why =>
    obtain ⟨_, rfl⟩ := Prod.mk.inj ((stamp_of_stopped hstop).symm.trans h)
    exact nomatch hstop.symm.trans hr

theorem failure_of_stampAll {ds ds' : List Decl} (h : stampAll T c g ds r = (ds', r'))
    (hr : r'.failure = none) : r.failure = none := by
  cases hstop : r.failure with
  | none => rfl
  | some why =>
    obtain ⟨_, rfl⟩ := Prod.mk.inj ((stampAll_of_stopped hstop ds).symm.trans h)
    exact nomatch hstop.symm.trans hr

theorem stamp_var {finish : Position} (h : r.failure = none) :
    (var site n t e finish).stamp T c g r =
      let (e, r) := e.stamp T c g r
      (.var { site with scope := some c } n t e finish,
        r.declare c ⟨.var, n.text, n.place, finish, g, t⟩) := ite_isSome_of_none h

/-- A function whose name is bound already stops the work before its scope is opened. -/
theorem stamp_fn_of_clash {ps : List Token} (h : r.failure = none)
    (hn : r.declare c ⟨.fn, n.text, n.place, n.place, g, t⟩ = r₁) (h₁ : r₁.failure = some why) :
    (Decl.fn site n t ps e).stamp T c g r =
      (.fn { site with scope := some c } n t ps e, r₁) := by
  rw [Decl.stamp, ite_isSome_of_none h, hn, if_pos (Option.isSome_of_eq_some h₁)]

theorem stamp_fn {ps : List Token} (h : r.failure = none)
    (hn : r.declare c ⟨.fn, n.text, n.place, n.place, g, t⟩ = r₁) (h₁ : r₁.failure = none) :
    (Decl.fn site n t ps e).stamp T c g r =
      let (inner, r) := r₁.openScope n.place c
      let (e, r) := e.stamp T inner false
        (Stamping.declareParams inner ps (T.argumentsOf t) r)
      (.fn { site with scope := some c } n t ps e, r) := by
  rw [Decl.stamp, ite_isSome_of_none h, hn, ite_isSome_of_none h₁]

theorem failure_of_stamp_fn {ps : List Token} (h : (Decl.fn site n t ps e).stamp T c g r = (d', r'))
    (hr : r'.failure = none) :
    (r.declare c ⟨.fn, n.text, n.place, n.place, g, t⟩).failure = none := by
  cases hname : (r.declare c ⟨.fn, n.text, n.place, n.place, g, t⟩).failure with
  | none => rfl
  | some why =>
    rw [stamp_fn_of_clash (failure_of_stamp h hr) rfl hname] at h
    obtain ⟨_, rfl⟩ := Prod.mk.inj h
    exact nomatch hname.symm.trans hr

end Decl

namespace Stamping

variable {r : Stamping} {c : ScopeId} {a : Symbol} {i : SymbolId} {S : ScopeTree}

theorem declare_of_stopped {why : Diagnostic} (h : r.failure = some why) : r.declare c a = r := by
  simp only [declare, h]

theorem declare_of_bind (h : r.failure = none) (hb : r.tree.bind c a = .ok (i, S)) :
    r.declare c a = { r with tree := S } := by
  simp only [declare, h, hb]

theorem declare_of_taken (h : r.failure = none) (hb : r.tree.bind c a = .error i) :
    r.declare c a = { r with failure := some ⟨.redefinition a.name, a.place⟩ } := by
  simp only [declare, h, hb]

theorem of_declare (h : (r.declare c a).failure = none) :
    r.failure = none ∧ ∃ i, r.tree.bind c a = .ok (i, (r.declare c a).tree) := by
  cases hstop : r.failure with
  | some why =>
    rw [declare_of_stopped hstop] at h
    exact nomatch hstop.symm.trans h
  | none =>
    cases hb : r.tree.bind c a with
    | error i =>
      rw [declare_of_taken hstop hb] at h
      exact nomatch h
    | ok x =>
      obtain ⟨i, S⟩ := x
      rw [declare_of_bind hstop hb]
      exact ⟨rfl, i, rfl⟩

end Stamping

end FrontEnd
