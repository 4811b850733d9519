import FrontEnd.Proofs.Grammar.Writable
import FrontEnd.Proofs.Scope.Held
import FrontEnd.Proofs.Scope.Likeness
import FrontEnd.Proofs.Scope.Stamped
import FrontEnd.Proofs.Syntax.Correspondence

/-! The ids on the nodes of a program. Stamping a node keeps them in range, together with those in
the tree, also when a name that is bound twice stops the work half-way. -/

namespace FrontEnd

variable {S S' : ScopeTree} {T : TypeTable} {c : ScopeId} {g : Bool} {r : Stamping}

def Site.InRange (S : ScopeTree) (s : Site) : Prop := ∀ c ∈ s.scope, S.Holds c

/-- `Q` holds of what every node carries, and the types that the node itself refers to are there. -/
def Node.Refers (Q : Site → Prop) (T : TypeTable) : Node → Prop
  | .expr e => Q e.site.toSite ∧ ∀ t ∈ e.type, T.Holds t
  | .stmt s => Q s.site
  | .decl d => Q d.site ∧ ∀ t ∈ d.signature, T.Holds t
  | _ => True

/-- All nodes in a node refer to scopes and types that are there. -/
def Node.InRange (S : ScopeTree) (T : TypeTable) (a : Node) : Prop :=
  a.Everywhere (Refers (Site.InRange S) T)

theorem ScopeTree.Holds.mono (hc : S.Holds c) (h : S.scopes.size ≤ S'.scopes.size) : S'.Holds c :=
  Nat.lt_of_lt_of_le hc h

theorem Site.inRange_stamp (hc : S.Holds c) (s : Site) :
    Site.InRange S { s with scope := some c } := by
  intro d hd
  obtain rfl := Option.some.inj hd
  exact hc

namespace Node

theorem Refers.imp {Q R : Site → Prop} {a : Node} (ha : a.Refers Q T) (h : ∀ s, Q s → R s) :
    a.Refers R T := by
  cases a with
  | expr e => exact ⟨h _ ha.1, ha.2⟩
  | stmt s => exact h _ ha
  | decl d => exact ⟨h _ ha.1, ha.2⟩
  | _ => trivial

theorem InRange.mono {a : Node} (ha : a.InRange S T) (h : S.scopes.size ≤ S'.scopes.size) :
    a.InRange S' T :=
  Everywhere.imp ha fun _ hb => hb.imp fun _ hs c hc => (hs c hc).mono h

end Node

namespace Stamping

/-- The ids in the tree are in range, and so is the scope that is worked in. -/
structure Ready (T : TypeTable) (c : ScopeId) (r : Stamping) : Prop where
  closed : r.tree.Closed T
  holds : r.tree.Holds c

theorem size_le_declare (r : Stamping) (c : ScopeId) (a : Symbol) :
    r.tree.scopes.size ≤ (r.declare c a).tree.scopes.size :=
  Nat.le_of_eq (size_declare r c a).symm

theorem size_le_declareParams (r : Stamping) (c : ScopeId) (ps : List Token) (ts : List TypeId) :
    r.tree.scopes.size ≤ (declareParams c ps ts r).tree.scopes.size := by
  induction ps generalizing r ts with
  | nil => exact Nat.le_refl _
  | cons p ps ih => exact Nat.le_trans (size_le_declare r c _) (ih _ _)

theorem size_le_openScope (r : Stamping) (place : Position) (c : ScopeId) :
    r.tree.scopes.size ≤ (r.openScope place c).2.tree.scopes.size := by
  simp [openScope, ScopeTree.push]

namespace Ready

theorem declare (h : r.Ready T c) {a : Symbol} (ha : ∀ t ∈ a.signature, T.Holds t) :
    (r.declare c a).Ready T c := by
  refine ⟨?_, Nat.lt_of_lt_of_eq h.holds (size_declare r c a).symm⟩
  unfold Stamping.declare
  split
  · exact h.closed
  · split
    next hb => exact h.closed.bind hb ha
    next => exact h.closed

theorem declareParams (ps : List Token) {ts : List TypeId} (h : r.Ready T c)
    (hts : ∀ t ∈ ts, T.Holds t) : (declareParams c ps ts r).Ready T c := by
  induction ps generalizing r ts with
  | nil => exact h
  | cons p ps ih =>
    refine ih (h.declare fun t ht => ?_) fun t ht => hts t (List.mem_of_mem_tail ht)
    exact hts t (List.mem_of_mem_head? ht)

theorem openScope (h : r.Ready T c) (place : Position) :
    (r.openScope place c).2.Ready T (r.openScope place c).1 := by
  refine ⟨h.closed.push fun d hd => ?_, ScopeTree.holds_push _ _ _⟩
  obtain rfl := Option.some.inj hd
  exact h.holds

end Ready

end Stamping

theorem TypeTable.Reachable.holds_argumentsOf (hT : T.Reachable) (g : Option TypeId) :
    ∀ t ∈ T.argumentsOf g, T.Holds t := by
  intro t ht
  unfold TypeTable.argumentsOf at ht
  cases hg : g.bind T.function? with
  | none => simp [hg] at ht
  | some f =>
    obtain ⟨u, -, hu⟩ := Option.bind_eq_some_iff.mp hg
    rw [hg] at ht
    exact (hT.holds_of_function? hu).1 t ht

/-- Work in the scope `c` after which `a` stands there: scopes are only added, and all ids are still
in range. -/
structure Stamping.Leads (T : TypeTable) (c : ScopeId) (r r' : Stamping) (a : Node) : Prop where
  size : r.tree.scopes.size ≤ r'.tree.scopes.size
  ready : r'.Ready T c
  nodes : a.InRange r'.tree T

/-- What stands after some work still stands after more of it. -/
theorem Stamping.Leads.before {r₁ r₂ : Stamping} {a b : Node} (ha : Leads T c r r₁ a)
    (hb : Leads T c r₁ r₂ b) : Leads T c r r₂ a :=
  ⟨Nat.le_trans ha.size hb.size, hb.ready, ha.nodes.mono hb.size⟩

namespace Node

/-- Wherever the node is stamped, the ids stay in range. -/
def Stamps (T : TypeTable) (a : Node) : Prop :=
  ∀ g ⦃c r⦄, Stamping.Ready T c r → a.InRange r.tree T →
    Stamping.Leads T c r (a.stamp T c g r).2 (a.stamp T c g r).1

open Stamping

variable {a b : Node} {e : Expr}

theorem InRange.held (h : (expr e).InRange S T) : ∀ t ∈ e.type, T.Holds t :=
  (Everywhere.self h).2

theorem Stamps.of_running (h : ∀ g ⦃c r⦄, r.failure = none → Stamping.Ready T c r →
    a.InRange r.tree T → Stamping.Leads T c r (a.stamp T c g r).2 (a.stamp T c g r).1) :
    a.Stamps T := by
  intro g c r hr ha
  cases hfail : r.failure with
  | none => exact h g hfail hr ha
  | some d =>
    rw [stamp_of_stopped hfail]
    exact ⟨Nat.le_refl _, hr, ha⟩

theorem hereditary_stamps (hT : T.Reachable) : Hereditary (Stamps T) where
  leaf := .of_running fun g c r hnone hr ha => by
    simp only [Node.stamp, Expr.stamp_leaf hnone]
    exact ⟨Nat.le_refl _, hr, everywhere_leaf.mpr ⟨Site.inRange_stamp hr.holds _, ha.held⟩⟩
  binary iha ihb := .of_running fun g c r hnone hr h => by
    simp only [Node.stamp, Expr.stamp_binary hnone]
    obtain ⟨-, ha, hb⟩ := everywhere_binary.mp h
    have ha' := iha g hr ha
    have hb' := ihb g ha'.ready (InRange.mono hb ha'.size)
    have hab := ha'.before hb'
    refine ⟨hab.size, hab.ready, everywhere_binary.mpr ⟨?_, hab.nodes, hb'.nodes⟩⟩
    exact ⟨Site.inRange_stamp hab.ready.holds _, h.held⟩
  unary iha := .of_running fun g c r hnone hr h => by
    simp only [Node.stamp, Expr.stamp_unary hnone]
    obtain ⟨-, ha⟩ := everywhere_unary.mp h
    have ha' := iha g hr ha
    refine ⟨ha'.size, ha'.ready, everywhere_unary.mpr ⟨?_, ha'.nodes⟩⟩
    exact ⟨Site.inRange_stamp ha'.ready.holds _, h.held⟩
  call ihf ihas := .of_running fun g c r hnone hr h => by
    simp only [Node.stamp, Expr.stamp_call hnone]
    obtain ⟨-, hf, has⟩ := everywhere_call.mp h
    have hf' := ihf g hr hf
    have has' := ihas g hf'.ready (InRange.mono has hf'.size)
    have hboth := hf'.before has'
    refine ⟨hboth.size, hboth.ready, everywhere_call.mpr ⟨?_, hboth.nodes, has'.nodes⟩⟩
    exact ⟨Site.inRange_stamp hboth.ready.holds _, h.held⟩
  block {site _} ih := .of_running fun g c r hnone hr h => by
    simp only [Node.stamp, Expr.stamp_block hnone]
    obtain ⟨-, hss⟩ := everywhere_block.mp h
    have hopen := size_le_openScope r site.place c
    have hss' := ih g (hr.openScope site.place) (InRange.mono hss hopen)
    have hsize := Nat.le_trans hopen hss'.size
    have hc := hr.holds.mono hsize
    refine ⟨hsize, ⟨hss'.ready.closed, hc⟩, everywhere_block.mpr ⟨?_, hss'.nodes⟩⟩
    exact ⟨Site.inRange_stamp hc _, h.held⟩
  ifThen iha ihb := .of_running fun g c r hnone hr h => by
    simp only [Node.stamp, Expr.stamp_ifThen hnone]
    obtain ⟨-, ha, hb⟩ := everywhere_ifThen.mp h
    have ha' := iha g hr ha
    have hb' := ihb g ha'.ready (InRange.mono hb ha'.size)
    have hab := ha'.before hb'
    refine ⟨hab.size, hab.ready, everywhere_ifThen.mpr ⟨?_, hab.nodes, hb'.nodes⟩⟩
    exact ⟨Site.inRange_stamp hab.ready.holds _, h.held⟩
  ifElse iha ihb ihd := .of_running fun g c r hnone hr h => by
    simp only [Node.stamp, Expr.stamp_ifElse hnone]
    obtain ⟨-, ha, hb, hd⟩ := everywhere_ifElse.mp h
    have ha' := iha g hr ha
    have hb' := ihb g ha'.ready (InRange.mono hb ha'.size)
    have hab := ha'.before hb'
    have hd' := ihd g hb'.ready (InRange.mono hd hab.size)
    have hall := hab.before hd'
    have hbd := hb'.before hd'
    refine ⟨hall.size, hall.ready, everywhere_ifElse.mpr ⟨?_, hall.nodes, hbd.nodes, hd'.nodes⟩⟩
    exact ⟨Site.inRange_stamp hall.ready.holds _, h.held⟩
  result iha := .of_running fun g c r hnone hr h => by
    simp only [Node.stamp, Expr.stamp_result hnone]
    obtain ⟨-, ha⟩ := everywhere_result.mp h
    have ha' := iha g hr ha
    refine ⟨ha'.size, ha'.ready, everywhere_result.mpr ⟨?_, ha'.nodes⟩⟩
    exact ⟨Site.inRange_stamp ha'.ready.holds _, h.held⟩
  noExpr := fun _ _ _ hr h => ⟨Nat.le_refl _, hr, h⟩
  moreExprs := by
    intro e es ihe ihes g c r hr h
    obtain ⟨he, hes⟩ := everywhere_moreExprs.mp h
    have he' := ihe g hr he
    have hes' := ihes g he'.ready (InRange.mono hes he'.size)
    have hboth := he'.before hes'
    exact ⟨hboth.size, hboth.ready, everywhere_moreExprs.mpr ⟨hboth.nodes, hes'.nodes⟩⟩
  evaluated ihe := .of_running fun g c r hnone hr h => by
    simp only [Node.stamp, Stmt.stamp_expr hnone]
    obtain ⟨-, he⟩ := everywhere_evaluated.mp h
    have he' := ihe g hr he
    refine ⟨he'.size, he'.ready, everywhere_evaluated.mpr ⟨?_, he'.nodes⟩⟩
    exact Site.inRange_stamp he'.ready.holds _
  assigned ihl ihe := .of_running fun g c r hnone hr h => by
    simp only [Node.stamp, Stmt.stamp_assign hnone]
    obtain ⟨-, hl, he⟩ := everywhere_assigned.mp h
    have hl' := ihl g hr hl
    have he' := ihe g hl'.ready (InRange.mono he hl'.size)
    have hboth := hl'.before he'
    refine ⟨hboth.size, hboth.ready, everywhere_assigned.mpr ⟨?_, hboth.nodes, he'.nodes⟩⟩
    exact Site.inRange_stamp hboth.ready.holds _
  declared ihd := .of_running fun g c r hnone hr h => by
    simp only [Node.stamp, Stmt.stamp_decl hnone]
    obtain ⟨-, hd⟩ := everywhere_declared.mp h
    have hd' := ihd g hr hd
    refine ⟨hd'.size, hd'.ready, everywhere_declared.mpr ⟨?_, hd'.nodes⟩⟩
    exact Site.inRange_stamp hd'.ready.holds _
  noStmt := fun _ _ _ hr h => ⟨Nat.le_refl _, hr, h⟩
  moreStmts := by
    intro s ss ihs ihss g c r hr h
    obtain ⟨hs, hss⟩ := everywhere_moreStmts.mp h
    have hs' := ihs g hr hs
    have hss' := ihss g hs'.ready (InRange.mono hss hs'.size)
    have hboth := hs'.before hss'
    exact ⟨hboth.size, hboth.ready, everywhere_moreStmts.mpr ⟨hboth.nodes, hss'.nodes⟩⟩
  var {_ n u e finish} ihe := .of_running fun g c r hnone hr h => by
    simp only [Node.stamp, Decl.stamp_var hnone]
    obtain ⟨hown, he⟩ := everywhere_var.mp h
    have he' := ihe g hr he
    have hdeclared := he'.ready.declare (a := ⟨.var, n.text, n.place, finish, g, u⟩) hown.2
    have hsize := size_le_declare (e.stamp T c g r).2 c ⟨.var, n.text, n.place, finish, g, u⟩
    refine ⟨Nat.le_trans he'.size hsize, hdeclared, everywhere_var.mpr ⟨?_, ?_⟩⟩
    · exact ⟨Site.inRange_stamp hdeclared.holds _, hown.2⟩
    · exact he'.nodes.mono hsize
  fn {_ n u ps _} ihe := .of_running fun g c r hnone hr h => by
    obtain ⟨hown, he⟩ := everywhere_fn.mp h
    have hdeclared := hr.declare (a := ⟨.fn, n.text, n.place, n.place, g, u⟩) hown.2
    have hsize := size_le_declare r c ⟨.fn, n.text, n.place, n.place, g, u⟩
    generalize hr₁ : r.declare c ⟨.fn, n.text, n.place, n.place, g, u⟩ = r₁ at hdeclared hsize
    cases hname : r₁.failure with
    | some why =>
      simp only [Node.stamp, Decl.stamp_fn_of_clash hnone hr₁ hname]
      refine ⟨hsize, hdeclared, everywhere_fn.mpr ⟨?_, InRange.mono he hsize⟩⟩
      exact ⟨Site.inRange_stamp hdeclared.holds _, hown.2⟩
    | none =>
      -- the parameters are bound in the scope of the function, the body is stamped there
      simp only [Node.stamp, Decl.stamp_fn hnone hr₁ hname]
      have hopened := hdeclared.openScope n.place
      have hinner := hopened.declareParams ps (hT.holds_argumentsOf u)
      have hopen := size_le_openScope r₁ n.place c
      have hbound := size_le_declareParams (r₁.openScope n.place c).2 (r₁.openScope n.place c).1
        ps (T.argumentsOf u)
      have hgrown := Nat.le_trans hsize (Nat.le_trans hopen hbound)
      have he' := ihe false hinner (InRange.mono he hgrown)
      have hall := Nat.le_trans hgrown he'.size
      have hc := hr.holds.mono hall
      refine ⟨hall, ⟨he'.ready.closed, hc⟩, everywhere_fn.mpr ⟨?_, he'.nodes⟩⟩
      exact ⟨Site.inRange_stamp hc _, hown.2⟩

theorem stamps_decls (hT : T.Reachable) (ds : List Decl) : (decls ds).Stamps T := by
  induction ds with
  | nil => exact fun _ _ _ hr h => ⟨Nat.le_refl _, hr, h⟩
  | cons d ds ih =>
    intro g c r hr h
    obtain ⟨hd, hds⟩ := everywhere_moreDecls.mp h
    have hd' := (hereditary_stamps hT).decl d g hr hd
    have hds' := ih g hd'.ready (InRange.mono hds hd'.size)
    have hboth := hd'.before hds'
    exact ⟨hboth.size, hboth.ready, everywhere_moreDecls.mpr ⟨hboth.nodes, hds'.nodes⟩⟩

end Node

theorem Reads.refers (hT : T.Reachable) {w : List Token} {a : Node} (h : Reads T w a) :
    a.Everywhere (Node.Refers (·.scope = none) T) := by
  have hnone : ∀ t ∈ (none : Option TypeId), T.Holds t := fun _ ht => nomatch ht
  induction h with
  | primitive | pointer | function | noType | lastType | moreTypes | unsigned | signed =>
    exact fun _ hb => nomatch hb
  | noExpr | noStmt | noDecl => exact fun _ hb => nomatch hb
  | literal _ => exact Node.everywhere_leaf.mpr ⟨rfl, hnone⟩
  | group _ _ _ ih | lastExpr _ ih => simpa using ih
  | block _ _ _ ih => exact Node.everywhere_block.mpr ⟨⟨rfl, hnone⟩, ih⟩
  | ifThen _ _ _ _ ihc iha => exact Node.everywhere_ifThen.mpr ⟨⟨rfl, hnone⟩, ihc, iha⟩
  | ifElse _ _ _ _ _ _ ihc iha ihb =>
    exact Node.everywhere_ifElse.mpr ⟨⟨rfl, hnone⟩, ihc, iha, ihb⟩
  | returned _ _ ih | yielded _ _ ih => exact Node.everywhere_result.mpr ⟨⟨rfl, hnone⟩, ih⟩
  | prefixed _ _ ih => exact Node.everywhere_unary.mpr ⟨⟨rfl, hnone⟩, ih⟩
  | binary _ _ _ ihl ihr => exact Node.everywhere_binary.mpr ⟨⟨rfl, hnone⟩, ihl, ihr⟩
  | call _ _ _ _ ihf ihas => exact Node.everywhere_call.mpr ⟨⟨rfl, hnone⟩, ihf, ihas⟩
  | moreExprs _ _ _ ih ihs => exact Node.everywhere_moreExprs.mpr ⟨ih, ihs⟩
  | evaluated _ _ ih => exact Node.everywhere_evaluated.mpr ⟨rfl, ih⟩
  | assigned _ _ _ _ _ ihl ihe => exact Node.everywhere_assigned.mpr ⟨rfl, ihl, ihe⟩
  | declared _ ih => exact Node.everywhere_declared.mpr ⟨rfl, ih⟩
  | moreStmts _ _ ih ihs => exact Node.everywhere_moreStmts.mpr ⟨ih, ihs⟩
  | var _ _ _ _ hg _ _ ih =>
    exact Node.everywhere_var.mpr ⟨⟨rfl, hg.index_lt_of_signature hT⟩, ih⟩
  | fn _ _ _ _ _ _ _ hg _ _ _ ih =>
    exact Node.everywhere_fn.mpr ⟨⟨rfl, hg.index_lt_of_signature hT⟩, ih⟩
  | moreDecls _ _ ih ihs => exact Node.everywhere_moreDecls.mpr ⟨ih, ihs⟩

/-- Whether or not the scopes of the program come to be built, no id in what is left of them is out
of range. -/
theorem Program.leads_of_buildScopes (hT : T.Reachable) {p : Program}
    (hp : (Node.decls p.decls).InRange .empty T) :
    ∃ root, (p.buildScopes T .empty).1.scope = some root ∧
      Stamping.Leads T root { tree := (ScopeTree.empty.push .origin none).2 }
        (p.buildScopes T .empty).2 (.decls (p.buildScopes T .empty).1.decls) := by
  have hready : Stamping.Ready T (ScopeTree.empty.push .origin none).1
      { tree := (ScopeTree.empty.push .origin none).2 } :=
    ⟨ScopeTree.closed_empty.push fun d hd => (nomatch hd), ScopeTree.holds_push _ _ _⟩
  exact ⟨_, rfl, Node.stamps_decls hT p.decls true hready (hp.mono (Nat.zero_le _))⟩

section Self

variable {C : Correspondence} {Q : Site → Prop}

/-- What a node refers to stands for itself. -/
structure Correspondence.Reflects (C : Correspondence) (Q : Site → Prop) (T : TypeTable) : Prop where
  place (p : Position) : C.place p p
  scope (s : Site) : Q s → Option.Rel C.scope s.scope s.scope
  type (t : TypeId) : T.Holds t → C.type t t

theorem rel_self {α : Type} {R : α → α → Prop} {x : Option α} (h : ∀ a ∈ x, R a a) :
    Option.Rel R x x := by
  cases x with
  | none => exact .none
  | some a => exact .some (h a rfl)

namespace Correspondence.Reflects

variable (h : C.Reflects Q T)
include h

theorem token (k : Token) : k.Like C.place k := ⟨rfl, rfl, h.place _⟩

theorem site {s : Site} (hs : Q s) : s.Corresponds C s := ⟨h.place _, h.scope s hs⟩

theorem exprSite {s : ExprSite} (hs : Q s.toSite) (ht : ∀ t ∈ s.type, T.Holds t) :
    s.Corresponds C s := ⟨h.site hs, rel_self fun t hx => h.type t (ht t hx)⟩

theorem hereditary_corresponds :
    Node.Hereditary fun a => a.Everywhere (Node.Refers Q T) → a.Corresponds C a where
  leaf ha := .leaf (h.exprSite ha.self.1 ha.self.2) (h.token _)
  binary iha ihb ha := by
    obtain ⟨hown, ha, hb⟩ := Node.everywhere_binary.mp ha
    exact .binary (h.exprSite hown.1 hown.2) (h.token _) (iha ha) (ihb hb)
  unary iha ha := by
    obtain ⟨hown, ha⟩ := Node.everywhere_unary.mp ha
    exact .unary (h.exprSite hown.1 hown.2) (h.token _) (iha ha)
  call ihf ihas ha := by
    obtain ⟨hown, hf, has⟩ := Node.everywhere_call.mp ha
    exact .call (h.exprSite hown.1 hown.2) (ihf hf) (ihas has)
  block ih ha := by
    obtain ⟨hown, hss⟩ := Node.everywhere_block.mp ha
    exact .block (h.exprSite hown.1 hown.2) (ih hss)
  ifThen ihc iha ha := by
    obtain ⟨hown, hc, ha⟩ := Node.everywhere_ifThen.mp ha
    exact .ifThen (h.exprSite hown.1 hown.2) (ihc hc) (iha ha)
  ifElse ihc iha ihb ha := by
    obtain ⟨hown, hc, ha, hb⟩ := Node.everywhere_ifElse.mp ha
    exact .ifElse (h.exprSite hown.1 hown.2) (ihc hc) (iha ha) (ihb hb)
  result ih ha := by
    obtain ⟨hown, ha⟩ := Node.everywhere_result.mp ha
    exact .result (h.exprSite hown.1 hown.2) (ih ha)
  noExpr _ := .noExpr
  moreExprs ihe ihes ha := by
    obtain ⟨he, hes⟩ := Node.everywhere_moreExprs.mp ha
    exact .moreExprs (ihe he) (ihes hes)
  evaluated ih ha := by
    obtain ⟨hown, he⟩ := Node.everywhere_evaluated.mp ha
    exact .evaluated (h.site hown) (ih he)
  assigned ihl ihe ha := by
    obtain ⟨hown, hl, he⟩ := Node.everywhere_assigned.mp ha
    exact .assigned (h.site hown) (ihl hl) (ihe he)
  declared ih ha := by
    obtain ⟨hown, hd⟩ := Node.everywhere_declared.mp ha
    exact .declared (h.site hown) (ih hd)
  noStmt _ := .noStmt
  moreStmts ihs ihss ha := by
    obtain ⟨hs, hss⟩ := Node.everywhere_moreStmts.mp ha
    exact .moreStmts (ihs hs) (ihss hss)
  var ih ha := by
    obtain ⟨hown, he⟩ := Node.everywhere_var.mp ha
    exact .var (h.site hown.1) (h.token _) (rel_self fun t ht => h.type t (hown.2 t ht)) (h.place _)
      (ih he)
  fn ih ha := by
    obtain ⟨hown, he⟩ := Node.everywhere_fn.mp ha
    exact .fn (h.site hown.1) (h.token _) (rel_self fun t ht => h.type t (hown.2 t ht))
      (List.forall₂_same.mpr fun k _ => h.token k) (ih he)

end Correspondence.Reflects

end Self

end FrontEnd
