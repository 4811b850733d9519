import Mathlib
import FrontEnd.Proofs.Scope.Likeness
import FrontEnd.Proofs.Scope.Mirroring
import FrontEnd.Proofs.Syntax.Mapping

/-! Scopes are built behind what a tree has already. Nothing older is read or changed, so the run is
the one from the empty tree with its numbers counted on. -/

namespace FrontEnd

def ScopeId.shift (n : Nat) (c : ScopeId) : ScopeId := ⟨n + c.index⟩

theorem ScopeId.index_shift (n : Nat) (c : ScopeId) : (c.shift n).index = n + c.index := rfl

def SymbolId.shift (m : Nat) (s : SymbolId) : SymbolId := ⟨m + s.index⟩

/-- A scope behind `n` others, which binds symbols behind `m` others. -/
def Scope.shift (n m : Nat) (s : Scope) : Scope where
  place := s.place
  parent := s.parent.map (ScopeId.shift n)
  names := s.names.map fun b => (b.1, b.2.shift m)

def ScopeTree.append (S F : ScopeTree) : ScopeTree where
  scopes := S.scopes ++ F.scopes.map (Scope.shift S.scopes.size S.symbols.size)
  symbols := S.symbols ++ F.symbols

/-- The run as it would have gone behind the tree `S`. -/
def Stamping.behind (S : ScopeTree) (r : Stamping) : Stamping where
  tree := S.append r.tree
  failure := r.failure

/-- Counts the scopes on all nodes on by `n`. -/
def NodeMap.shiftScopes (n : Nat) : NodeMap where
  site s := { s with scope := s.scope.map (ScopeId.shift n) }
  exprSite s := { s with scope := s.scope.map (ScopeId.shift n) }

namespace Program

/-- A program without the scopes on its nodes. -/
def unstamped (p : Program) : Program := ⟨p.decls.map Decl.unstamped, none⟩

def shiftScopes (n : Nat) (p : Program) : Program :=
  { p.map (.shiftScopes n) with scope := p.scope.map (ScopeId.shift n) }

end Program

namespace ScopeTree

variable (S F : ScopeTree)

theorem append_empty : S.append .empty = S := by simp [append, empty]

theorem scope?_append (c : ScopeId) : (S.append F).scope? (c.shift S.scopes.size) =
    (F.scope? c).map (Scope.shift S.scopes.size S.symbols.size) := by
  unfold scope? append ScopeId.shift
  rw [Array.getElem?_append_right (Nat.le_add_right _ _), Nat.add_sub_cancel_left,
    Array.getElem?_map]

theorem lookup_shift (names : List (String × SymbolId)) (m : Nat) (n : String) :
    (names.map fun b => (b.1, b.2.shift m)).lookup n = (names.lookup n).map (SymbolId.shift m) := by
  induction names with
  | nil => rfl
  | cons b bs ih =>
    rw [List.map_cons, List.lookup_cons, List.lookup_cons, ih]
    cases n == b.1 <;> rfl

theorem local?_append (c : ScopeId) (n : String) :
    (S.append F).local? (c.shift S.scopes.size) n =
      (F.local? c n).map (SymbolId.shift S.symbols.size) := by
  unfold local?
  rw [scope?_append]
  cases F.scope? c with
  | none => rfl
  | some s => exact lookup_shift s.names _ n

theorem push_append (place : Position) (parent : Option ScopeId) :
    (S.append F).push place (parent.map (ScopeId.shift S.scopes.size)) =
      ((F.push place parent).1.shift S.scopes.size, S.append (F.push place parent).2) := by
  simp [push, append, ScopeId.shift, Scope.shift]

theorem modify_append (c : ScopeId) (f g : Scope → Scope)
    (h : ∀ s, g (s.shift S.scopes.size S.symbols.size) = (f s).shift S.scopes.size S.symbols.size) :
    (S.append F).scopes.modify (c.shift S.scopes.size).index g =
      (S.append { F with scopes := F.scopes.modify c.index f }).scopes := by
  refine Array.ext_getElem? fun i => ?_
  unfold append
  rw [Array.getElem?_modify, ScopeId.index_shift]
  by_cases hi : i < S.scopes.size
  · rw [if_neg (by omega), Array.getElem?_append_left hi, Array.getElem?_append_left hi]
  · obtain ⟨j, rfl⟩ := Nat.exists_eq_add_of_le (Nat.le_of_not_lt hi)
    rw [Array.getElem?_append_right (by omega), Array.getElem?_append_right (by omega),
      Nat.add_sub_cancel_left, Array.getElem?_map, Array.getElem?_map, Array.getElem?_modify]
    by_cases hj : c.index = j
    · rw [if_pos (by omega), if_pos hj, Option.map_map, Option.map_map]
      exact Option.map_congr fun s _ => h s
    · rw [if_neg (by omega), if_neg hj]

theorem bind_append (c : ScopeId) (a : Symbol) :
    (S.append F).bind (c.shift S.scopes.size) a =
      match F.bind c a with
      | .ok (i, F') => .ok (i.shift S.symbols.size, S.append F')
      | .error i => .error (i.shift S.symbols.size) := by
  unfold bind
  rw [local?_append]
  cases F.local? c a.name with
  | some i => rfl
  | none =>
    have hsize : (S.append F).symbols.size = S.symbols.size + F.symbols.size := by simp [append]
    have hscopes := S.modify_append F c
      (fun s => { s with names := (a.name, ⟨F.symbols.size⟩) :: s.names })
      (fun s => { s with names := (a.name, ⟨(S.append F).symbols.size⟩) :: s.names })
      (fun s => by simp [Scope.shift, SymbolId.shift, hsize])
    simp only [Option.map_none, hscopes, Except.ok.injEq, Prod.mk.injEq]
    refine ⟨congrArg SymbolId.mk hsize, ?_⟩
    simp [append]

end ScopeTree

namespace Stamping

variable (S : ScopeTree) (r : Stamping) (c : ScopeId)

theorem declare_behind (a : Symbol) :
    (r.behind S).declare (c.shift S.scopes.size) a = (r.declare c a).behind S := by
  obtain ⟨tree, failure⟩ := r
  cases failure with
  | some d => rfl
  | none =>
    simp only [declare, behind, ScopeTree.bind_append]
    cases tree.bind c a <;> rfl

theorem declareParams_behind (ps : List Token) (ts : List TypeId) :
    declareParams (c.shift S.scopes.size) ps ts (r.behind S) =
      (declareParams c ps ts r).behind S := by
  induction ps generalizing r ts with
  | nil => rfl
  | cons p ps ih =>
    unfold declareParams
    rw [declare_behind, ih]

theorem openScope_behind (place : Position) :
    (r.behind S).openScope place (c.shift S.scopes.size) =
      ((r.openScope place c).1.shift S.scopes.size, (r.openScope place c).2.behind S) := by
  have hpush := S.push_append r.tree place (some c)
  rw [Option.map_some] at hpush
  simp only [openScope, behind, hpush]

end Stamping

namespace Node

/-- The node without scopes. -/
def unstamped : Node → Node
  | expr e => expr e.unstamped
  | exprs es => exprs (Expr.unstampedAll es)
  | stmt s => stmt s.unstamped
  | stmts ss => stmts (Stmt.unstampedAll ss)
  | decl d => decl d.unstamped
  | decls ds => decls (ds.map Decl.unstamped)
  | a => a

/-- The run `run` did behind the tree `S` what `fresh` did. A node that was stamped in full has the
scopes of the fresh run, counted on. -/
structure RunsBehind (S : ScopeTree) (run fresh : Node × Stamping) : Prop where
  state : run.2 = fresh.2.behind S
  node : fresh.2.failure = none → run.1 = fresh.1.map (.shiftScopes S.scopes.size)

/-- The node is stamped behind `S` as without scopes behind nothing. -/
def StampsBehind (S : ScopeTree) (a : Node) : Prop :=
  ∀ T c g r, RunsBehind S (a.stamp T (c.shift S.scopes.size) g (r.behind S))
    (a.unstamped.stamp T c g r)

theorem StampsBehind.of_running {S : ScopeTree} {a : Node}
    (h : ∀ T c g r, r.failure = none → (r.behind S).failure = none → RunsBehind S
      (a.stamp T (c.shift S.scopes.size) g (r.behind S)) (a.unstamped.stamp T c g r)) :
    StampsBehind S a := by
  intro T c g r
  cases hr : r.failure with
  | none => exact h T c g r hr hr
  | some d =>
    rw [stamp_of_stopped hr, stamp_of_stopped (r := r.behind S) hr]
    exact ⟨rfl, fun hnone => nomatch hr.symm.trans hnone⟩

theorem hereditary_stampsBehind (S : ScopeTree) : Hereditary (StampsBehind S) where
  leaf := .of_running fun T c g r hnone hnone' => by
    simp only [Node.stamp, Node.unstamped, Expr.unstamped, Expr.stamp_leaf hnone,
      Expr.stamp_leaf hnone']
    exact ⟨rfl, fun _ => rfl⟩
  binary {site form k a b} iha ihb := .of_running fun T c g r hnone hnone' => by
    obtain ⟨hra, ha⟩ := iha T c g r
    obtain ⟨hrb, hb⟩ := ihb T c g (a.unstamped.stamp T c g r).2
    simp only [Node.stamp, Node.unstamped, Node.map, Node.expr.injEq, Expr.unstamped,
      Expr.stamp_binary hnone, Expr.stamp_binary hnone'] at *
    refine ⟨by rw [hra, hrb], fun h => ?_⟩
    rw [hra, ha (Expr.failure_of_stamp rfl h), hb h]
    rfl
  unary {site k a} iha := .of_running fun T c g r hnone hnone' => by
    obtain ⟨hra, ha⟩ := iha T c g r
    simp only [Node.stamp, Node.unstamped, Node.map, Node.expr.injEq, Expr.unstamped,
      Expr.stamp_unary hnone, Expr.stamp_unary hnone'] at *
    refine ⟨hra, fun h => ?_⟩
    rw [ha h]
    rfl
  call {site f as} ihf ihas := .of_running fun T c g r hnone hnone' => by
    obtain ⟨hrf, hf⟩ := ihf T c g r
    obtain ⟨hras, has⟩ := ihas T c g (f.unstamped.stamp T c g r).2
    simp only [Node.stamp, Node.unstamped, Node.map, Node.expr.injEq, Node.exprs.injEq,
      Expr.unstamped, Expr.stamp_call hnone, Expr.stamp_call hnone'] at *
    refine ⟨by rw [hrf, hras], fun h => ?_⟩
    rw [hrf, hf (Expr.failure_of_stampAll rfl h), has h]
    rfl
  block {site ss} ih := .of_running fun T c g r hnone hnone' => by
    obtain ⟨hrss, hss⟩ := ih T (r.openScope site.place c).1 g (r.openScope site.place c).2
    have hopen := Stamping.openScope_behind S r c site.place
    simp only [Node.stamp, Node.unstamped, Node.map, Node.stmts.injEq, Expr.unstamped,
      Expr.stamp_block hnone, Expr.stamp_block hnone', hopen] at *
    refine ⟨hrss, fun h => ?_⟩
    rw [hss h]
    rfl
  ifThen {site a b} iha ihb := .of_running fun T c g r hnone hnone' => by
    obtain ⟨hra, ha⟩ := iha T c g r
    obtain ⟨hrb, hb⟩ := ihb T c g (a.unstamped.stamp T c g r).2
    simp only [Node.stamp, Node.unstamped, Node.map, Node.expr.injEq, Expr.unstamped,
      Expr.stamp_ifThen hnone, Expr.stamp_ifThen hnone'] at *
    refine ⟨by rw [hra, hrb], fun h => ?_⟩
    rw [hra, ha (Expr.failure_of_stamp rfl h), hb h]
    rfl
  ifElse {site a b d} iha ihb ihd := .of_running fun T c g r hnone hnone' => by
    obtain ⟨hra, ha⟩ := iha T c g r
    obtain ⟨hrb, hb⟩ := ihb T c g (a.unstamped.stamp T c g r).2
    obtain ⟨hrd, hd⟩ := ihd T c g (b.unstamped.stamp T c g (a.unstamped.stamp T c g r).2).2
    simp only [Node.stamp, Node.unstamped, Node.map, Node.expr.injEq, Expr.unstamped,
      Expr.stamp_ifElse hnone, Expr.stamp_ifElse hnone'] at *
    refine ⟨by rw [hra, hrb, hrd], fun h => ?_⟩
    have hsecond := Expr.failure_of_stamp rfl h
    rw [hra, hrb, ha (Expr.failure_of_stamp rfl hsecond), hb hsecond, hd h]
    rfl
  result {site form a} iha := .of_running fun T c g r hnone hnone' => by
    obtain ⟨hra, ha⟩ := iha T c g r
    simp only [Node.stamp, Node.unstamped, Node.map, Node.expr.injEq, Expr.unstamped,
      Expr.stamp_result hnone, Expr.stamp_result hnone'] at *
    refine ⟨hra, fun h => ?_⟩
    rw [ha h]
    rfl
  noExpr _ _ _ _ := ⟨rfl, fun _ => rfl⟩
  moreExprs {e es} ihe ihes T c g r := by
    obtain ⟨hre, he⟩ := ihe T c g r
    obtain ⟨hres, hes⟩ := ihes T c g (e.unstamped.stamp T c g r).2
    simp only [Node.stamp, Node.unstamped, Node.map, Node.expr.injEq, Node.exprs.injEq,
      Expr.unstampedAll, Expr.stampAll] at *
    refine ⟨by rw [hre, hres], fun h => ?_⟩
    rw [hre, he (Expr.failure_of_stampAll rfl h), hes h]
    rfl
  evaluated {site e} ihe := .of_running fun T c g r hnone hnone' => by
    obtain ⟨hre, he⟩ := ihe T c g r
    simp only [Node.stamp, Node.unstamped, Node.map, Node.expr.injEq, Stmt.unstamped,
      Stmt.stamp_expr hnone, Stmt.stamp_expr hnone'] at *
    refine ⟨hre, fun h => ?_⟩
    rw [he h]
    rfl
  assigned {site l e} ihl ihe := .of_running fun T c g r hnone hnone' => by
    obtain ⟨hrl, hl⟩ := ihl T c g r
    obtain ⟨hre, he⟩ := ihe T c g (l.unstamped.stamp T c g r).2
    simp only [Node.stamp, Node.unstamped, Node.map, Node.expr.injEq, Stmt.unstamped,
      Stmt.stamp_assign hnone, Stmt.stamp_assign hnone'] at *
    refine ⟨by rw [hrl, hre], fun h => ?_⟩
    rw [hrl, hl (Expr.failure_of_stamp rfl h), he h]
    rfl
  declared {site d} ihd := .of_running fun T c g r hnone hnone' => by
    obtain ⟨hrd, hd⟩ := ihd T c g r
    simp only [Node.stamp, Node.unstamped, Node.map, Node.decl.injEq, Stmt.unstamped,
      Stmt.stamp_decl hnone, Stmt.stamp_decl hnone'] at *
    refine ⟨hrd, fun h => ?_⟩
    rw [hd h]
    rfl
  noStmt _ _ _ _ := ⟨rfl, fun _ => rfl⟩
  moreStmts {s ss} ihs ihss T c g r := by
    obtain ⟨hrs, hs⟩ := ihs T c g r
    obtain ⟨hrss, hss⟩ := ihss T c g (s.unstamped.stamp T c g r).2
    simp only [Node.stamp, Node.unstamped, Node.map, Node.stmt.injEq, Node.stmts.injEq,
      Stmt.unstampedAll, Stmt.stampAll] at *
    refine ⟨by rw [hrs, hrss], fun h => ?_⟩
    rw [hrs, hs (Stmt.failure_of_stampAll rfl h), hss h]
    rfl
  var {site n u e finish} ihe := .of_running fun T c g r hnone hnone' => by
    obtain ⟨hre, he⟩ := ihe T c g r
    simp only [Node.stamp, Node.unstamped, Node.map, Node.expr.injEq, Decl.unstamped,
      Decl.stamp_var hnone, Decl.stamp_var hnone'] at *
    refine ⟨by rw [hre, Stamping.declare_behind], fun h => ?_⟩
    rw [he (Stamping.of_declare h).1]
    rfl
  fn {site n u ps e} ihe := .of_running fun T c g r hnone hnone' => by
    have hr₁' := Stamping.declare_behind S r c ⟨.fn, n.text, n.place, n.place, g, u⟩
    generalize hr₁ : r.declare c ⟨.fn, n.text, n.place, n.place, g, u⟩ = r₁ at hr₁'
    have hopen := Stamping.openScope_behind S r₁ c n.place
    cases hname : r₁.failure with
    | some why =>
      have hname' : (r₁.behind S).failure = some why := hname
      simp only [Node.stamp, Node.unstamped, Decl.unstamped,
        Decl.stamp_fn_of_clash hnone hr₁ hname, Decl.stamp_fn_of_clash hnone' hr₁' hname']
      exact ⟨rfl, fun h => (Option.some_ne_none why (hname.symm.trans h)).elim⟩
    | none =>
      have hname' : (r₁.behind S).failure = none := hname
      obtain ⟨hre, he⟩ := ihe T (r₁.openScope n.place c).1 false (Stamping.declareParams
        (r₁.openScope n.place c).1 ps (T.argumentsOf u) (r₁.openScope n.place c).2)
      simp only [Node.stamp, Node.unstamped, Node.map, Node.expr.injEq, Decl.unstamped,
        Decl.stamp_fn hnone hr₁ hname, Decl.stamp_fn hnone' hr₁' hname', hopen,
        Stamping.declareParams_behind] at hre he ⊢
      refine ⟨hre, fun h => ?_⟩
      simp only [he h, Node.map, Decl.map, NodeMap.shiftScopes, id_eq, List.map_id]
      rfl

end Node

theorem Decl.stampAll_behind (S : ScopeTree) (T : TypeTable) (c : ScopeId) (g : Bool)
    (ds : List Decl) (r : Stamping) :
    Node.RunsBehind S (Node.stamp T (c.shift S.scopes.size) g (r.behind S) (.decls ds))
      (Node.stamp T c g r (Node.unstamped (.decls ds))) := by
  induction ds generalizing r with
  | nil => exact ⟨rfl, fun _ => rfl⟩
  | cons d ds ih =>
    obtain ⟨hrd, hd⟩ := (Node.hereditary_stampsBehind S).decl d T c g r
    obtain ⟨hrds, hds⟩ := ih (d.unstamped.stamp T c g r).2
    simp only [Node.stamp, Node.unstamped, Node.map, Node.decl.injEq, Node.decls.injEq,
      List.map_cons, stampAll] at *
    refine ⟨by rw [hrd, hrds], fun h => ?_⟩
    rw [hrd, hd (failure_of_stampAll rfl h), hds h]
    rfl

namespace Program

/-- The run ended as the fresh one did. What was there before is what it was, and what the fresh
run built stands behind it; a program that was stamped in full has the stamps of the fresh run,
counted on. -/
structure RunsBehind (S : ScopeTree) (run fresh : Program × Stamping) : Prop where
  failure : run.2.failure = fresh.2.failure
  tree : run.2.tree = S.append fresh.2.tree
  program : fresh.2.failure = none → run.1 = fresh.1.shiftScopes S.scopes.size

theorem runsBehind_buildScopes (T : TypeTable) (p : Program) (S : ScopeTree) :
    RunsBehind S (p.buildScopes T S) (p.unstamped.buildScopes T .empty) := by
  have hroot := S.push_append .empty .origin none
  rw [S.append_empty, Option.map_none] at hroot
  obtain ⟨hstate, hnode⟩ := Decl.stampAll_behind S T (ScopeTree.empty.push .origin none).1 true
    p.decls { tree := (ScopeTree.empty.push .origin none).2 }
  simp only [Node.stamp, Node.unstamped, Node.map, Node.decls.injEq] at hstate hnode
  have hfailure := congrArg Stamping.failure hstate
  have htree := congrArg Stamping.tree hstate
  simp only [buildScopes, unstamped, hroot]
  exact ⟨hfailure, htree, fun h => congrArg (Program.mk · _) (hnode h)⟩

/-- Scopes are built behind what the tree has, whatever the nodes were stamped with: the run is the
one from the empty tree and without stamps, with its numbers counted on. So it is when the pass is
repeated on what it left. -/
theorem buildScopes_behind (T : TypeTable) (p : Program) (S : ScopeTree) :
    RunsBehind S (p.buildScopes T S) (p.unstamped.buildScopes T .empty) ∧
      RunsBehind (p.buildScopes T S).2.tree
        ((p.buildScopes T S).1.buildScopes T (p.buildScopes T S).2.tree)
        (p.unstamped.buildScopes T .empty) := by
  have hagain : (p.buildScopes T S).1.unstamped = p.unstamped :=
    congrArg (Program.mk · none) (Decl.unstamped_stampAll T _ true p.decls _)
  refine ⟨runsBehind_buildScopes T p S, ?_⟩
  rw [← hagain]
  exact runsBehind_buildScopes T _ _

end Program

end FrontEnd
