import Mathlib
import FrontEnd.Proofs.Grammar.Soundness
import FrontEnd.Proofs.Scope.Records
import FrontEnd.Proofs.Syntax.Visits

/-! The scopes of a program as an image of its syntax tree: what is opened, what is bound and where
each node stands can be told from the tree alone. -/

namespace FrontEnd

section Unstamped

def Site.unstamped (s : Site) : Site := { s with scope := none }

def ExprSite.unstamped (s : ExprSite) : ExprSite := { s with scope := none }

mutual

/-- An expression without the scopes on its nodes. -/
def Expr.unstamped : Expr → Expr
  | .leaf s form k => .leaf s.unstamped form k
  | .binary s form k l r => .binary s.unstamped form k l.unstamped r.unstamped
  | .unary s k e => .unary s.unstamped k e.unstamped
  | .call s f as => .call s.unstamped f.unstamped (Expr.unstampedAll as)
  | .block s body => .block s.unstamped (Stmt.unstampedAll body)
  | .ifThen s c a => .ifThen s.unstamped c.unstamped a.unstamped
  | .ifElse s c a b => .ifElse s.unstamped c.unstamped a.unstamped b.unstamped
  | .result s form e => .result s.unstamped form e.unstamped

def Expr.unstampedAll : List Expr → List Expr
  | [] => []
  | e :: es => e.unstamped :: Expr.unstampedAll es

def Stmt.unstamped : Stmt → Stmt
  | .expr s e => .expr s.unstamped e.unstamped
  | .assign s l e => .assign s.unstamped l.unstamped e.unstamped
  | .decl s d => .decl s.unstamped d.unstamped

def Stmt.unstampedAll : List Stmt → List Stmt
  | [] => []
  | s :: ss => s.unstamped :: Stmt.unstampedAll ss

def Decl.unstamped : Decl → Decl
  | .var s n g e p => .var s.unstamped n g e.unstamped p
  | .fn s n g ps e => .fn s.unstamped n g ps e.unstamped

end

/-- Stamping writes nothing but scopes. -/
def Node.Keeps (T : TypeTable) : Node → Prop
  | .expr e => ∀ c g r, (e.stamp T c g r).1.unstamped = e.unstamped
  | .exprs es => ∀ c g r, Expr.unstampedAll (Expr.stampAll T c g es r).1 = Expr.unstampedAll es
  | .stmt s => ∀ c g r, (s.stamp T c g r).1.unstamped = s.unstamped
  | .stmts ss => ∀ c g r, Stmt.unstampedAll (Stmt.stampAll T c g ss r).1 = Stmt.unstampedAll ss
  | .decl d => ∀ c g r, (d.stamp T c g r).1.unstamped = d.unstamped
  | _ => True

theorem Node.hereditary_keeps (T : TypeTable) : Node.Hereditary (Node.Keeps T) where
  leaf := by
    intro site form k c g r
    unfold Expr.stamp
    split <;> rfl
  binary ha hb := by
    intro c g r
    unfold Expr.stamp
    split
    · rfl
    · simp only [Expr.unstamped, ha _ _ _, hb _ _ _, ExprSite.unstamped]
  unary ha := by
    intro c g r
    unfold Expr.stamp
    split
    · rfl
    · simp only [Expr.unstamped, ha _ _ _, ExprSite.unstamped]
  call hf has := by
    intro c g r
    unfold Expr.stamp
    split
    · rfl
    · simp only [Expr.unstamped, hf _ _ _, has _ _ _, ExprSite.unstamped]
  block hss := by
    intro c g r
    unfold Expr.stamp
    split
    · rfl
    · simp only [Expr.unstamped, hss _ _ _, ExprSite.unstamped]
  ifThen hc ha := by
    intro c g r
    unfold Expr.stamp
    split
    · rfl
    · simp only [Expr.unstamped, hc _ _ _, ha _ _ _, ExprSite.unstamped]
  ifElse hc ha hb := by
    intro c g r
    unfold Expr.stamp
    split
    · rfl
    · simp only [Expr.unstamped, hc _ _ _, ha _ _ _, hb _ _ _, ExprSite.unstamped]
  result ha := by
    intro c g r
    unfold Expr.stamp
    split
    · rfl
    · simp only [Expr.unstamped, ha _ _ _, ExprSite.unstamped]
  noExpr := fun _ _ _ => rfl
  moreExprs he hes := by
    intro c g r
    simp only [Expr.stampAll, Expr.unstampedAll, he _ _ _, hes _ _ _]
  evaluated he := by
    intro c g r
    unfold Stmt.stamp
    split
    · rfl
    · simp only [Stmt.unstamped, he _ _ _, Site.unstamped]
  assigned hl he := by
    intro c g r
    unfold Stmt.stamp
    split
    · rfl
    · simp only [Stmt.unstamped, hl _ _ _, he _ _ _, Site.unstamped]
  declared hd := by
    intro c g r
    unfold Stmt.stamp
    split
    · rfl
    · simp only [Stmt.unstamped, hd _ _ _, Site.unstamped]
  noStmt := fun _ _ _ => rfl
  moreStmts hs hss := by
    intro c g r
    simp only [Stmt.stampAll, Stmt.unstampedAll, hs _ _ _, hss _ _ _]
  var he := by
    intro c g r
    unfold Decl.stamp
    split
    · rfl
    · simp only [Decl.unstamped, he _ _ _, Site.unstamped]
  fn he := by
    intro c g r
    unfold Decl.stamp
    split
    · rfl
    · dsimp only
      split
      · rfl
      · simp only [Decl.unstamped, he _ _ _, Site.unstamped]

theorem Decl.unstamped_stampAll (T : TypeTable) (c : ScopeId) (g : Bool) (ds : List Decl)
    (r : Stamping) : (Decl.stampAll T c g ds r).1.map Decl.unstamped = ds.map Decl.unstamped := by
  induction ds generalizing r with
  | nil => rfl
  | cons d ds ih =>
    have hd := (Node.hereditary_keeps T).decl d c g r
    simp only [Decl.stampAll, List.map_cons, hd, ih]

def Node.Unstamped : Node → Prop
  | .expr e => e.unstamped = e
  | .exprs es => Expr.unstampedAll es = es
  | .stmt s => s.unstamped = s
  | .stmts ss => Stmt.unstampedAll ss = ss
  | .decl d => d.unstamped = d
  | .decls ds => ds.map Decl.unstamped = ds
  | _ => True

theorem Reads.unstamped {T : TypeTable} {w : List Token} {a : Node} (h : Reads T w a) :
    a.Unstamped := by
  have hexpr (p : Position) : (Rule.exprSite p).unstamped = Rule.exprSite p := rfl
  have hsite (p : Position) : (Rule.site p).unstamped = Rule.site p := rfl
  induction h with
  | primitive | pointer | function | noType | lastType | moreTypes | unsigned | signed => trivial
  | literal | noExpr | noStmt | noDecl => rfl
  | group _ _ _ ih => exact ih
  | block | ifThen | ifElse | returned | yielded | prefixed | binary | call | lastExpr
  | moreExprs =>
    simp_all only [Node.Unstamped, Expr.unstamped, Expr.unstampedAll]
  | evaluated | assigned | declared | moreStmts =>
    simp_all only [Node.Unstamped, Stmt.unstamped, Stmt.unstampedAll]
  | var | fn => simp_all only [Node.Unstamped, Decl.unstamped]
  | moreDecls => simp_all only [Node.Unstamped, List.map_cons]

end Unstamped

/-- The scope that a block or a function opens, with its place and its parent. -/
def Visit.opens (v : Visit) : List (ScopeId × Position × Option ScopeId) :=
  match v.node with
  | .expr (.block s _) => [(v.around.next, s.place, some v.around.scope)]
  | .decl (.fn _ n _ _ _) => [(v.around.next, n.place, some v.around.scope)]
  | _ => []

/-- The symbols that a declaration binds, with their scopes. Parameters are bound in the scope of
the function, each with the argument type of the signature that stands at its index. -/
def Visit.binds (T : TypeTable) (v : Visit) : List (ScopeId × Symbol) :=
  match v.node with
  | .decl (.var _ n g _ finish) =>
    [(v.around.scope, ⟨.var, n.text, n.place, finish, v.around.isGlobal, g⟩)]
  | .decl (.fn _ n g ps _) =>
    (v.around.scope, ⟨.fn, n.text, n.place, n.place, v.around.isGlobal, g⟩) ::
      ps.mapIdx fun i p =>
        (v.around.next, ⟨.var, p.text, p.place, p.place, false, (T.argumentsOf g)[i]?⟩)
  | _ => []

/-- The node is stamped with the innermost scope around it. A variable ends at a semicolon among the
tokens `w`, and a signature has as many arguments as the function has parameters. -/
def Visit.InPlace (T : TypeTable) (w : List Token) (v : Visit) : Prop :=
  match v.node with
  | .expr e => e.scope = some v.around.scope
  | .stmt s => s.site.scope = some v.around.scope
  | .decl (.var s _ _ _ finish) =>
    s.scope = some v.around.scope ∧ ∃ k ∈ w, k.kind = .semicolon ∧ k.place = finish
  | .decl (.fn s _ g ps _) => s.scope = some v.around.scope ∧ T.Fits g ps.length
  | _ => False

section Mirroring

variable {T : TypeTable} {w u : List Token} {k : Surroundings} {r r' r'' : Stamping} {n m : Nat}
  {vs us : List Visit}

theorem Visit.InPlace.mono {v : Visit} (h : v.InPlace T w) (hw : w ⊆ u) : v.InPlace T u := by
  obtain ⟨k, a⟩ := v
  cases a with
  | decl d =>
    cases d with
    | var s n g e finish =>
      obtain ⟨hs, t, ht, hfinish⟩ := h
      exact ⟨hs, t, hw ht, hfinish⟩
    | fn s n g ps e => exact h
  | _ => exact h

namespace Stamping

/-- From `r` to `r'` the nodes `vs` were stamped, which open `n` scopes. -/
structure Mirrors (T : TypeTable) (w : List Token) (k : Surroundings) (r r' : Stamping) (n : Nat)
    (vs : List Visit) : Prop where
  gains : r.tree.Gains r'.tree (vs.flatMap Visit.opens) (vs.flatMap (Visit.binds T))
  size : r'.tree.scopes.size = (k.after n).next.index
  inPlace : ∀ v ∈ vs, v.InPlace T w

theorem openScope_fst (hsize : r.tree.scopes.size = k.next.index) (place : Position) :
    (r.openScope place k.scope).1 = k.next :=
  congrArg ScopeId.mk hsize

theorem size_openScope (hsize : r.tree.scopes.size = k.next.index) (place : Position) :
    (r.openScope place k.scope).2.tree.scopes.size = k.inBlock.next.index := by
  change (r.tree.scopes.push _).size = k.next.index + 1
  rw [Array.size_push, hsize]

namespace Mirrors

theorem nil (hsize : r.tree.scopes.size = k.next.index) : Mirrors T w k r r 0 [] :=
  ⟨.refl _, hsize, fun _ hv => nomatch hv⟩

theorem append (h : Mirrors T w k r r' n vs) (h' : Mirrors T w (k.after n) r' r'' m us) :
    Mirrors T w k r r'' (n + m) (vs ++ us) where
  gains := by
    rw [List.flatMap_append, List.flatMap_append]
    exact h.gains.trans h'.gains
  size := by
    rw [h'.size]
    exact Nat.add_assoc k.next.index n m
  inPlace := List.forall_mem_append.mpr ⟨h.inPlace, h'.inPlace⟩

theorem mono (h : Mirrors T w k r r' n vs) (hw : w ⊆ u) : Mirrors T u k r r' n vs :=
  ⟨h.gains, h.size, fun v hv => (h.inPlace v hv).mono hw⟩

theorem cons (h : Mirrors T w k r r' n vs) {v : Visit} (hv : v.InPlace T w)
    (hopens : v.opens = []) (hbinds : v.binds T = []) : Mirrors T w k r r' n (v :: vs) where
  gains := by
    rw [List.flatMap_cons, List.flatMap_cons, hopens, hbinds]
    exact h.gains
  size := h.size
  inPlace := List.forall_mem_cons.mpr ⟨hv, h.inPlace⟩

theorem opening {place : Position} (hsize : r.tree.scopes.size = k.next.index)
    (h : Mirrors T w k.inBlock (r.openScope place k.scope).2 r' n vs) {v : Visit}
    (hv : v.InPlace T w) (hopens : v.opens = [(k.next, place, some k.scope)])
    (hbinds : v.binds T = []) : Mirrors T w k r r' (1 + n) (v :: vs) where
  gains := by
    have hpush := ScopeTree.Gains.of_push r.tree place (some k.scope)
    rw [hsize] at hpush
    rw [List.flatMap_cons, List.flatMap_cons, hopens, hbinds]
    exact hpush.trans h.gains
  size := by
    rw [h.size]
    exact Nat.add_assoc k.next.index 1 n
  inPlace := List.forall_mem_cons.mpr ⟨hv, h.inPlace⟩

theorem binding {a : Symbol} (hk : k.scope.index < k.next.index)
    (hsize : r.tree.scopes.size = k.next.index) (h : (r.declare k.scope a).failure = none)
    {v : Visit} (hv : v.InPlace T w) (hopens : v.opens = []) (hbinds : v.binds T = [(k.scope, a)]) :
    Mirrors T w k r (r.declare k.scope a) 0 [v] where
  gains := by
    rw [List.flatMap_singleton, List.flatMap_singleton, hopens, hbinds]
    exact gains_declare (Nat.lt_of_lt_of_eq hk hsize.symm) h
  size := by
    rw [size_declare, hsize]
    rfl
  inPlace := List.forall_mem_singleton.mpr hv

/-- A function binds its name, opens a scope and binds its parameters there before its body. -/
theorem function {site : Site} {name : Token} {g : Option TypeId} {ps : List Token} {body : Expr}
    {r₁ r₂ : Stamping} (hk : k.scope.index < k.next.index)
    (hsize : r.tree.scopes.size = k.next.index)
    (hr₁ : r₁ = r.declare k.scope ⟨.fn, name.text, name.place, name.place, k.isGlobal, g⟩)
    (hname : r₁.failure = none)
    (hr₂ : r₂ = declareParams k.next ps (T.argumentsOf g) (r₁.openScope name.place k.scope).2)
    (hparams : r₂.failure = none)
    (hbody : r₂.tree.scopes.size = k.inBlock.next.index →
      Mirrors T w (k.inFunction g) r₂ r' n vs)
    (hv : Visit.InPlace T w ⟨k, .decl (.fn site name g ps body)⟩) :
    Mirrors T w k r r' (1 + n) (⟨k, .decl (.fn site name g ps body)⟩ :: vs) := by
  have hsize₁ : r₁.tree.scopes.size = k.next.index := by rw [hr₁, size_declare, hsize]
  have hbound := gains_declare (Nat.lt_of_lt_of_eq hk hsize.symm) (hr₁ ▸ hname)
  rw [← hr₁] at hbound
  have hpush := ScopeTree.Gains.of_push r₁.tree name.place (some k.scope)
  rw [hsize₁] at hpush
  have hopened := size_openScope hsize₁ name.place
  have hheld : (r₁.openScope name.place k.scope).2.tree.Holds k.next :=
    Nat.lt_of_lt_of_eq k.lt_inBlock hopened.symm
  have hgains := gains_declareParams hheld (hr₂ ▸ hparams)
  rw [← hr₂] at hgains
  have hbody := hbody (hgains.size_scopes.trans hopened)
  refine ⟨((hbound.trans hpush).trans hgains).trans hbody.gains, ?_,
    List.forall_mem_cons.mpr ⟨hv, hbody.inPlace⟩⟩
  rw [hbody.size]
  exact Nat.add_assoc k.next.index 1 n

end Mirrors

end Stamping

open Stamping

/-- Stamping a node where the next scope is the one with the next number. -/
def Node.Mirrored (T : TypeTable) (w : List Token) : Node → Prop
  | .expr e => ∀ ⦃k : Surroundings⦄ ⦃r e' r'⦄, k.scope.index < k.next.index →
      r.tree.scopes.size = k.next.index → e.stamp T k.scope k.isGlobal r = (e', r') →
        r'.failure = none → Mirrors T w k r r' e'.opened (e'.visits k)
  | .exprs es => ∀ ⦃k : Surroundings⦄ ⦃r es' r'⦄, k.scope.index < k.next.index →
      r.tree.scopes.size = k.next.index → Expr.stampAll T k.scope k.isGlobal es r = (es', r') →
        r'.failure = none → Mirrors T w k r r' (Expr.openedAll es') (Expr.visitsAll k es')
  | .stmt s => ∀ ⦃k : Surroundings⦄ ⦃r s' r'⦄, k.scope.index < k.next.index →
      r.tree.scopes.size = k.next.index → s.stamp T k.scope k.isGlobal r = (s', r') →
        r'.failure = none → Mirrors T w k r r' s'.opened (s'.visits k)
  | .stmts ss => ∀ ⦃k : Surroundings⦄ ⦃r ss' r'⦄, k.scope.index < k.next.index →
      r.tree.scopes.size = k.next.index → Stmt.stampAll T k.scope k.isGlobal ss r = (ss', r') →
        r'.failure = none → Mirrors T w k r r' (Stmt.openedAll ss') (Stmt.visitsAll k ss')
  | .decl d => ∀ ⦃k : Surroundings⦄ ⦃r d' r'⦄, k.scope.index < k.next.index →
      r.tree.scopes.size = k.next.index → d.stamp T k.scope k.isGlobal r = (d', r') →
        r'.failure = none → Mirrors T w k r r' d'.opened (d'.visits k)
  | .decls ds => ∀ ⦃k : Surroundings⦄ ⦃r ds' r'⦄, k.scope.index < k.next.index →
      r.tree.scopes.size = k.next.index → Decl.stampAll T k.scope k.isGlobal ds r = (ds', r') →
        r'.failure = none → ∃ n, Mirrors T w k r r' n (Decl.visitsAll k ds')
  | _ => True

theorem Reads.mirrored {a : Node} (h : Reads T w a) : a.Mirrored T w := by
  induction h with
  | primitive | pointer | function | noType | lastType | moreTypes | unsigned | signed => trivial
  | literal _ =>
    intro k r e' r' hk hsize h hr
    rw [Expr.stamp_leaf (Expr.failure_of_stamp h hr)] at h
    obtain ⟨rfl, rfl⟩ := Prod.mk.inj h
    exact (Mirrors.nil hsize).cons rfl rfl rfl
  | group _ _ _ ih =>
    intro k r e' r' hk hsize h hr
    exact (ih hk hsize h hr).mono fun t ht => by simp [ht]
  | @block o _ _ _ _ _ _ ih =>
    intro k r e' r' hk hsize h hr
    simp only [Expr.stamp_block (Expr.failure_of_stamp h hr), Rule.exprSite,
      openScope_fst hsize] at h
    obtain ⟨rfl, rfl⟩ := Prod.mk.inj h
    have hm := ih (k := k.inBlock) k.lt_inBlock (size_openScope hsize o.place) rfl hr
    exact (hm.mono fun t ht => by simp [ht]).opening hsize rfl rfl rfl
  | ifThen _ _ _ _ iha ihb =>
    intro k r e' r' hk hsize h hr
    rw [Expr.stamp_ifThen (Expr.failure_of_stamp h hr)] at h
    obtain ⟨rfl, rfl⟩ := Prod.mk.inj h
    have hma := iha hk hsize rfl (Expr.failure_of_stamp rfl hr)
    have hmb := ihb (Surroundings.lt_after hk _) hma.size rfl hr
    refine Mirrors.cons (.append (hma.mono ?_) (hmb.mono ?_)) rfl rfl rfl
    · exact fun t ht => by simp [ht]
    · exact fun t ht => by simp [ht]
  | ifElse _ _ _ _ _ _ iha ihb ihe =>
    intro k r e' r' hk hsize h hr
    rw [Expr.stamp_ifElse (Expr.failure_of_stamp h hr)] at h
    obtain ⟨rfl, rfl⟩ := Prod.mk.inj h
    have hr₂ := Expr.failure_of_stamp rfl hr
    have hma := iha hk hsize rfl (Expr.failure_of_stamp rfl hr₂)
    have hmb := ihb (Surroundings.lt_after hk _) hma.size rfl hr₂
    have hme := ihe (Surroundings.lt_after (Surroundings.lt_after hk _) _) hmb.size rfl hr
    refine Mirrors.cons (.append (hma.mono ?_) (.append (hmb.mono ?_) (hme.mono ?_))) rfl rfl rfl
    · exact fun t ht => by simp [ht]
    · exact fun t ht => by simp [ht]
    · exact fun t ht => by simp [ht]
  | returned _ _ ih | yielded _ _ ih =>
    intro k r e' r' hk hsize h hr
    rw [Expr.stamp_result (Expr.failure_of_stamp h hr)] at h
    obtain ⟨rfl, rfl⟩ := Prod.mk.inj h
    exact ((ih hk hsize rfl hr).mono (List.subset_cons_self _ _)).cons rfl rfl rfl
  | prefixed _ _ ih =>
    intro k r e' r' hk hsize h hr
    rw [Expr.stamp_unary (Expr.failure_of_stamp h hr)] at h
    obtain ⟨rfl, rfl⟩ := Prod.mk.inj h
    exact ((ih hk hsize rfl hr).mono (List.subset_cons_self _ _)).cons rfl rfl rfl
  | binary _ _ _ iha ihb =>
    intro k r e' r' hk hsize h hr
    rw [Expr.stamp_binary (Expr.failure_of_stamp h hr)] at h
    obtain ⟨rfl, rfl⟩ := Prod.mk.inj h
    have hma := iha hk hsize rfl (Expr.failure_of_stamp rfl hr)
    have hmb := ihb (Surroundings.lt_after hk _) hma.size rfl hr
    refine Mirrors.cons (.append (hma.mono ?_) (hmb.mono ?_)) rfl rfl rfl
    · exact fun t ht => by simp [ht]
    · exact fun t ht => by simp [ht]
  | call _ _ _ _ ihf ihas =>
    intro k r e' r' hk hsize h hr
    rw [Expr.stamp_call (Expr.failure_of_stamp h hr)] at h
    obtain ⟨rfl, rfl⟩ := Prod.mk.inj h
    have hmf := ihf hk hsize rfl (Expr.failure_of_stampAll rfl hr)
    have hmas := ihas (Surroundings.lt_after hk _) hmf.size rfl hr
    refine Mirrors.cons (.append (hmf.mono ?_) (hmas.mono ?_)) rfl rfl rfl
    · exact fun t ht => by simp [ht]
    · exact fun t ht => by simp [ht]
  | noExpr =>
    intro k r es' r' hk hsize h hr
    obtain ⟨rfl, rfl⟩ := Prod.mk.inj h
    exact .nil hsize
  | lastExpr _ ih =>
    intro k r es' r' hk hsize h hr
    obtain ⟨rfl, rfl⟩ := Prod.mk.inj h
    have hm := ih hk hsize rfl hr
    exact hm.append (.nil hm.size)
  | moreExprs _ _ _ ihe ihes =>
    intro k r es' r' hk hsize h hr
    obtain ⟨rfl, rfl⟩ := Prod.mk.inj h
    have hrest := Expr.failure_of_stamp rfl (Expr.failure_of_stampAll rfl hr)
    have hme := ihe hk hsize rfl hrest
    have hmes := ihes (Surroundings.lt_after hk _) hme.size rfl hr
    refine .append (hme.mono ?_) (hmes.mono ?_)
    · exact fun t ht => by simp [ht]
    · exact fun t ht => by simp [ht]
  | evaluated _ _ ih =>
    intro k r s' r' hk hsize h hr
    rw [Stmt.stamp_expr (Stmt.failure_of_stamp h hr)] at h
    obtain ⟨rfl, rfl⟩ := Prod.mk.inj h
    exact ((ih hk hsize rfl hr).mono (List.subset_append_left _ _)).cons rfl rfl rfl
  | assigned _ _ _ _ _ ihl ihe =>
    intro k r s' r' hk hsize h hr
    rw [Stmt.stamp_assign (Stmt.failure_of_stamp h hr)] at h
    obtain ⟨rfl, rfl⟩ := Prod.mk.inj h
    have hml := ihl hk hsize rfl (Expr.failure_of_stamp rfl hr)
    have hme := ihe (Surroundings.lt_after hk _) hml.size rfl hr
    refine Mirrors.cons (.append (hml.mono ?_) (hme.mono ?_)) rfl rfl rfl
    · exact fun t ht => by simp [ht]
    · exact fun t ht => by simp [ht]
  | declared _ ih =>
    intro k r s' r' hk hsize h hr
    rw [Stmt.stamp_decl (Stmt.failure_of_stamp h hr)] at h
    obtain ⟨rfl, rfl⟩ := Prod.mk.inj h
    exact (ih hk hsize rfl hr).cons rfl rfl rfl
  | noStmt =>
    intro k r ss' r' hk hsize h hr
    obtain ⟨rfl, rfl⟩ := Prod.mk.inj h
    exact .nil hsize
  | moreStmts _ _ ihs ihss =>
    intro k r ss' r' hk hsize h hr
    obtain ⟨rfl, rfl⟩ := Prod.mk.inj h
    have hms := ihs hk hsize rfl (Stmt.failure_of_stampAll rfl hr)
    have hmss := ihss (Surroundings.lt_after hk _) hms.size rfl hr
    exact .append (hms.mono (List.subset_append_left _ _))
      (hmss.mono (List.subset_append_right _ _))
  | @var _ _ _ f _ _ _ _ _ _ _ hf _ _ _ ih =>
    intro k r d' r' hk hsize h hr
    rw [Decl.stamp_var (Decl.failure_of_stamp h hr)] at h
    obtain ⟨rfl, rfl⟩ := Prod.mk.inj h
    have hme := ih hk hsize rfl (of_declare hr).1
    refine .append (hme.mono ?_) (.binding (Surroundings.lt_after hk _) hme.size hr ?_ rfl rfl)
    · exact fun t ht => by simp [ht]
    · exact ⟨rfl, f, by simp, hf, rfl⟩
  | @fn _ n _ _ _ _ _ _ _ t _ _ _ _ _ _ _ _ hfits _ _ _ _ ih =>
    intro k r d' r' hk hsize h hr
    have hnone := Decl.failure_of_stamp h hr
    have hname := Decl.failure_of_stamp_fn h hr
    have hsize₁ :=
      (size_declare r k.scope ⟨.fn, n.text, n.place, n.place, k.isGlobal, t⟩).trans hsize
    simp only [Decl.stamp_fn hnone rfl hname, openScope_fst hsize₁] at h
    obtain ⟨rfl, rfl⟩ := Prod.mk.inj h
    have hparams := Expr.failure_of_stamp rfl hr
    refine .function hk hsize rfl hname rfl hparams (fun hsize₃ => ?_) ⟨rfl, hfits⟩
    have hbody := ih (k := k.inFunction t) k.lt_inBlock hsize₃ rfl hr
    exact hbody.mono fun t ht => by simp [ht]
  | noDecl =>
    intro k r ds' r' hk hsize h hr
    obtain ⟨rfl, rfl⟩ := Prod.mk.inj h
    exact ⟨0, .nil hsize⟩
  | moreDecls _ _ ihd ihds =>
    intro k r ds' r' hk hsize h hr
    obtain ⟨rfl, rfl⟩ := Prod.mk.inj h
    have hmd := ihd hk hsize rfl (Decl.failure_of_stampAll rfl hr)
    obtain ⟨n, hmds⟩ := ihds (Surroundings.lt_after hk _) hmd.size rfl hr
    exact ⟨_, .append (hmd.mono (List.subset_append_left _ _))
      (hmds.mono (List.subset_append_right _ _))⟩

end Mirroring

/-- The program `q` is `p` with scopes, which was read from the tokens `w`, and `S` is the tree of
the scopes: it has the scopes that the nodes of `q` open and the symbols that they bind, and no
others. -/
structure Program.Scoped (T : TypeTable) (w : List Token) (p q : Program) (S : ScopeTree) :
    Prop where
  reads : Reads T w (.decls p.decls)
  nodes : q.decls.map Decl.unstamped = p.decls
  root : q.scope = some ⟨0⟩
  scopes : S.outline = (⟨0⟩, .origin, none) :: q.visits.flatMap Visit.opens
  symbols : S.symbols.toList = (q.visits.flatMap (Visit.binds T)).map Prod.snd
  names : ∀ c n s, S.local? c n = some s ↔
    ∃ a, (q.visits.flatMap (Visit.binds T))[s.index]? = some (c, a) ∧ a.name = n
  inPlace : ∀ v ∈ q.visits, v.InPlace T w

namespace Program

variable {source : String} {T₀ T : TypeTable} {p q : Program} {S : ScopeTree} {w : List Token}

theorem scoped_of_reads (h : Reads T w (.decls p.decls))
    (hq : p.buildScopes T .empty = (q, { tree := S })) : Scoped T w p q S := by
  let start : Stamping := { tree := (ScopeTree.empty.push .origin none).2 }
  have hq : ((⟨(Decl.stampAll T ⟨0⟩ true p.decls start).1, some ⟨0⟩⟩ : Program),
      (Decl.stampAll T ⟨0⟩ true p.decls start).2) = (q, { tree := S }) := hq
  obtain ⟨⟨ds, r⟩, hstamp⟩ : ∃ x, x = Decl.stampAll T ⟨0⟩ true p.decls start := ⟨_, rfl⟩
  rw [← hstamp] at hq
  obtain ⟨rfl, rfl⟩ := Prod.mk.inj hq
  obtain ⟨n, hmirrors⟩ := h.mirrored (k := .program) Nat.zero_lt_one rfl hstamp.symm rfl
  have hgains := (ScopeTree.Gains.of_push .empty .origin none).trans hmirrors.gains
  refine ⟨h, ?_, rfl, hgains.outline, hgains.symbols, fun c n s => ?_, hmirrors.inPlace⟩
  · calc ds.map Decl.unstamped = p.decls.map Decl.unstamped := by
          rw [← Decl.unstamped_stampAll T ⟨0⟩ true p.decls start, ← hstamp]
      _ = p.decls := h.unstamped
  · have hnone : ScopeTree.empty.local? c n = none := rfl
    rw [hgains.names, hnone]
    constructor
    · rintro (hs | ⟨j, a, hj, ha, hn⟩)
      · exact nomatch hs
      · have hindex : s.index = j := hj.trans (Nat.zero_add j)
        exact ⟨a, hindex ▸ ha, hn⟩
    · rintro ⟨a, ha, hn⟩
      exact .inr ⟨s.index, a, (Nat.zero_add _).symm, ha, hn⟩

/-- What scopes a program gets can be told from its syntax tree: a root, a scope for each function
and each block in the order of the text, and each name where it is declared. -/
theorem scoped_of_parse (hp : parse source T₀ = (.ok p, T))
    (hq : p.buildScopes T .empty = (q, { tree := S })) :
    Scoped T (tokenize source).dropLast p q S :=
  scoped_of_reads (reads_of_parse hp).2.1 hq

/-- A variable in the body of a function, under the name of a parameter. -/
theorem scoped_of_shadowed_parameter :
    ∃ p T q S, parse "of [Int] -> Int fun f(a) = { var a = 1; a; };" .initial = (.ok p, T) ∧
      p.buildScopes T .empty = (q, { tree := S }) ∧
        Scoped T (tokenize "of [Int] -> Int fun f(a) = { var a = 1; a; };").dropLast p q S := by
  have h : match parse "of [Int] -> Int fun f(a) = { var a = 1; a; };" .initial with
    | (.ok p, T) => (p.buildScopes T .empty).2.failure = none
    | _ => False := by cbv
  split at h
  next p T hp =>
    have hq := buildScopes_of_failure h
    exact ⟨p, T, _, _, hp, hq, scoped_of_parse hp hq⟩
  next => exact h.elim

end Program

end FrontEnd
