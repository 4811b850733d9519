import FrontEnd.Proofs.Scope.Placement
import FrontEnd.Proofs.Scope.Stamping

/-! Stamping puts every node in its place, whatever is stamped after it. -/

namespace FrontEnd

namespace Stamping

variable {r : Stamping} {c : ScopeId} {a : Symbol}

theorem size_declare (r : Stamping) (c : ScopeId) (a : Symbol) :
    (r.declare c a).tree.scopes.size = r.tree.scopes.size := by
  unfold declare
  split
  · rfl
  · split
    next hb => exact ScopeTree.size_bind hb
    next => rfl

theorem of_declareParams {ps : List Token} {ts : List TypeId} (hc : r.tree.Holds c)
    (h : (declareParams c ps ts r).failure = none) : r.failure = none ∧
      ScopeTree.Advances c (ps.map Token.text) r.tree (declareParams c ps ts r).tree ∧
      ∀ p ∈ ps, ∃ u, (declareParams c ps ts r).tree.Binds c p
        ⟨.var, p.text, p.place, p.place, false, u⟩ := by
  induction ps generalizing ts r with
  | nil => exact ⟨h, .refl c r.tree, fun p hp => nomatch hp⟩
  | cons p ps ih =>
    obtain ⟨hr, hps, hbinds⟩ := ih (Nat.lt_of_lt_of_eq hc (size_declare _ _ _).symm) h
    obtain ⟨hr, i, hi⟩ := of_declare hr
    have hadvance := ScopeTree.Advances.of_bind hi hc
    refine ⟨hr, hadvance.trans hps, fun q hq => ?_⟩
    rcases List.mem_cons.mp hq with rfl | hq
    · exact ⟨ts.head?, i, hps.kept (ScopeTree.local?_bind_self hi hc),
        hps.symbols (ScopeTree.symbol?_bind_self hi)⟩
    · exact hbinds q hq

end Stamping

namespace ScopeTree

variable {F S S' : ScopeTree} {k : Nat} {c d : ScopeId} {ns : List String}

/-- In the finished tree `F` the scopes of `S` from the `k`-th on have all their names, and nothing
is lost of the scope `c` that is worked in. -/
structure Settles (F S : ScopeTree) (k : Nat) (c : ScopeId) : Prop where
  scopes {d : ScopeId} : k ≤ d.index → S.Holds d → F.scope? d = S.scope? d
  names {n : String} {s : SymbolId} : S.local? c n = some s → F.local? c n = some s
  symbols {s : SymbolId} {a : Symbol} : S.symbol? s = some a → F.symbol? s = some a

namespace Settles

theorem before (h : F.Settles S' k c) (ha : Advances c ns S S') (hc : c.index < k) :
    F.Settles S k c where
  scopes hk hd := by
    have hne : ∀ {d : ScopeId}, k ≤ d.index → d ≠ c := by
      rintro d hd rfl
      omega
    exact (h.scopes hk (ha.holds hd)).trans (ha.others hd (hne hk))
  names hs := h.names (ha.kept hs)
  symbols hs := h.symbols (ha.symbols hs)

theorem after (h : F.Settles S k c) {l : Nat} (hk : k ≤ l) : F.Settles S l c :=
  ⟨fun hl hd => h.scopes (Nat.le_trans hk hl) hd, h.names, h.symbols⟩

theorem opened (h : F.Settles S k c) (hd : S.Holds d) (hk : k ≤ d.index) : F.Settles S k d :=
  ⟨h.scopes, fun hs => by rwa [local?, h.scopes hk hd], h.symbols⟩

theorem inside {place : Position} (h : F.Settles S' S.scopes.size c)
    (ha : Advances (S.push place (some c)).1 ns (S.push place (some c)).2 S') :
    F.Inside (S.push place (some c)).1 c ns := by
  have hd : S'.Holds (S.push place (some c)).1 := ha.holds (by simp [Holds, push])
  have hscope : F.scope? (S.push place (some c)).1 = S'.scope? (S.push place (some c)).1 :=
    h.scopes (Nat.le_refl _) hd
  constructor
  · rw [parent?, hscope, ← parent?, ha.parent, parent?_push_self]
  · intro n hn
    rw [local?, hscope, ← local?, ha.names hn, local?_push_self]

end Settles

/-- Work in the scope `c` after which `P` holds of the finished tree. -/
def Settling (c : ScopeId) (ns : List String) (S S' : ScopeTree) (P : ScopeTree → Prop) : Prop :=
  Advances c ns S S' ∧ ∀ F : ScopeTree, F.Settles S' S.scopes.size c → P F

namespace Settling

variable {S'' : ScopeTree} {ms : List String} {P Q : ScopeTree → Prop}

theorem imp (h : Settling c ns S S' P) (hP : ∀ F, P F → Q F) : Settling c ns S S' Q :=
  ⟨h.1, fun F hF => hP F (h.2 F hF)⟩

theorem append (h : Settling c ns S S' P) (h' : Settling c ms S' S'' Q) (hc : S.Holds c) :
    Settling c (ns ++ ms) S S'' fun F => P F ∧ Q F :=
  ⟨h.1.trans h'.1, fun F hF => ⟨h.2 F (hF.before h'.1 hc), h'.2 F (hF.after h.1.size)⟩⟩

theorem of_push {place : Position} (hc : S.Holds c)
    (h : Settling (S.push place (some c)).1 ns (S.push place (some c)).2 S' P) :
    Settling c [] S S' fun F => P F ∧ F.Inside (S.push place (some c)).1 c ns := by
  refine ⟨.of_push hc h.1, fun F hF => ⟨h.2 F ?_, hF.inside h.1⟩⟩
  have hd : S'.Holds (S.push place (some c)).1 := h.1.holds (by simp [Holds, push])
  exact (hF.opened hd (Nat.le_refl _)).after (by simp [push])

theorem of_bind {a : Symbol} {i : SymbolId} {n : Token} (hn : a.name = n.text)
    (h : S.bind c a = .ok (i, S')) (hc : S.Holds c) :
    Settling c [n.text] S S' fun F => F.Binds c n a :=
  ⟨hn ▸ .of_bind h hc, fun _ hF => ⟨i, hF.names (hn ▸ local?_bind_self h hc),
    hF.symbols (symbol?_bind_self h)⟩⟩

end Settling

end ScopeTree

open ScopeTree in
/-- What stamping a node does to the scopes, and where the stamped node stands. -/
def Node.Settled (T : TypeTable) (w : List Token) : Node → Prop
  | .expr e => ∀ {c g r e' r'}, e.stamp T c g r = (e', r') → r'.failure = none → r.tree.Holds c →
      Settling c [] r.tree r'.tree fun F => Placed F T c g w (.expr e')
  | .exprs es => ∀ {c g r es' r'}, Expr.stampAll T c g es r = (es', r') → r'.failure = none →
      r.tree.Holds c → Settling c [] r.tree r'.tree fun F => Placed F T c g w (.exprs es')
  | .stmt s => ∀ {c g r s' r'}, s.stamp T c g r = (s', r') → r'.failure = none → r.tree.Holds c →
      Settling c s'.declared r.tree r'.tree fun F => Placed F T c g w (.stmt s')
  | .stmts ss => ∀ {c g r ss' r'}, Stmt.stampAll T c g ss r = (ss', r') → r'.failure = none →
      r.tree.Holds c → Settling c (ss'.flatMap Stmt.declared) r.tree r'.tree
        fun F => Placed F T c g w (.stmts ss')
  | .decl d => ∀ {c g r d' r'}, d.stamp T c g r = (d', r') → r'.failure = none → r.tree.Holds c →
      Settling c [d'.name.text] r.tree r'.tree fun F => Placed F T c g w (.decl d')
  | .decls ds => ∀ {c g r ds' r'}, Decl.stampAll T c g ds r = (ds', r') → r'.failure = none →
      r.tree.Holds c → Settling c (ds'.map fun d => d.name.text) r.tree r'.tree
        fun F => Placed F T c g w (.decls ds')
  | _ => True

/-- The parameters of a function are bound in its scope for good. -/
theorem Stamping.settling_declareParams {r : Stamping} {c : ScopeId} {ps : List Token}
    {ts : List TypeId} (hc : r.tree.Holds c) (h : (declareParams c ps ts r).failure = none) :
    ScopeTree.Settling c (ps.map Token.text) r.tree (declareParams c ps ts r).tree fun F =>
      ∀ p ∈ ps, ∃ u, F.Binds c p ⟨.var, p.text, p.place, p.place, false, u⟩ := by
  obtain ⟨_, hadvances, hbinds⟩ := of_declareParams hc h
  refine ⟨hadvances, fun F hF p hp => ?_⟩
  obtain ⟨u, s, hs, ha⟩ := hbinds p hp
  exact ⟨u, s, hF.names hs, hF.symbols ha⟩

theorem ReadList.sublist {w ps : List Token} (h : ReadList ReadName w ps) : ps.Sublist w := by
  induction h with
  | nil => exact .slnil
  | singleton h => exact h.1 ▸ .refl _
  | cons _ h _ ih => exact h.1 ▸ (ih.cons _).cons_cons _

theorem ScopeTree.holds_push (S : ScopeTree) (place : Position) (parent : Option ScopeId) :
    (S.push place parent).2.Holds (S.push place parent).1 := by simp [Holds, push]

open ScopeTree in
theorem Reads.settled {T : TypeTable} {w : List Token} {a : Node} (h : Reads T w a) :
    a.Settled T w := by
  induction h with
  | primitive | pointer | function | noType | lastType | moreTypes | unsigned | signed => trivial
  | literal ht =>
    intro c g r e' r' h hr hc
    rw [Expr.stamp_leaf (Expr.failure_of_stamp h hr)] at h
    obtain ⟨rfl, rfl⟩ := Prod.mk.inj h
    exact ⟨.refl c _, fun F hF => .literal rfl ht⟩
  | group _ _ _ ih =>
    intro c g r e' r' h hr hc
    exact (ih h hr hc).imp fun F hF => .among ((List.sublist_append_left _ _).cons _) hF
  | block _ _ _ ih =>
    intro c g r e' r' h hr hc
    rw [Expr.stamp_block (Expr.failure_of_stamp h hr)] at h
    obtain ⟨rfl, rfl⟩ := Prod.mk.inj h
    have hs := ih rfl hr (holds_push _ _ _)
    refine (Settling.of_push hc hs).imp fun F hF => .among ?_ (.block hF.2 hF.1)
    exact (List.sublist_append_left _ _).cons _
  | ifThen _ _ _ _ iha ihb =>
    intro c g r e' r' h hr hc
    rw [Expr.stamp_ifThen (Expr.failure_of_stamp h hr)] at h
    obtain ⟨rfl, rfl⟩ := Prod.mk.inj h
    have hsa := iha rfl (Expr.failure_of_stamp rfl hr) hc
    have hsb := ihb rfl hr (hsa.1.holds hc)
    refine (hsa.append hsb hc).imp fun F hF => .among ?_ (.ifThen hF.1 hF.2)
    exact ((List.Sublist.refl _).append ((List.Sublist.refl _).cons _)).cons _
  | ifElse _ _ _ _ _ _ iha ihb ihe =>
    intro c g r e' r' h hr hc
    rw [Expr.stamp_ifElse (Expr.failure_of_stamp h hr)] at h
    obtain ⟨rfl, rfl⟩ := Prod.mk.inj h
    have hr₂ := Expr.failure_of_stamp rfl hr
    have hsa := iha rfl (Expr.failure_of_stamp rfl hr₂) hc
    have hsb := ihb rfl hr₂ (hsa.1.holds hc)
    have hse := ihe rfl hr (hsb.1.holds (hsa.1.holds hc))
    have hs := hsa.append (hsb.append hse (hsa.1.holds hc)) hc
    refine hs.imp fun F hF => .among ?_ (.ifElse hF.1 hF.2.1 hF.2.2)
    exact ((List.Sublist.refl _).append
      (((List.Sublist.refl _).append ((List.Sublist.refl _).cons _)).cons _)).cons _
  | returned _ _ ih | yielded _ _ ih =>
    intro c g r e' r' h hr hc
    rw [Expr.stamp_result (Expr.failure_of_stamp h hr)] at h
    obtain ⟨rfl, rfl⟩ := Prod.mk.inj h
    exact (ih rfl hr hc).imp fun F hF => .among (List.sublist_cons_self _ _) (.result hF)
  | prefixed _ _ ih =>
    intro c g r e' r' h hr hc
    rw [Expr.stamp_unary (Expr.failure_of_stamp h hr)] at h
    obtain ⟨rfl, rfl⟩ := Prod.mk.inj h
    exact (ih rfl hr hc).imp fun F hF => .among (List.sublist_cons_self _ _) (.unary hF)
  | binary _ _ _ iha ihb =>
    intro c g r e' r' h hr hc
    rw [Expr.stamp_binary (Expr.failure_of_stamp h hr)] at h
    obtain ⟨rfl, rfl⟩ := Prod.mk.inj h
    have hsa := iha rfl (Expr.failure_of_stamp rfl hr) hc
    have hsb := ihb rfl hr (hsa.1.holds hc)
    refine (hsa.append hsb hc).imp fun F hF => .among ?_ (.binary hF.1 hF.2)
    exact (List.Sublist.refl _).append ((List.Sublist.refl _).cons _)
  | call _ _ _ _ ihf ihas =>
    intro c g r e' r' h hr hc
    rw [Expr.stamp_call (Expr.failure_of_stamp h hr)] at h
    obtain ⟨rfl, rfl⟩ := Prod.mk.inj h
    have hsf := ihf rfl (Expr.failure_of_stampAll rfl hr) hc
    have hsas := ihas rfl hr (hsf.1.holds hc)
    refine (hsf.append hsas hc).imp fun F hF => .among ?_ (.call hF.1 hF.2)
    exact (List.Sublist.refl _).append ((List.sublist_append_left _ _).cons _)
  | noExpr =>
    intro c g r es' r' h hr hc
    obtain ⟨rfl, rfl⟩ := Prod.mk.inj h
    exact ⟨.refl c _, fun F hF => .noExpr⟩
  | lastExpr _ ih =>
    intro c g r es' r' h hr hc
    obtain ⟨rfl, rfl⟩ := Prod.mk.inj h
    exact (ih rfl hr hc).imp fun F hF => .among (by simp) (.moreExprs hF .noExpr)
  | moreExprs _ _ _ ihe ihes =>
    intro c g r es' r' h hr hc
    obtain ⟨rfl, rfl⟩ := Prod.mk.inj h
    have hse := ihe rfl (Expr.failure_of_stamp rfl (Expr.failure_of_stampAll rfl hr)) hc
    have hses := ihes rfl hr (hse.1.holds hc)
    refine (hse.append hses hc).imp fun F hF => .among ?_ (.moreExprs hF.1 hF.2)
    exact (List.Sublist.refl _).append ((List.Sublist.refl _).cons _)
  | evaluated _ _ ih =>
    intro c g r s' r' h hr hc
    rw [Stmt.stamp_expr (Stmt.failure_of_stamp h hr)] at h
    obtain ⟨rfl, rfl⟩ := Prod.mk.inj h
    exact (ih rfl hr hc).imp fun F hF => .among (List.sublist_append_left _ _) (.evaluated hF)
  | @assigned _ _ _ _ _ l _ _ _ hname _ _ ihl ihe =>
    intro c g r s' r' h hr hc
    rw [Stmt.stamp_assign (Stmt.failure_of_stamp h hr)] at h
    obtain ⟨rfl, rfl⟩ := Prod.mk.inj h
    have hname : (l.stamp T c g r).1.name?.isSome := by
      rw [Expr.name?_stamp, hname, Option.isSome_some]
    have hsl := ihl rfl (Expr.failure_of_stamp rfl hr) hc
    have hse := ihe rfl hr (hsl.1.holds hc)
    refine (hsl.append hse hc).imp fun F hF => .among ?_ (.assigned hname hF.1 hF.2)
    exact (List.Sublist.refl _).append ((List.sublist_append_left _ _).cons _)
  | declared _ ih =>
    intro c g r s' r' h hr hc
    rw [Stmt.stamp_decl (Stmt.failure_of_stamp h hr)] at h
    obtain ⟨rfl, rfl⟩ := Prod.mk.inj h
    exact (ih rfl hr hc).imp fun F hF => .declared hF
  | noStmt =>
    intro c g r ss' r' h hr hc
    obtain ⟨rfl, rfl⟩ := Prod.mk.inj h
    exact ⟨.refl c _, fun F hF => .noStmt⟩
  | moreStmts _ _ ihs ihss =>
    intro c g r ss' r' h hr hc
    obtain ⟨rfl, rfl⟩ := Prod.mk.inj h
    have hss₁ := ihs rfl (Stmt.failure_of_stampAll rfl hr) hc
    have hss₂ := ihss rfl hr (hss₁.1.holds hc)
    exact (hss₁.append hss₂ hc).imp fun F hF => .moreStmts hF.1 hF.2
  | @var k n a f w v t e hk hn ha hf _ _ _ ih =>
    intro c g r d' r' h hr hc
    rw [Decl.stamp_var (Decl.failure_of_stamp h hr)] at h
    obtain ⟨rfl, rfl⟩ := Prod.mk.inj h
    obtain ⟨hr₁, i, hi⟩ := Stamping.of_declare hr
    have hse := ih rfl hr₁ hc
    have hsn := Settling.of_bind rfl hi (hse.1.holds hc)
    refine (hse.append hsn hc).imp fun F hF => .among ?_ (.var rfl hF.2 hF.1)
    have hinitial : List.Sublist (v ++ [f]) (a :: (v ++ [f])) := List.sublist_cons_self _ _
    exact ((hinitial.cons_cons n).cons k).trans (List.sublist_append_right _ _)
  | @fn k n o p a f w u v t ps e hk hn ho hp ha hf hg _ hu _ _ ih =>
    intro c g r d' r' h hr hc
    have hnone := Decl.failure_of_stamp h hr
    have hname := Decl.failure_of_stamp_fn h hr
    rw [Decl.stamp_fn hnone rfl hname] at h
    obtain ⟨rfl, rfl⟩ := Prod.mk.inj h
    obtain ⟨_, i, hi⟩ := Stamping.of_declare hname
    have hsn := Settling.of_bind rfl hi hc
    -- the parameters and the body stand in a scope of their own
    have hd := holds_push (r.declare c ⟨.fn, n.text, n.place, n.place, g, t⟩).tree n.place (some c)
    have hsps := Stamping.settling_declareParams hd (Expr.failure_of_stamp rfl hr)
    have hse := ih rfl hr (hsps.1.holds hd)
    have hsd := Settling.of_push (hsn.1.holds hc) (hsps.append hse hd)
    rw [List.append_nil] at hsd
    refine (hsn.append hsd hc).imp fun F hF => .among ?_
      (.fn hF.1 hg hF.2.2 hF.2.1.1 hF.2.1.2)
    have hbody : v.Sublist (p :: a :: (v ++ [f])) :=
      ((List.sublist_append_left v [f]).cons a).cons p
    exact ((((hu.sublist.append hbody).cons o).cons_cons n).cons k).trans
      (List.sublist_append_right _ _)
  | noDecl =>
    intro c g r ds' r' h hr hc
    obtain ⟨rfl, rfl⟩ := Prod.mk.inj h
    exact ⟨.refl c _, fun F hF => .noDecl⟩
  | moreDecls _ _ ihd ihds =>
    intro c g r ds' r' h hr hc
    obtain ⟨rfl, rfl⟩ := Prod.mk.inj h
    have hsd := ihd rfl (Decl.failure_of_stampAll rfl hr) hc
    have hsds := ihds rfl hr (hsd.1.holds hc)
    exact (hsd.append hsds hc).imp fun F hF => .moreDecls hF.1 hF.2

namespace Program

theorem wellFormed_empty : ScopeTree.empty.WellFormed where
  parent_lt h := by simp [ScopeTree.empty, ScopeTree.parent?, ScopeTree.scope?] at h
  bound h := by simp [ScopeTree.empty, ScopeTree.local?, ScopeTree.scope?] at h
  unique h := by simp [ScopeTree.empty, ScopeTree.local?, ScopeTree.scope?] at h

/-- The finished scopes of a program: a root without a parent, in which its declarations stand. -/
structure Rooted (S : ScopeTree) (T : TypeTable) (w : List Token) (p : Program) (c : ScopeId) :
    Prop where
  wellFormed : S.WellFormed
  root : S.parent? c = none
  names {n : String} : n ∉ p.decls.map (fun d => d.name.text) → S.local? c n = none
  placed : Placed S T c true w (.decls p.decls)

theorem buildScopes_of_failure {p : Program} {T : TypeTable} {S : ScopeTree}
    (h : (p.buildScopes T S).2.failure = none) :
    p.buildScopes T S = ((p.buildScopes T S).1, { tree := (p.buildScopes T S).2.tree }) := by
  rw [← h]

theorem exists_rooted {p q : Program} {S : ScopeTree} {T : TypeTable} {w : List Token}
    (h : Reads T w (.decls p.decls)) (hq : p.buildScopes T .empty = (q, { tree := S })) :
    ∃ c, Rooted S T w q c := by
  let start := ScopeTree.empty.push .origin none
  have hq : ((⟨(Decl.stampAll T start.1 true p.decls { tree := start.2 }).1, some start.1⟩ :
      Program), (Decl.stampAll T start.1 true p.decls { tree := start.2 }).2) =
        (q, { tree := S }) := hq
  obtain ⟨rfl, hS⟩ := Prod.mk.inj hq
  have hfailure : (Decl.stampAll T start.1 true p.decls { tree := start.2 }).2.failure = none := by
    rw [hS]
  have hsettling := h.settled rfl hfailure (ScopeTree.holds_push _ _ _)
  rw [hS] at hsettling
  obtain ⟨hadvances, hplaced⟩ := hsettling
  refine ⟨start.1, hadvances.wellFormed (wellFormed_empty.push fun d hd => nomatch hd), ?_, ?_,
    hplaced S ⟨fun _ _ => rfl, id, id⟩⟩
  · rw [hadvances.parent, ScopeTree.parent?_push_self]
  · intro n hn
    rw [hadvances.names hn, ScopeTree.local?_push_self]

end Program

end FrontEnd
