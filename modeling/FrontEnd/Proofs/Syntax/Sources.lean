import FrontEnd.Proofs.Scope.Appending
import FrontEnd.Proofs.Typing.Overwriting

/-! The tokens that a syntax tree is made of. Stamping and typing write on the sites of the nodes
and leave these tokens alone. -/

namespace FrontEnd

theorem ReadList.kind_of_mem {w ps : List Token} (h : ReadList ReadName w ps) :
    ∀ k ∈ ps, k.kind = .identifier := by
  induction h with
  | nil => exact List.forall_mem_nil _
  | singleton h => exact List.forall_mem_singleton.mpr h.2
  | cons _ h _ ih => exact List.forall_mem_cons.mpr ⟨h.2, ih⟩

/-- Takes the scopes off the nodes. -/
def NodeMap.unstamped : NodeMap where
  site := Site.unstamped
  exprSite := ExprSite.unstamped

namespace Node

variable {w v : List Token} {M : NodeMap} {a b : Node} {e : Expr}

/-- The node stands at a token of `w`; what it reads as a literal and the names that it declares are
tokens of `w`. -/
def MadeOf (w : List Token) : Node → Prop
  | expr (.leaf s form k) =>
    form = .literal ∧ k.kind ∈ TokenKind.literals ∧ k ∈ w ∧ s.place = k.place
  | expr e => ∃ k ∈ w, k.place = e.place
  | decl (.var _ n _ _ _) => n.kind = .identifier ∧ n ∈ w
  | decl (.fn _ n _ ps _) => ∀ k ∈ n :: ps, k.kind = .identifier ∧ k ∈ w
  | _ => True

theorem MadeOf.place (h : MadeOf w (expr e)) : ∃ k ∈ w, k.place = e.place := by
  cases e with
  | leaf s form k => exact ⟨k, h.2.2.1, h.2.2.2.symm⟩
  | _ => exact h

theorem MadeOf.of_name (h : MadeOf w (expr e)) {k : Token} (hk : e.name? = some k) :
    k.kind = .identifier ∧ k ∈ w := by
  cases e with
  | leaf s form k' =>
    obtain ⟨rfl, -, hmem, -⟩ := h
    simp only [Expr.name?] at hk
    split at hk
    next hkind =>
      obtain rfl := Option.some.inj hk
      exact ⟨hkind, hmem⟩
    next => cases hk
  | _ => cases hk

theorem madeOf_of_reads {T : TypeTable} (h : Reads T w a) (hw : w ⊆ v) :
    a.Everywhere (MadeOf v) := by
  induction h with
  | primitive | pointer | function | noType | lastType | moreTypes | unsigned | signed =>
    exact fun _ h => nomatch h
  | literal ht => exact everywhere_leaf.mpr ⟨rfl, ht, hw List.mem_cons_self, rfl⟩
  | group _ _ _ ih =>
    simp only [List.cons_subset, List.append_subset] at hw
    exact ih hw.2.1
  | block _ _ _ ih =>
    simp only [List.cons_subset, List.append_subset] at hw
    exact everywhere_block.mpr ⟨⟨_, hw.1, rfl⟩, ih hw.2.1⟩
  | ifThen _ _ _ _ ih ih' =>
    simp only [List.cons_subset, List.append_subset] at hw
    exact everywhere_ifThen.mpr ⟨⟨_, hw.1, rfl⟩, ih hw.2.1, ih' hw.2.2.2⟩
  | ifElse _ _ _ _ _ _ ih ih' ih'' =>
    simp only [List.cons_subset, List.append_subset] at hw
    exact everywhere_ifElse.mpr
      ⟨⟨_, hw.1, rfl⟩, ih hw.2.1, ih' hw.2.2.2.1, ih'' hw.2.2.2.2.2⟩
  | returned _ _ ih | yielded _ _ ih =>
    simp only [List.cons_subset] at hw
    exact everywhere_result.mpr ⟨⟨_, hw.1, rfl⟩, ih hw.2⟩
  | prefixed _ _ ih =>
    simp only [List.cons_subset] at hw
    exact everywhere_unary.mpr ⟨⟨_, hw.1, rfl⟩, ih hw.2⟩
  | binary _ _ _ ih ih' =>
    simp only [List.cons_subset, List.append_subset] at hw
    exact everywhere_binary.mpr ⟨⟨_, hw.2.1, rfl⟩, ih hw.1, ih' hw.2.2⟩
  | call _ _ _ _ ih ih' =>
    simp only [List.cons_subset, List.append_subset] at hw
    have hf := ih hw.1
    exact everywhere_call.mpr ⟨hf.self.place, hf, ih' hw.2.2.1⟩
  | noExpr => exact everywhere_noExpr
  | lastExpr _ ih => exact everywhere_moreExprs.mpr ⟨ih hw, everywhere_noExpr⟩
  | moreExprs _ _ _ ih ih' =>
    simp only [List.cons_subset, List.append_subset] at hw
    exact everywhere_moreExprs.mpr ⟨ih hw.1, ih' hw.2.2⟩
  | evaluated _ _ ih =>
    exact everywhere_evaluated.mpr ⟨trivial, ih (List.append_subset.mp hw).1⟩
  | assigned _ _ _ _ _ ih ih' =>
    simp only [List.cons_subset, List.append_subset] at hw
    exact everywhere_assigned.mpr ⟨trivial, ih hw.1, ih' hw.2.2.1⟩
  | declared _ ih => exact everywhere_declared.mpr ⟨trivial, ih hw⟩
  | noStmt => exact everywhere_noStmt
  | moreStmts _ _ ih ih' =>
    exact everywhere_moreStmts.mpr
      ⟨ih (List.append_subset.mp hw).1, ih' (List.append_subset.mp hw).2⟩
  | var _ hn _ _ _ _ _ ih =>
    simp only [List.cons_subset, List.append_subset] at hw
    exact everywhere_var.mpr ⟨⟨hn, hw.2.2.1⟩, ih hw.2.2.2.2.1⟩
  | fn _ hn _ _ _ _ _ _ hps _ _ ih =>
    simp only [List.cons_subset, List.append_subset] at hw
    obtain ⟨-, -, hname, -, hparams, -, -, hbody, -⟩ := hw
    refine everywhere_fn.mpr ⟨List.forall_mem_cons.mpr ⟨⟨hn, hname⟩, fun k hk => ?_⟩, ih hbody⟩
    exact ⟨hps.kind_of_mem k hk, hparams (hps.sublist.subset hk)⟩
  | noDecl => exact everywhere_noDecl
  | moreDecls _ _ ih ih' =>
    exact everywhere_moreDecls.mpr
      ⟨ih (List.append_subset.mp hw).1, ih' (List.append_subset.mp hw).2⟩

/-- The nodes of the image are the images of the nodes. -/
def NodesMap (M : NodeMap) (a : Node) : Prop := (a.map M).nodes = a.nodes.map (Node.map M)

theorem hereditary_nodesMap (M : NodeMap) : Hereditary (NodesMap M) := by
  constructor
  all_goals
    intros
    simp_all only [NodesMap, Node.map, Node.nodes, Expr.map, Expr.mapAll, Stmt.map, Stmt.mapAll,
      Decl.map, Expr.nodes, Expr.nodesOfAll, Stmt.nodes, Stmt.nodesOfAll, Decl.nodes,
      List.map_cons, List.map_append, List.map_nil]

theorem nodes_map_decls (M : NodeMap) (ds : List Decl) :
    ((decls ds).map M).nodes = (decls ds).nodes.map (Node.map M) := by
  induction ds with
  | nil => rfl
  | cons d ds ih =>
    have hd := (hereditary_nodesMap M).decl d
    simp only [NodesMap, Node.map, nodes, List.map_cons, List.flatMap_cons, List.map_append] at *
    rw [hd, ih]

theorem everywhere_map_decls {P : Node → Prop} {ds : List Decl} :
    ((decls ds).map M).Everywhere P ↔ (decls ds).Everywhere fun b => P (b.map M) := by
  simp only [Everywhere, nodes_map_decls, List.forall_mem_map]

/-- A map that leaves places and tokens alone does not move a node. -/
theorem madeOf_map (hplace : ∀ s, (M.exprSite s).place = s.place) (htoken : M.token = id) :
    MadeOf w (b.map M) ↔ MadeOf w b := by
  cases b with
  | expr e => cases e <;> simp [Node.map, Expr.map, MadeOf, Expr.place, Expr.site, hplace, htoken]
  | decl d => cases d <;> simp [Node.map, Decl.map, MadeOf, htoken]
  | _ => exact Iff.rfl

theorem everywhere_madeOf_map (hplace : ∀ s, (M.exprSite s).place = s.place)
    (htoken : M.token = id) {ds : List Decl} :
    ((decls ds).map M).Everywhere (MadeOf w) ↔ (decls ds).Everywhere (MadeOf w) := by
  simp only [everywhere_map_decls, madeOf_map hplace htoken]

theorem hereditary_unstamped_eq_map : Hereditary fun a => a.unstamped = a.map .unstamped := by
  constructor
  all_goals
    intros
    simp_all [Node.map, Node.unstamped, Expr.map, Expr.mapAll, Stmt.map, Stmt.mapAll, Decl.map,
      Expr.unstamped, Expr.unstampedAll, Stmt.unstamped, Stmt.unstampedAll, Decl.unstamped,
      NodeMap.unstamped]

theorem unstamped_decls (ds : List Decl) : (decls ds).unstamped = (decls ds).map .unstamped := by
  simp only [unstamped, Node.map, decls.injEq]
  refine List.map_congr_left fun d _ => ?_
  exact decl.inj (hereditary_unstamped_eq_map.decl d)

end Node

namespace Program

variable {w : List Token} {T : TypeTable} {p q : Program} {S : ScopeTree}

/-- All nodes of the program stand in `w`. -/
def MadeOf (w : List Token) (p : Program) : Prop :=
  (Node.decls p.decls).Everywhere (Node.MadeOf w)

theorem Scoped.madeOf (h : p.Scoped T w q S) : q.MadeOf w := by
  have hp : p.MadeOf w := Node.madeOf_of_reads h.reads (List.Subset.refl w)
  have hq : (Node.decls q.decls).map .unstamped = .decls p.decls := by
    rw [← Node.unstamped_decls, Node.unstamped, h.nodes]
  rw [MadeOf, ← hq] at hp
  exact (Node.everywhere_madeOf_map (fun _ => rfl) rfl).mp hp

end Program

end FrontEnd
