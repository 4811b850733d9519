import FrontEnd.Proofs.Scope.Mirroring

/-! The places that scopes are read by, in the order of the text: those of the leaves, and those
that declared names are visible from. -/

namespace FrontEnd

mutual

/-- The places of the leaves and those from which the names are visible. A variable is visible from
its end, all else from its name on. -/
def Expr.marks : Expr → List Position
  | .leaf s _ _ => [s.place]
  | .binary _ _ _ l r => l.marks ++ r.marks
  | .unary _ _ e => e.marks
  | .call _ f as => f.marks ++ Expr.marksOfAll as
  | .block _ body => Stmt.marksOfAll body
  | .ifThen _ c a => c.marks ++ a.marks
  | .ifElse _ c a b => c.marks ++ (a.marks ++ b.marks)
  | .result _ _ e => e.marks

def Expr.marksOfAll : List Expr → List Position
  | [] => []
  | e :: es => e.marks ++ Expr.marksOfAll es

def Stmt.marks : Stmt → List Position
  | .expr _ e => e.marks
  | .assign _ l e => l.marks ++ e.marks
  | .decl _ d => d.marks

def Stmt.marksOfAll : List Stmt → List Position
  | [] => []
  | s :: ss => s.marks ++ Stmt.marksOfAll ss

def Decl.marks : Decl → List Position
  | .var _ _ _ e finish => e.marks ++ [finish]
  | .fn _ n _ ps e => n.place :: (ps.map Token.place ++ e.marks)

end

namespace Node

def marks : Node → List Position
  | expr e => e.marks
  | exprs es => Expr.marksOfAll es
  | stmt s => s.marks
  | stmts ss => Stmt.marksOfAll ss
  | decl d => d.marks
  | decls ds => ds.flatMap Decl.marks
  | _ => []

/-- The marks do not depend on the scopes. -/
def KeepsMarks : Node → Prop
  | expr e => e.unstamped.marks = e.marks
  | exprs es => Expr.marksOfAll (Expr.unstampedAll es) = Expr.marksOfAll es
  | stmt s => s.unstamped.marks = s.marks
  | stmts ss => Stmt.marksOfAll (Stmt.unstampedAll ss) = Stmt.marksOfAll ss
  | decl d => d.unstamped.marks = d.marks
  | _ => True

theorem hereditary_keepsMarks : Hereditary KeepsMarks := by
  constructor
  all_goals
    intros
    simp_all only [KeepsMarks, Expr.unstamped, Expr.unstampedAll, Stmt.unstamped,
      Stmt.unstampedAll, Decl.unstamped, Expr.marks, Expr.marksOfAll, Stmt.marks, Stmt.marksOfAll,
      Decl.marks, ExprSite.unstamped]

def Embeds (a b : Node) : Prop := b.nodes ⊆ a.nodes ∧ b.marks.Sublist a.marks

theorem Embeds.refl (a : Node) : a.Embeds a := ⟨List.Subset.refl _, .refl _⟩

theorem Embeds.trans {a b c : Node} (h : a.Embeds b) (h' : b.Embeds c) : a.Embeds c :=
  ⟨List.Subset.trans h'.1 h.1, h'.2.trans h.2⟩

theorem Everywhere.embed {a b : Node} (h : b.Everywhere b.Embeds) (hnodes : b.nodes ⊆ a.nodes)
    (hmarks : b.marks.Sublist a.marks) : b.Everywhere a.Embeds :=
  h.imp fun _ hc => Embeds.trans ⟨hnodes, hmarks⟩ hc

theorem hereditary_embeds : Hereditary fun a => a.Everywhere a.Embeds where
  leaf := everywhere_leaf.mpr (.refl _)
  binary ha hb := everywhere_binary.mpr ⟨.refl _,
    ha.embed (by grind) (List.sublist_append_left _ _),
    hb.embed (by grind) (List.sublist_append_right _ _)⟩
  unary ha := everywhere_unary.mpr ⟨.refl _, ha.embed (by grind) (.refl _)⟩
  call hf has := everywhere_call.mpr ⟨.refl _,
    hf.embed (by grind) (List.sublist_append_left _ _),
    has.embed (by grind) (List.sublist_append_right _ _)⟩
  block hss := everywhere_block.mpr ⟨.refl _, hss.embed (by grind) (.refl _)⟩
  ifThen hc ha := everywhere_ifThen.mpr ⟨.refl _,
    hc.embed (by grind) (List.sublist_append_left _ _),
    ha.embed (by grind) (List.sublist_append_right _ _)⟩
  ifElse hc ha hb := everywhere_ifElse.mpr ⟨.refl _,
    hc.embed (by grind) (List.sublist_append_left _ _),
    ha.embed (by grind)
      ((List.sublist_append_left _ _).trans (List.sublist_append_right _ _)),
    hb.embed (by grind)
      ((List.sublist_append_right _ _).trans (List.sublist_append_right _ _))⟩
  result ha := everywhere_result.mpr ⟨.refl _, ha.embed (by grind) (.refl _)⟩
  noExpr := everywhere_noExpr
  moreExprs he hes := everywhere_moreExprs.mpr
    ⟨he.embed (by grind) (List.sublist_append_left _ _),
      hes.embed (by grind) (List.sublist_append_right _ _)⟩
  evaluated he := everywhere_evaluated.mpr ⟨.refl _, he.embed (by grind) (.refl _)⟩
  assigned hl he := everywhere_assigned.mpr ⟨.refl _,
    hl.embed (by grind) (List.sublist_append_left _ _),
    he.embed (by grind) (List.sublist_append_right _ _)⟩
  declared hd := everywhere_declared.mpr ⟨.refl _, hd.embed (by grind) (.refl _)⟩
  noStmt := everywhere_noStmt
  moreStmts hs hss := everywhere_moreStmts.mpr
    ⟨hs.embed (by grind) (List.sublist_append_left _ _),
      hss.embed (by grind) (List.sublist_append_right _ _)⟩
  var he := everywhere_var.mpr ⟨.refl _, he.embed (by grind) (List.sublist_append_left _ _)⟩
  fn he := everywhere_fn.mpr ⟨.refl _,
    he.embed (by grind) ((List.sublist_append_right _ _).cons _)⟩

end Node

theorem Reads.marks_sublist {T : TypeTable} {w : List Token} {a : Node} (h : Reads T w a) :
    a.marks.Sublist (w.map Token.place) := by
  have wrap {l m : List Position} (h : l.Sublist m) (k k' : List Position) :
      l.Sublist (k ++ (m ++ k')) :=
    (h.trans (List.sublist_append_left m k')).trans (List.sublist_append_right k _)
  induction h with
  | primitive | pointer | function | noType | lastType | moreTypes | unsigned | signed | noExpr
  | noStmt | noDecl => exact List.nil_sublist _
  | literal => exact .refl _
  | group _ _ _ ih | block _ _ _ ih =>
    simp only [List.map_cons, List.map_append, List.map_nil]
    exact wrap ih [_] [_]
  | ifThen _ _ _ _ ih ih' =>
    simp only [List.map_cons, List.map_append]
    exact (ih.append (ih'.cons _)).cons _
  | ifElse _ _ _ _ _ _ ih ih' ih'' =>
    simp only [List.map_cons, List.map_append]
    exact (ih.append ((ih'.append (ih''.cons _)).cons _)).cons _
  | returned _ _ ih | yielded _ _ ih | prefixed _ _ ih => exact ih.cons _
  | binary _ _ _ ih ih' | moreExprs _ _ _ ih ih' =>
    simp only [List.map_cons, List.map_append]
    exact ih.append (ih'.cons _)
  | call _ _ _ _ ih ih' | assigned _ _ _ _ _ ih ih' =>
    simp only [List.map_cons, List.map_append, List.map_nil]
    exact ih.append (wrap ih' [_] [_])
  | lastExpr _ ih => simpa only [Node.marks, Expr.marksOfAll, List.append_nil] using ih
  | evaluated _ _ ih =>
    simp only [List.map_append]
    exact wrap ih [] _
  | declared _ ih => exact ih
  | moreStmts _ _ ih ih' | moreDecls _ _ ih ih' =>
    simp only [List.map_append]
    exact ih.append ih'
  | var _ _ _ _ _ _ _ ih =>
    simp only [List.map_append, List.map_cons, List.map_nil]
    exact ((((ih.append (.refl _)).cons _).cons _).cons _).trans (List.sublist_append_right _ _)
  | fn _ _ _ _ _ _ _ _ hps _ _ ih =>
    simp only [List.map_append, List.map_cons, List.map_nil]
    have hparams := hps.sublist.map Token.place
    exact ((((hparams.append (wrap ih [_, _] [_])).cons _).cons_cons _).cons _).trans
      (List.sublist_append_right _ _)

namespace Program

variable {T : TypeTable} {p q : Program} {S : ScopeTree} {w : List Token}

theorem Scoped.marks (h : Scoped T w p q S) :
    (q.decls.flatMap Decl.marks).Sublist (w.map Token.place) := by
  have hkept : q.decls.flatMap Decl.marks = p.decls.flatMap Decl.marks := by
    rw [← h.nodes, List.flatMap_map]
    exact List.flatMap_congr fun d _ => (Node.hereditary_keepsMarks.decl d).symm
  exact hkept ▸ h.reads.marks_sublist

theorem Scoped.ascending (h : Scoped T w p q S) (hw : w.Pairwise fun t u => t.place < u.place)
    {a : Node} (ha : a ∈ q.nodes) : a.marks.Pairwise (· < ·) := by
  obtain ⟨d, hd, had⟩ := List.mem_flatMap.mp ha
  have hnode := (Node.hereditary_embeds.decl d a had).2
  have hdecl := (List.singleton_sublist.mpr hd).flatMap Decl.marks
  rw [List.flatMap_singleton] at hdecl
  have hplaces := List.pairwise_map.mpr hw
  exact hplaces.sublist ((hnode.trans hdecl).trans h.marks)

end Program

end FrontEnd
