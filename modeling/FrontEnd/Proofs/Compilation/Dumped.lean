import FrontEnd.Proofs.Compilation.Consistent
import FrontEnd.Proofs.Compilation.Renamed
import FrontEnd.Proofs.Syntax.Sources
import FrontEnd.Proofs.Syntax.Telling

/-! The text of programs, as they are read and as they are compiled. It tells everything about them
but places, scopes and the numbers of types. -/

namespace FrontEnd

variable {T T' : TypeTable} {p p' : Program}

/-- The program and the table of its types come from a source that was read or compiled. -/
inductive Program.Obtained (p : Program) (T : TypeTable) : Prop where
  | parsed {source : String} {T₀ : TypeTable} (hT : T₀.Reachable)
      (h : parse source T₀ = (.ok p, T))
  | compiled {source : String} {S : ScopeTree} (h : compile source = .ok ⟨p, T, S⟩)

namespace Node

variable {M : NodeMap} {a : Node}

theorem worded_of_plain {e : Expr} (h : e.token? = none) : Worded (expr e) := by
  refine ⟨?_, by simp [h]⟩
  cases e <;> simp [Expr.token?, Expr.heading] at h ⊢

theorem worded_of_token {e : Expr} {k : Token} (he : e.heading ≠ .leaf .access)
    (h : e.token? = some k) (hk : k.IsLegible) : Worded (expr e) := by
  refine ⟨he, fun k' hk' => ?_⟩
  obtain rfl := Option.some.inj (h.symm.trans hk')
  exact hk

theorem Writable.worded (h : Node.Writable T a) : a.Everywhere Worded := by
  induction h with
  | literal ht =>
    exact everywhere_leaf.mpr (worded_of_token nofun rfl (Word.Legible.literal (T := T) ht))
  | binary hk hp _ _ iha ihb =>
    exact everywhere_binary.mpr
      ⟨worded_of_token nofun rfl (legible_operator (T := T) hk hp), iha, ihb⟩
  | unary hk hp _ iha =>
    exact everywhere_unary.mpr
      ⟨worded_of_token nofun rfl (legible_prefixOperator (T := T) hk hp), iha⟩
  | call _ _ ihf ihas => exact everywhere_call.mpr ⟨worded_of_plain rfl, ihf, ihas⟩
  | block _ ih => exact everywhere_block.mpr ⟨worded_of_plain rfl, ih⟩
  | ifThen _ _ ihc iha => exact everywhere_ifThen.mpr ⟨worded_of_plain rfl, ihc, iha⟩
  | ifElse _ _ _ ihc iha ihb => exact everywhere_ifElse.mpr ⟨worded_of_plain rfl, ihc, iha, ihb⟩
  | result _ ih => exact everywhere_result.mpr ⟨worded_of_plain rfl, ih⟩
  | noExpr => exact everywhere_noExpr
  | moreExprs _ _ ih ihs => exact everywhere_moreExprs.mpr ⟨ih, ihs⟩
  | evaluated _ ih => exact everywhere_evaluated.mpr ⟨trivial, ih⟩
  | @assigned p q n e hn _ ih =>
    have hl : (expr (.leaf (Rule.exprSite q) .literal n)).Everywhere Worded :=
      everywhere_leaf.mpr (worded_of_token nofun rfl hn.isLegible)
    exact everywhere_assigned.mpr ⟨trivial, hl, ih⟩
  | declared _ ih => exact everywhere_declared.mpr ⟨trivial, ih⟩
  | noStmt => exact everywhere_noStmt
  | moreStmts _ _ ih ihs => exact everywhere_moreStmts.mpr ⟨ih, ihs⟩
  | var hn _ _ ih => exact everywhere_var.mpr ⟨hn, ih⟩
  | fn hn _ hps _ ih => exact everywhere_fn.mpr ⟨⟨hn, hps⟩, ih⟩
  | noDecl => exact everywhere_noDecl
  | moreDecls _ _ ih ihs => exact everywhere_moreDecls.mpr ⟨ih, ihs⟩

theorem worded_map (htoken : M.token = id) : Worded (a.map M) ↔ Worded a := by
  cases a with
  | expr e => cases e <;> simp [Node.map, Expr.map, Worded, Expr.heading, Expr.token?, htoken]
  | decl d => cases d <;> simp [Node.map, Decl.map, Worded, htoken]
  | _ => exact Iff.rfl

theorem everywhere_worded_map (htoken : M.token = id) {ds : List Decl} :
    ((decls ds).map M).Everywhere Worded ↔ (decls ds).Everywhere Worded := by
  simp only [everywhere_map_decls, worded_map htoken]

end Node

namespace Program

theorem worded_of_scoped {w : List Token} {q : Program} {S : ScopeTree} (h : p.Scoped T w q S)
    (hp : (Node.decls p.decls).Everywhere Node.Worded) :
    (Node.decls q.decls).Everywhere Node.Worded := by
  have hq : (Node.decls q.decls).map .unstamped = .decls p.decls := by
    rw [← Node.unstamped_decls, Node.unstamped, h.nodes]
  rw [← hq] at hp
  exact (Node.everywhere_worded_map rfl).mp hp

theorem worded_annotate {S : ScopeTree} (hp : (Node.decls p.decls).Everywhere Node.Worded) :
    (Node.decls (p.annotate S T).1.decls).Everywhere Node.Worded := by
  have huntyped : ((p.annotate S T).1.decls.map (Decl.map .untyped)) =
      p.decls.map (Decl.map .untyped) := congrArg Program.decls (p.untyped_annotate S T)
  have hiff (ds : List Decl) : (Node.decls (ds.map (Decl.map .untyped))).Everywhere Node.Worded ↔
      (Node.decls ds).Everywhere Node.Worded := Node.everywhere_worded_map (M := .untyped) rfl
  rw [← hiff, huntyped]
  exact (hiff _).mpr hp

/-- A program that was read or compiled has nothing in it that its text could not tell. -/
theorem Obtained.told (h : p.Obtained T) :
    T.Reachable ∧ (Node.decls p.decls).Everywhere (Node.Told T) := by
  cases h with
  | parsed hT h =>
    obtain ⟨-, hreads, -, hreachable⟩ := reads_of_parse h
    have hwords := (writable_of_parse hT h).decls.worded
    exact ⟨hreachable hT, fun a ha => ⟨hwords a ha,
      (hreads.refers (hreachable hT) a ha).imp fun _ _ => trivial⟩⟩
  | @compiled source S h =>
    obtain ⟨p₀, hparse, hanalyse⟩ := exists_parse_of_compile h
    obtain ⟨-, hreads, -, hreachable⟩ := reads_of_parse hparse
    have hT := hreachable .initial
    obtain ⟨ds, r, hpasses⟩ := exists_passes hanalyse
    have hscoped := hpasses.scoped hreads
    have hprogram : p = _ := hpasses.program_eq hanalyse
    have hwords := (writable_of_parse .initial hparse).decls.worded
    obtain ⟨root, -, hleads⟩ := leads_of_parse hparse
    rw [buildScopes_eq hpasses.stamped] at hleads
    have hrefers := refers_of_annotate hT hleads.ready.closed
      (refers_of_scoped hscoped hleads.nodes)
    rw [hprogram]
    refine ⟨hT, fun a ha => ⟨worded_annotate (worded_of_scoped hscoped hwords) a ha,
      (hrefers a ha).imp fun _ _ => trivial⟩⟩

/-- Programs that were read or compiled are dumped as the same text just if they are the same trees
of the same tokens, with signatures and types that are structurally equal; only places, scopes and
the numbers of types may differ. -/
theorem dump_eq_iff_same_tree (h : p.Obtained T) (h' : p'.Obtained T') :
    p.dump T = p'.dump T' ↔
      p.unstamped.Like (fun _ _ => True) (T.Matches T') p'.unstamped := by
  obtain ⟨hT, hp⟩ := h.told
  obtain ⟨hT', hp'⟩ := h'.told
  exact dump_eq_iff hT hT' hp hp'

/-- The same program in another layout, whose pointer type has another number. -/
theorem dump_eq_iff_same_tree_of_pointer : ∃ p T p' T',
    parse "of *Int var x = \"a\n\tb\";" .initial = (.ok p, T) ∧
      parse "of * Int\nvar x = \"a\n\tb\" ;" (TypeTable.initial.pointer TypeTable.string).2 =
        (.ok p', T') ∧
      p.decls.map Decl.signature = [some ⟨4⟩] ∧ p'.decls.map Decl.signature = [some ⟨5⟩] ∧
      p.unstamped.Like (fun _ _ => True) (T.Matches T') p'.unstamped := by
  have reads {source : String} {U : TypeTable} {t : TypeId}
      (h : match parse source U with
        | (.ok p, T) => ∃ d n s k e, p.decls = [.var d n (some t) (.leaf s .literal k) e] ∧
          n.text = "x" ∧ T.shown t = "*Int" ∧ s.type = none ∧ k.shown = "\"a\n\tb\""
        | (.error _, _) => False) :
      ∃ p T, parse source U = (.ok p, T) ∧ p.decls.map Decl.signature = [some t] ∧
        p.outline T = [⟨0, "Program"⟩, ⟨1, "Variable declaration: x"⟩, ⟨2, "Signature: *Int"⟩,
          ⟨2, "Initializer:"⟩, ⟨3, "Literal expression: \"a\n\tb\""⟩] := by
    split at h
    next p T hparse =>
      obtain ⟨d, n, s, k, e, hdecls, hn, ht, hs, hk⟩ := h
      have htitle : LeafForm.literal.title k = "Literal expression: \"a\n\tb\"" :=
        congrArg ("Literal expression: " ++ ·) hk
      refine ⟨p, T, hparse, by rw [hdecls]; rfl, ?_⟩
      simp [outline, hdecls, Decl.outline, Expr.outline, ExprSite.line, signatureLines, htitle, hn,
        ht, hs]
    next => exact h.elim
  let U := (TypeTable.initial.pointer TypeTable.string).2
  have hU : U.Reachable := .pointer .initial (by decide)
  obtain ⟨p, T, hp, hsig, hlines⟩ := @reads "of *Int var x = \"a\n\tb\";" .initial ⟨4⟩ (by
    cbv
    exact ⟨_, _, _, _, _, rfl, rfl, rfl, rfl, rfl⟩)
  obtain ⟨p', T', hp', hsig', hlines'⟩ := @reads "of * Int\nvar x = \"a\n\tb\" ;" U ⟨5⟩ (by
    cbv
    exact ⟨_, _, _, _, _, rfl, rfl, rfl, rfl, rfl⟩)
  have hdump : p.dump T = p'.dump T' := by rw [dump, dump, hlines, hlines']
  exact ⟨p, T, p', T', hp, hp', hsig, hsig',
    (dump_eq_iff_same_tree (.parsed .initial hp) (.parsed hU hp')).mp hdump⟩

end Program

end FrontEnd
