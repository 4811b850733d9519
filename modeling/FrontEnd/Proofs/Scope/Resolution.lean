import FrontEnd.Proofs.Grammar.Soundness
import FrontEnd.Proofs.Scope.Checking
import FrontEnd.Proofs.Scope.Stamped
import Mathlib

/-! Checking the definitions of a program. -/

namespace FrontEnd

open ScopeTree

theorem Placed.decl_of_mem {F : ScopeTree} {T : TypeTable} {c : ScopeId} {g : Bool}
    {w : List Token} {a : Node} (h : Placed F T c g w a) {ds : List Decl} (ha : a = .decls ds) :
    ∀ d ∈ ds, ∃ v, v.Sublist w ∧ Placed F T c g v (.decl d) := by
  induction h generalizing ds with
  | among hw _ ih =>
    intro d hd
    obtain ⟨v, hv, hplaced⟩ := ih ha d hd
    exact ⟨v, hv.trans hw, hplaced⟩
  | noDecl =>
    obtain rfl := Node.decls.inj ha
    exact fun d hd => nomatch hd
  | moreDecls h _ _ ih =>
    obtain rfl := Node.decls.inj ha
    intro d hd
    rcases List.mem_cons.mp hd with rfl | hd
    · exact ⟨_, List.sublist_append_left _ _, h⟩
    · obtain ⟨v, hv, hplaced⟩ := ih rfl d hd
      exact ⟨v, hv.trans (List.sublist_append_right _ _), hplaced⟩
  | _ => exact nomatch ha

namespace Program

variable {T T₀ : TypeTable} {S : ScopeTree} {w : List Token} {p q : Program} {c : ScopeId}

theorem Rooted.checkDefinitions_iff (h : q.Rooted S T w c)
    (hw : w.Pairwise fun t u => t.place < u.place) :
    q.checkDefinitions S = .ok () ↔ q.Resolves true := by
  let names := q.decls.map fun d => d.name.text
  have hroot : S.Sees [] c true w [] names := by
    refine sees_nil.mpr fun t _ n => (shows_root h.root).trans ⟨fun hv => ?_, fun hn => ?_⟩
    · refine Decidable.byContradiction fun hn => ?_
      rw [visible?_eq_none_of_local? (h.names hn)] at hv
      exact nomatch hv
    · exact (h.placed.declares n hn).visible_of_global
  rw [checkDefinitions, forM_eq_ok]
  refine forall₂_congr fun d hd => ?_
  obtain ⟨v, hv, hplaced⟩ := h.placed.decl_of_mem rfl d hd
  have hsees : S.Sees [] c true v [d.name.text] names := sees_global.mpr (hroot.mono hv.subset)
  rw [Decl.resolvesInRoot_true]
  exact hplaced.found_iff h.wellFormed (hw.sublist hv) [] names (fun s hs => nomatch hs) hsees

/-- Names are found by the rules of lexical scope, with one exception: a block in the initial value
of a variable of the root hoists its names as if it were the root. -/
theorem checkDefinitions_ok_iff_resolves {source : String}
    (hp : parse source T₀ = (.ok p, T)) (hq : p.buildScopes T .empty = (q, { tree := S })) :
    (q.checkDefinitions S = .ok () ↔ q.Resolves true) ∧
      (q.InitialsPlain → (q.checkDefinitions S = .ok () ↔ q.Resolves false)) := by
  obtain ⟨_, hreads, _, _⟩ := reads_of_parse hp
  obtain ⟨c, hrooted⟩ := exists_rooted hreads hq
  have hiff := hrooted.checkDefinitions_iff (pairwise_place_tokenize source)
  exact ⟨hiff, fun hplain => hiff.trans (resolves_iff_of_initialsPlain hplain)⟩

/-- In a function an initial value can use what is further out under the name of the variable. -/
theorem resolves_of_shadowed_initial :
    ∃ p T q S,
      parse "var x = 1; of [] -> Int fun f() = { var x = x; x; };" .initial = (.ok p, T) ∧
        p.buildScopes T .empty = (q, { tree := S }) ∧ q.InitialsPlain ∧
          q.Resolves true ∧ q.Resolves false := by
  have h : match parse "var x = 1; of [] -> Int fun f() = { var x = x; x; };" .initial with
    | (.ok p, T) => (p.buildScopes T .empty).2.failure = none ∧
        (p.buildScopes T .empty).1.InitialsPlain ∧
          (p.buildScopes T .empty).1.checkDefinitions (p.buildScopes T .empty).2.tree = .ok ()
    | _ => False := by
    cbv
    simp [Decl.InitialPlain, Expr.NoneDeclare, Expr.exprs]
  split at h
  next p T hp =>
    obtain ⟨hscopes, hplain, hok⟩ := h
    have hq := buildScopes_of_failure hscopes
    have hiff := checkDefinitions_ok_iff_resolves hp hq
    exact ⟨p, T, _, _, hp, hq, hplain, hiff.1.mp hok, (hiff.2 hplain).mp hok⟩
  next => exact h.elim

/-- In a block outside all functions it cannot. -/
theorem checkDefinitions_error_of_hoisted_initial :
    ∃ p T q S, parse "var x = 1; var a = { var x = x; x; };" .initial = (.ok p, T) ∧
      p.buildScopes T .empty = (q, { tree := S }) ∧ q.Resolves false ∧
        q.checkDefinitions S = .error ⟨.undefinedSymbol "x", ⟨29, 0, 29⟩⟩ := by
  have h : match parse "var x = 1; var a = { var x = x; x; };" .initial with
    | (.ok p, T) => (p.buildScopes T .empty).2.failure = none ∧
        (p.buildScopes T .empty).1.Resolves false ∧
          (p.buildScopes T .empty).1.checkDefinitions (p.buildScopes T .empty).2.tree =
            .error ⟨.undefinedSymbol "x", ⟨29, 0, 29⟩⟩
    | _ => False := by
    cbv
    simp [Decl.ResolvesInRoot, Decl.Resolves, Stmt.AllResolve, Stmt.Resolves, Stmt.declared,
      Expr.Resolves, Expr.name?, Decl.name, Token.text]
  split at h
  next p T hp =>
    obtain ⟨hscopes, hresolves, herror⟩ := h
    exact ⟨p, T, _, _, hp, buildScopes_of_failure hscopes, hresolves, herror⟩
  next => exact h.elim

end Program

end FrontEnd
