import Mathlib
import FrontEnd.Proofs.Scope.Checking
import FrontEnd.Proofs.Scope.Openers

/-! Places stand for syntax. The place that a name is visible from comes before a use of the name
exactly if the use stands behind the declaration in the syntax tree, or in the body of the function
that is declared. -/

namespace FrontEnd

def Decl.symbol (isGlobal : Bool) : Decl → Symbol
  | .var _ n g _ finish => ⟨.var, n.text, n.place, finish, isGlobal, g⟩
  | .fn _ n g _ _ => ⟨.fn, n.text, n.place, n.place, isGlobal, g⟩

/-- The expression stands in a statement behind the one with the number `i`. -/
def Stmt.Behind (ss : List Stmt) (i : Nat) (u : Expr) : Prop :=
  ∃ (j : Nat) (s : Stmt), i < j ∧ ss[j]? = some s ∧ .expr u ∈ s.nodes

namespace Program

/-- The scope `c` is that of a function with the body `e`, and the symbol is one of its parameters.
-/
def Parameter (q : Program) (T : TypeTable) (c : ScopeId) (a : Symbol) (e : Expr) : Prop :=
  ∃ (k : Surroundings) (site : Site) (n : Token) (g : Option TypeId) (ps : List Token) (i : Nat)
    (p : Token), ⟨k, .decl (.fn site n g ps e)⟩ ∈ q.visits ∧ k.next = c ∧ ps[i]? = some p ∧
      a = ⟨.var, p.text, p.place, p.place, false, (T.argumentsOf g)[i]?⟩

/-- The scope `c` is that of a block with the statements `ss`, and the symbol is declared by the
statement with the number `i`. -/
def Declares (q : Program) (c : ScopeId) (a : Symbol) (ss : List Stmt) (i : Nat) (d : Decl) :
    Prop :=
  ∃ (k : Surroundings) (site : ExprSite) (s : Site), ⟨k, .expr (.block site ss)⟩ ∈ q.visits ∧
    k.next = c ∧ ss[i]? = some (.decl s d) ∧ a = d.symbol false

end Program

theorem Stmt.marksOfAll_eq_flatMap (ss : List Stmt) :
    Stmt.marksOfAll ss = ss.flatMap Stmt.marks := by
  induction ss with
  | nil => rfl
  | cons s ss ih => rw [Stmt.marksOfAll, ih, List.flatMap_cons]

theorem Stmt.nodesOfAll_eq_flatMap (ss : List Stmt) :
    Stmt.nodesOfAll ss = ss.flatMap Stmt.nodes := by
  induction ss with
  | nil => rfl
  | cons s ss ih => rw [Stmt.nodesOfAll, ih, List.flatMap_cons]

theorem Decl.visibleFrom_mem_marks (d : Decl) (g : Bool) : (d.symbol g).visibleFrom ∈ d.marks := by
  cases d with
  | var => exact List.mem_append_right _ (List.mem_singleton.mpr rfl)
  | fn => exact List.mem_cons_self

theorem Expr.marks_of_name? {u : Expr} (h : u.name?.isSome) : u.marks = [u.place] := by
  cases u with
  | leaf => rfl
  | _ => exact nomatch h

theorem Node.place_mem_marks {a : Node} {u : Expr} (hembeds : a.Everywhere a.Embeds)
    (hu : .expr u ∈ a.nodes) (hname : u.name?.isSome) : u.place ∈ a.marks := by
  have hmarks := (hembeds _ hu).2.subset
  change u.marks ⊆ a.marks at hmarks
  rw [Expr.marks_of_name? hname] at hmarks
  exact hmarks (List.mem_singleton.mpr rfl)

namespace Program.Scoped

variable {T : TypeTable} {p q : Program} {S : ScopeTree} {w : List Token} {v : Visit} {u e : Expr}
  {c : ScopeId} {a : Symbol} {ss : List Stmt} {i j : Nat} {d : Decl} {s s' : Stmt} {site : ExprSite}

theorem lt_of_statements (h : Scoped T w p q S) (hw : w.Pairwise fun t u => t.place < u.place)
    (hss : .expr (.block site ss) ∈ q.nodes) (hij : i < j) (hs : ss[i]? = some s)
    (hs' : ss[j]? = some s') {x y : Position} (hx : x ∈ s.marks) (hy : y ∈ s'.marks) : x < y := by
  have hmarks : (Stmt.marksOfAll ss).Pairwise (· < ·) := h.ascending hw hss
  rw [Stmt.marksOfAll_eq_flatMap] at hmarks
  obtain ⟨hi, rfl⟩ := List.getElem?_eq_some_iff.mp hs
  obtain ⟨hj, rfl⟩ := List.getElem?_eq_some_iff.mp hs'
  exact List.pairwise_iff_getElem.mp (List.pairwise_flatMap.mp hmarks).2 i j hi hj hij x hx y hy

theorem exists_statement (h : Scoped T w p q S) (hS : S.WellFormed) (hv : v ∈ q.visits)
    (hu : v.node = .expr u) (hc : c ∈ S.chain v.around.scope) (hd : q.Declares c a ss i d) :
    ∃ (j : Nat) (s : Stmt), ss[j]? = some s ∧ .expr u ∈ s.nodes := by
  obtain ⟨k, site, s, hblock, rfl, hi, rfl⟩ := hd
  have hself : .stmt (.decl s d) ∈ Visit.inside ⟨k, .expr (.block site ss)⟩ := by
    change _ ∈ Stmt.nodesOfAll ss
    rw [Stmt.nodesOfAll_eq_flatMap]
    exact List.mem_flatMap.mpr ⟨_, List.mem_of_getElem? hi, List.mem_cons_self⟩
  have hne := h.opener_ne_root hblock hself
  obtain ⟨o, ho, hnext, hinside⟩ := h.exists_opener hS hv hc hne
  obtain rfl := h.opener_unique ho hblock hinside hself hnext
  rw [hu] at hinside
  change .expr u ∈ Stmt.nodesOfAll ss at hinside
  rw [Stmt.nodesOfAll_eq_flatMap] at hinside
  obtain ⟨s', hs', hmem⟩ := List.mem_flatMap.mp hinside
  obtain ⟨j, hj⟩ := List.getElem?_of_mem hs'
  exact ⟨j, s', hj, hmem⟩

theorem body_of_parameter (h : Scoped T w p q S) (hS : S.WellFormed) (hv : v ∈ q.visits)
    (hu : v.node = .expr u) (hc : c ∈ S.chain v.around.scope) (hp : q.Parameter T c a e) :
    .expr u ∈ e.nodes := by
  obtain ⟨k, site, n, g, ps, i, t, hfn, rfl, hi, rfl⟩ := hp
  have hself : .expr e ∈ Visit.inside ⟨k, .decl (.fn site n g ps e)⟩ := e.mem_nodes
  have hne := h.opener_ne_root hfn hself
  obtain ⟨o, ho, hnext, hinside⟩ := h.exists_opener hS hv hc hne
  obtain rfl := h.opener_unique ho hfn hinside hself hnext
  exact hu ▸ hinside

/-- Outside the root a scope has the parameters of a function or what the statements of a block
declare. -/
theorem origin_of_symbol (h : Scoped T w p q S) {n : String} {i : SymbolId}
    (hi : S.local? c n = some i) (ha : S.symbol? i = some a) (hlocal : a.isGlobal = false) :
    (∃ e, q.Parameter T c a e) ∨ ∃ ss i d, q.Declares c a ss i d := by
  obtain ⟨b, hb, -⟩ := (h.names c n i).mp hi
  have hsymbol : S.symbol? i = some b := by
    rw [ScopeTree.symbol?, ← Array.getElem?_toList, h.symbols, List.getElem?_map, hb]
    rfl
  obtain rfl := Option.some.inj (ha.symm.trans hsymbol)
  obtain ⟨⟨k, node⟩, hv, hbinds⟩ := List.mem_flatMap.mp (List.mem_of_getElem? hb)
  -- a declaration in the root, outside all functions, binds something global
  have hdeclares {d : Decl} (hd : node = .decl d) (hk : k.isGlobal = false) :
      ∃ ss i, q.Declares k.scope (d.symbol k.isGlobal) ss i d := by
    rcases Decl.around_visitsAll .program q.decls _ hv with ⟨⟨o, _⟩, ho, hov⟩ | ⟨-, hroot, -⟩
    · obtain ⟨site, ss, s, rfl, hmem⟩ := hov.lists d hd
      obtain ⟨i, hi⟩ := List.getElem?_of_mem hmem
      exact ⟨ss, i, o, site, s, ho, hov.next, hi, by rw [hk]⟩
    · change k.function = none at hroot
      rw [Surroundings.isGlobal, hroot] at hk
      cases hk
  cases node with
  | decl d =>
    cases d with
    | var site m g e finish =>
      obtain ⟨rfl, rfl⟩ := Prod.mk.inj (List.mem_singleton.mp hbinds)
      obtain ⟨ss, i, hd⟩ := hdeclares rfl hlocal
      exact .inr ⟨ss, i, _, hd⟩
    | fn site m g ps e =>
      rcases List.mem_cons.mp hbinds with hname | hparam
      · obtain ⟨rfl, rfl⟩ := Prod.mk.inj hname
        obtain ⟨ss, i, hd⟩ := hdeclares rfl hlocal
        exact .inr ⟨ss, i, _, hd⟩
      · obtain ⟨j, hj, heq⟩ := List.mem_mapIdx.mp hparam
        obtain ⟨rfl, rfl⟩ := Prod.mk.inj heq
        exact .inl ⟨e, k, site, m, g, ps, j, ps[j], hv, rfl, List.getElem?_eq_getElem hj, rfl⟩
  | _ => cases hbinds

theorem lt_of_parameter (h : Scoped T w p q S) (hw : w.Pairwise fun t u => t.place < u.place)
    (hp : q.Parameter T c a e) (hu : .expr u ∈ e.nodes) (hname : u.name?.isSome) :
    a.visibleFrom < u.place := by
  obtain ⟨k, site, n, g, ps, i, t, hfn, -, hi, rfl⟩ := hp
  have hplace := Node.place_mem_marks (Node.hereditary_embeds.expr e) hu hname
  have hascending := h.ascending hw (q.map_node_visits ▸ List.mem_map_of_mem hfn)
  obtain ⟨-, hbody⟩ := List.pairwise_cons.mp hascending
  exact (List.pairwise_append.mp hbody).2.2 _
    (List.mem_map_of_mem (List.mem_of_getElem? hi)) _ hplace

theorem ascending_of_declares (h : Scoped T w p q S)
    (hw : w.Pairwise fun t u => t.place < u.place) (hd : q.Declares c a ss i d) :
    d.marks.Pairwise (· < ·) := by
  obtain ⟨k, site, s, hblock, -, hi, -⟩ := hd
  have hascending := h.ascending hw (q.map_node_visits ▸ List.mem_map_of_mem hblock)
  have hmem : .decl d ∈ Stmt.nodesOfAll ss := by
    rw [Stmt.nodesOfAll_eq_flatMap]
    refine List.mem_flatMap.mpr ⟨_, List.mem_of_getElem? hi, List.mem_cons_of_mem _ ?_⟩
    cases d <;> simp [Decl.nodes]
  exact hascending.sublist (Node.hereditary_embeds.stmts ss _ hmem).2

theorem lt_of_body {site : Site} {n : Token} {g : Option TypeId} {ps : List Token}
    (h : Scoped T w p q S) (hw : w.Pairwise fun t u => t.place < u.place)
    (hd : q.Declares c a ss i (.fn site n g ps e)) (hu : .expr u ∈ e.nodes)
    (hname : u.name?.isSome) : a.visibleFrom < u.place := by
  have hplace := Node.place_mem_marks (Node.hereditary_embeds.expr e) hu hname
  obtain ⟨hfirst, -⟩ := List.pairwise_cons.mp (h.ascending_of_declares hw hd)
  obtain ⟨_, _, _, -, -, -, rfl⟩ := hd
  exact hfirst _ (List.mem_append_right _ hplace)

theorem lt_of_initial {site : Site} {n : Token} {g : Option TypeId} {f : Position}
    (h : Scoped T w p q S) (hw : w.Pairwise fun t u => t.place < u.place)
    (hd : q.Declares c a ss i (.var site n g e f)) (hu : .expr u ∈ e.nodes)
    (hname : u.name?.isSome) : u.place < a.visibleFrom := by
  have hplace := Node.place_mem_marks (Node.hereditary_embeds.expr e) hu hname
  obtain ⟨-, -, hlast⟩ := List.pairwise_append.mp (h.ascending_of_declares hw hd)
  obtain ⟨_, _, _, -, -, -, rfl⟩ := hd
  exact hlast _ hplace _ (List.mem_singleton.mpr rfl)

theorem lt_of_behind (h : Scoped T w p q S) (hw : w.Pairwise fun t u => t.place < u.place)
    (hd : q.Declares c a ss i d) (hu : Stmt.Behind ss i u) (hname : u.name?.isSome) :
    a.visibleFrom < u.place := by
  obtain ⟨k, site, s, hblock, -, hi, rfl⟩ := hd
  obtain ⟨j, s', hij, hj, hmem⟩ := hu
  have hplace := Node.place_mem_marks (Node.hereditary_embeds.stmt s') hmem hname
  have hnode := q.map_node_visits ▸ List.mem_map_of_mem hblock
  exact h.lt_of_statements hw hnode hij hi hj (d.visibleFrom_mem_marks false) hplace

/-- A name that stands behind the place a declared symbol is visible from stands behind the
declaration, or in the body of the function that is declared. -/
theorem behind_of_lt (h : Scoped T w p q S) (hw : w.Pairwise fun t u => t.place < u.place)
    (hd : q.Declares c a ss i d) (hj : ss[j]? = some s) (hu : .expr u ∈ s.nodes)
    (hname : u.name?.isSome) (hlt : a.visibleFrom < u.place) :
    Stmt.Behind ss i u ∨ ∃ site n g ps e, d = .fn site n g ps e ∧ .expr u ∈ e.nodes := by
  have hdeclares := hd
  obtain ⟨k, site, s', hblock, -, hi, rfl⟩ := hd
  rcases Nat.lt_trichotomy i j with hij | rfl | hij
  · exact .inl ⟨j, s, hij, hj, hu⟩
  · obtain rfl := Option.some.inj (hi.symm.trans hj)
    simp only [Stmt.nodes, List.mem_cons, reduceCtorEq, false_or] at hu
    cases d with
    | var =>
      simp only [Decl.nodes, List.mem_append, List.mem_singleton, reduceCtorEq, or_false] at hu
      exact absurd hlt (Position.lt_asymm (h.lt_of_initial hw hdeclares hu hname))
    | fn =>
      simp only [Decl.nodes, List.mem_cons, reduceCtorEq, false_or] at hu
      exact .inr ⟨_, _, _, _, _, rfl, hu⟩
  · have hnode := q.map_node_visits ▸ List.mem_map_of_mem hblock
    have hplace := Node.place_mem_marks (Node.hereditary_embeds.stmt s) hu hname
    have hbefore := h.lt_of_statements hw hnode hij hj hi hplace (d.visibleFrom_mem_marks false)
    exact absurd hlt (Position.lt_asymm hbefore)

end Program.Scoped

namespace Program

variable {source : String} {T₀ T : TypeTable} {p q : Program} {S : ScopeTree} {c d : ScopeId}
  {n : String} {s : SymbolId} {a : Symbol} {u : Expr}

/-- Whether a name stands behind the place that a symbol is visible from, told from the syntax tree:
the symbol is a parameter, or it is declared by an earlier statement of a block around the name, or
it is a function and the name stands in its body. -/
theorem visibleFrom_lt_place_iff (hp : parse source T₀ = (.ok p, T))
    (hq : p.buildScopes T .empty = (q, { tree := S })) (hs : S.local? c n = some s)
    (ha : S.symbol? s = some a) (hlocal : a.isGlobal = false) (hu : .expr u ∈ q.nodes)
    (hname : u.name?.isSome) (hd : u.scope = some d) (hc : c ∈ S.chain d) :
    (a.visibleFrom < u.place ↔
      (∃ e, q.Parameter T c a e) ∨
      (∃ ss i site name g e f, q.Declares c a ss i (.var site name g e f) ∧ Stmt.Behind ss i u) ∨
      ∃ ss i site name g ps e, q.Declares c a ss i (.fn site name g ps e) ∧
        (.expr u ∈ e.nodes ∨ Stmt.Behind ss i u)) ∧
    ∀ e, q.Parameter T c a e → .expr u ∈ e.nodes := by
  have hscoped := scoped_of_parse hp hq
  have hw := pairwise_place_tokenize source
  obtain ⟨_, hrooted⟩ := exists_rooted hscoped.reads hq
  have hS := hrooted.wellFormed
  obtain ⟨⟨k, _⟩, hv, rfl⟩ := exists_visit hu
  obtain rfl : d = k.scope := Option.some.inj (hd.symm.trans (hscoped.inPlace _ hv))
  have hbody e (he : q.Parameter T c a e) : .expr u ∈ e.nodes :=
    hscoped.body_of_parameter hS hv rfl hc he
  refine ⟨⟨fun hlt => ?_, ?_⟩, hbody⟩
  · rcases hscoped.origin_of_symbol hs ha hlocal with hparam | ⟨ss, i, b, hb⟩
    · exact .inl hparam
    obtain ⟨j, st, hj, hmem⟩ := hscoped.exists_statement hS hv rfl hc hb
    rcases hscoped.behind_of_lt hw hb hj hmem hname hlt with hbehind | ⟨_, _, _, _, _, rfl, hmem⟩
    · cases b with
      | var => exact .inr (.inl ⟨_, _, _, _, _, _, _, hb, hbehind⟩)
      | fn => exact .inr (.inr ⟨_, _, _, _, _, _, _, hb, .inr hbehind⟩)
    · exact .inr (.inr ⟨_, _, _, _, _, _, _, hb, .inl hmem⟩)
  · rintro (⟨e, he⟩ | ⟨_, _, _, _, _, _, _, hb, hbehind⟩ | ⟨_, _, _, _, _, _, _, hb, hmem | hbehind⟩)
    · exact hscoped.lt_of_parameter hw he (hbody e he) hname
    · exact hscoped.lt_of_behind hw hb hbehind hname
    · exact hscoped.lt_of_body hw hb hmem hname
    · exact hscoped.lt_of_behind hw hb hbehind hname

/-- A name in a function that stands in a block of another function. -/
theorem visibleFrom_lt_place_of_nested :
    ∃ p T q S s a u, parse "of [Int] -> Int fun f(a) = { var b = a; of [] -> Int fun g() = b; g(); };"
        .initial = (.ok p, T) ∧ p.buildScopes T .empty = (q, { tree := S }) ∧
      S.local? ⟨2⟩ "b" = some s ∧ S.symbol? s = some a ∧ a.isGlobal = false ∧ .expr u ∈ q.nodes ∧
      u.name?.isSome ∧ u.scope = some ⟨3⟩ ∧ ⟨2⟩ ∈ S.chain ⟨3⟩ ∧
      (a.visibleFrom < u.place ↔
        (∃ e, q.Parameter T ⟨2⟩ a e) ∨
        (∃ ss i site name g e f, q.Declares ⟨2⟩ a ss i (.var site name g e f) ∧
          Stmt.Behind ss i u) ∨
        ∃ ss i site name g ps e, q.Declares ⟨2⟩ a ss i (.fn site name g ps e) ∧
          (.expr u ∈ e.nodes ∨ Stmt.Behind ss i u)) := by
  have h : match parse "of [Int] -> Int fun f(a) = { var b = a; of [] -> Int fun g() = b; g(); };"
        .initial with
    | (.ok p, T) =>
      (p.buildScopes T .empty).2.failure.isNone &&
        (((p.buildScopes T .empty).2.tree.local? ⟨2⟩ "b").bind
          (p.buildScopes T .empty).2.tree.symbol?).any (!·.isGlobal) &&
        ((p.buildScopes T .empty).1.nodes.any fun
          | .expr e => e.name?.isSome && e.scope == some ⟨3⟩
          | _ => false) &&
        ((p.buildScopes T .empty).2.tree.chain ⟨3⟩).contains ⟨2⟩
    | _ => false := by cbv
  split at h
  next p T hp =>
    simp only [Bool.and_eq_true, Option.isNone_iff_eq_none, Option.any_eq_true, List.any_eq_true,
      Bool.not_eq_true', Option.bind_eq_some_iff, List.contains_iff_mem] at h
    obtain ⟨⟨⟨hfailure, a, ⟨s, hs, ha⟩, hlocal⟩, b, hb, hu⟩, hc⟩ := h
    have hq := buildScopes_of_failure hfailure
    split at hu
    next u =>
      obtain ⟨hname, hscope⟩ := Bool.and_eq_true_iff.mp hu
      have hscope : u.scope = some ⟨3⟩ := beq_iff_eq.mp hscope
      exact ⟨p, T, _, _, s, a, u, hp, hq, hs, ha, hlocal, hb, hname, hscope, hc,
        (visibleFrom_lt_place_iff hp hq hs ha hlocal hb hname hscope hc).1⟩
    next => cases hu
  next => cases h

end Program

end FrontEnd
