import FrontEnd.Proofs.Scope.Bindings

/-! The first name bound twice in one scope. The symbols of a program are bound in their order until
one clashes with a symbol before it; that one is reported, and it is the only thing that can stop
the work. -/

namespace FrontEnd

/-- The symbol `b` is the first of the symbols `bs` that clashes with one before it. -/
def FirstClash (bs : List (ScopeId × Symbol)) (b : ScopeId × Symbol) : Prop :=
  ∃ front rest, bs = front ++ b :: rest ∧ front.Pairwise (fun a a' => ¬ Clash a a') ∧
    ∃ a ∈ front, Clash a b

namespace FirstClash

variable {bs cs : List (ScopeId × Symbol)} {b : ScopeId × Symbol}

theorem append (h : FirstClash bs b) (cs : List (ScopeId × Symbol)) : FirstClash (bs ++ cs) b := by
  obtain ⟨front, rest, rfl, hfront, hclash⟩ := h
  exact ⟨front, rest ++ cs, by rw [List.append_assoc, List.cons_append], hfront, hclash⟩

theorem not_pairwise (h : FirstClash bs b) : ¬ bs.Pairwise fun a a' => ¬ Clash a a' := by
  obtain ⟨front, rest, rfl, -, a, ha, hclash⟩ := h
  exact fun hbs => (List.pairwise_append.mp hbs).2.2 a ha b List.mem_cons_self hclash

end FirstClash

theorem ScopeTree.local?_push_of_le {S : ScopeTree} {place : Position} {parent : Option ScopeId}
    {c : ScopeId} (h : S.scopes.size ≤ c.index) (x : String) :
    (S.push place parent).2.local? c x = none := by
  by_cases hc : c = (S.push place parent).1
  · rw [hc, local?_push_self]
  · rw [local?_push_of_ne hc, local?, scope?, Array.getElem?_eq_none h]
    rfl

/-- A new scope has the names of the symbols that were bound in it and no others. -/
theorem ScopeTree.Gains.exists_local?_iff {S S' : ScopeTree}
    {os : List (ScopeId × Position × Option ScopeId)} {bs : List (ScopeId × Symbol)}
    (h : S.Gains S' os bs) {c : ScopeId} {a : Symbol} (hnew : S.local? c a.name = none) :
    (∃ s, S'.local? c a.name = some s) ↔ ∃ b ∈ bs, Clash b (c, a) := by
  simp only [h.names, hnew, List.mem_iff_getElem?]
  constructor
  · rintro ⟨s, hs | ⟨j, b, -, hb, hname⟩⟩
    · cases hs
    · exact ⟨_, ⟨j, hb⟩, rfl, hname⟩
  · rintro ⟨⟨_, b⟩, ⟨j, hb⟩, rfl, hname⟩
    exact ⟨⟨S.symbols.size + j⟩, .inr ⟨j, b, rfl, hb, hname⟩⟩

namespace Stamping

/-- From `r` on the symbols `bs` were bound in their order and ended in `r'`. Scopes may have been
opened in between. -/
inductive Binds (r : Stamping) : List (ScopeId × Symbol) → Stamping → Prop
  | start : Binds r [] r
  | opening {r' : Stamping} {bs : List (ScopeId × Symbol)} (place : Position) (c : ScopeId) :
      Binds r bs r' → Binds r bs (r'.openScope place c).2
  | binding {r' : Stamping} {bs : List (ScopeId × Symbol)} {c : ScopeId} (a : Symbol)
      (hc : r'.failure = none → r'.tree.Holds c) : Binds r bs r' →
      Binds r (bs ++ [(c, a)]) (r'.declare c a)

variable {T : TypeTable} {k : Surroundings} {r r' r'' : Stamping} {n m : Nat}
  {vs us : List Visit} {bs cs : List (ScopeId × Symbol)}

theorem size_declareParams (c : ScopeId) (ps : List Token) (ts : List TypeId) (r : Stamping) :
    (declareParams c ps ts r).tree.scopes.size = r.tree.scopes.size := by
  induction ps generalizing ts r with
  | nil => rfl
  | cons p ps ih => rw [declareParams, ih, size_declare]

namespace Binds

theorem trans (h : r.Binds bs r') (h' : r'.Binds cs r'') : r.Binds (bs ++ cs) r'' := by
  induction h' with
  | start => rwa [List.append_nil]
  | opening place c _ ih => exact ih.opening place c
  | binding a hc _ ih =>
    rw [← List.append_assoc]
    exact ih.binding a hc

theorem stopped {why : Diagnostic} (h : r.failure = some why) (bs : List (ScopeId × Symbol)) :
    r.Binds bs r := by
  induction bs using List.reverseRecOn with
  | nil => exact .start
  | append_singleton bs b ih =>
    have hb := ih.binding (c := b.1) b.2 fun hnone => nomatch h.symm.trans hnone
    rwa [declare_of_stopped h] at hb

theorem declareParams {c : ScopeId} (ps : List Token) (ts : List TypeId)
    (hc : r.failure = none → r.tree.Holds c) :
    r.Binds (ps.mapIdx fun i p => (c, ⟨.var, p.text, p.place, p.place, false, ts[i]?⟩))
      (declareParams c ps ts r) := by
  induction ps generalizing ts r with
  | nil => exact .start
  | cons p ps ih =>
    have hp := Binds.start.binding ⟨.var, p.text, p.place, p.place, false, ts.head?⟩ hc
    have hps := ih (r := r.declare c ⟨.var, p.text, p.place, p.place, false, ts.head?⟩) ts.tail
      fun hnone => Nat.lt_of_lt_of_eq (hc (of_declare hnone).1) (size_declare _ _ _).symm
    have hboth := hp.trans hps
    rw [List.mapIdx_cons]
    simpa [Stamping.declareParams, List.head?_eq_getElem?] using hboth

/-- All symbols are bound if none of them clash, and the first that clashes is reported else. -/
theorem outcome (h : r.Binds bs r') (hr : r.failure = none)
    (hfresh : ∀ b ∈ bs, ∀ x, r.tree.local? b.1 x = none) :
    (r'.failure = none ∧ (bs.Pairwise fun a a' => ¬ Clash a a') ∧
      ∃ os, r.tree.Gains r'.tree os bs) ∨
    ∃ b, FirstClash bs b ∧ r'.failure = some ⟨.redefinition b.2.name, b.2.place⟩ := by
  induction h with
  | start => exact .inl ⟨hr, .nil, [], .refl _⟩
  | @opening r' bs place c _ ih =>
    refine (ih hfresh).imp_left ?_
    rintro ⟨hnone, hbs, os, hgains⟩
    have hpush := hgains.trans (.of_push r'.tree place (some c))
    rw [List.append_nil] at hpush
    exact ⟨hnone, hbs, _, hpush⟩
  | @binding r' bs c a hc _ ih =>
    obtain ⟨hold, hnew⟩ := List.forall_mem_append.mp hfresh
    have hnew := hnew _ List.mem_cons_self
    rcases ih hold with ⟨hnone, hbs, os, hgains⟩ | ⟨b, hb, hfail⟩
    · have hbound := hgains.exists_local?_iff (hnew a.name)
      cases hlocal : r'.tree.local? c a.name with
      | some s =>
        obtain ⟨b, hb, hclash⟩ := hbound.mp ⟨s, hlocal⟩
        refine .inr ⟨(c, a), ⟨bs, [], rfl, hbs, b, hb, hclash⟩, ?_⟩
        rw [declare_of_taken hnone (ScopeTree.bind_eq_error.mpr hlocal)]
      | none =>
        obtain ⟨S, hbind⟩ := ScopeTree.exists_bind hlocal
        have hfree : (r'.declare c a).failure = none := by rwa [declare_of_bind hnone hbind]
        refine .inl ⟨hfree, ?_, _, hgains.trans (gains_declare (hc hnone) hfree)⟩
        rw [List.pairwise_append]
        refine ⟨hbs, List.pairwise_singleton _ _, fun b hb b' hb' hclash => ?_⟩
        rw [List.mem_singleton.mp hb'] at hclash
        obtain ⟨s, hs⟩ := hbound.mpr ⟨b, hb, hclash⟩
        cases hlocal.symm.trans hs
    · refine .inr ⟨b, hb.append _, ?_⟩
      rw [declare_of_stopped hfail, hfail]

end Binds

/-- From `r` to `r'` the nodes `vs` were stamped, in which `n` scopes are opened. -/
structure Walks (T : TypeTable) (k : Surroundings) (r r' : Stamping) (n : Nat) (vs : List Visit) :
    Prop where
  binds : r.Binds (vs.flatMap (Visit.binds T)) r'
  size : r'.failure = none → r'.tree.scopes.size = (k.after n).next.index

namespace Walks

theorem nil (hsize : r.failure = none → r.tree.scopes.size = k.next.index) :
    Walks T k r r 0 [] := ⟨.start, hsize⟩

theorem stopped {why : Diagnostic} (h : r.failure = some why) : Walks T k r r n vs :=
  ⟨.stopped h _, fun hnone => nomatch h.symm.trans hnone⟩

theorem append (h : Walks T k r r' n vs) (h' : Walks T (k.after n) r' r'' m us) :
    Walks T k r r'' (n + m) (vs ++ us) where
  binds := by
    rw [List.flatMap_append]
    exact h.binds.trans h'.binds
  size hnone := by
    rw [h'.size hnone]
    exact Nat.add_assoc k.next.index n m

theorem cons (h : Walks T k r r' n vs) {v : Visit} (hv : v.binds T = []) :
    Walks T k r r' n (v :: vs) where
  binds := by
    rw [List.flatMap_cons, hv]
    exact h.binds
  size := h.size

theorem opening (place : Position)
    (h : Walks T k.inBlock (r.openScope place k.scope).2 r' n vs) : Walks T k r r' (1 + n) vs where
  binds := (Binds.start.opening place k.scope).trans h.binds
  size hnone := by
    rw [h.size hnone]
    exact Nat.add_assoc k.next.index 1 n

/-- A variable is bound behind all that is bound in its initial value. -/
theorem var (hk : k.scope.index < k.next.index) {site : Site} {name : Token}
    {g : Option TypeId} {e : Expr} {finish : Position} (h : Walks T k r r' n vs) :
    Walks T k r
      (r'.declare k.scope ⟨.var, name.text, name.place, finish, k.isGlobal, g⟩) n
      (vs ++ [⟨k, .decl (.var site name g e finish)⟩]) where
  binds := by
    rw [List.flatMap_append]
    exact h.binds.binding _ fun hnone =>
      Nat.lt_of_lt_of_eq (Surroundings.lt_after hk n) (h.size hnone).symm
  size hnone := by
    rw [size_declare, h.size (of_declare hnone).1]

/-- A function is bound before its parameters and these before all that is bound in its body. -/
theorem fn (hk : k.scope.index < k.next.index)
    (hsize : r.failure = none → r.tree.scopes.size = k.next.index) {site : Site} {name : Token}
    {g : Option TypeId} {ps : List Token} {body : Expr} {r₁ r₂ : Stamping}
    (hr₁ : r₁ = r.declare k.scope ⟨.fn, name.text, name.place, name.place, k.isGlobal, g⟩)
    (hname : r₁.failure = none)
    (hr₂ : r₂ = declareParams k.next ps (T.argumentsOf g) (r₁.openScope name.place k.scope).2)
    (hbody : (r₂.failure = none → r₂.tree.scopes.size = k.inBlock.next.index) →
      Walks T (k.inFunction g) r₂ r' n vs) :
    Walks T k r r' (1 + n) (⟨k, .decl (.fn site name g ps body)⟩ :: vs) := by
  have hnone : r.failure = none := (of_declare (hr₁ ▸ hname)).1
  have hsize₁ : r₁.tree.scopes.size = k.next.index := by rw [hr₁, size_declare, hsize hnone]
  have hopened := size_openScope hsize₁ name.place
  have hbody := hbody fun _ => by rw [hr₂, size_declareParams, hopened]
  have hbound := Binds.start.binding (r := r)
    ⟨.fn, name.text, name.place, name.place, k.isGlobal, g⟩
    fun _ => Nat.lt_of_lt_of_eq hk (hsize hnone).symm
  rw [← hr₁] at hbound
  have hparams := Binds.declareParams (c := k.next) ps (T.argumentsOf g)
    (r := (r₁.openScope name.place k.scope).2)
    fun _ => Nat.lt_of_lt_of_eq k.lt_inBlock hopened.symm
  rw [← hr₂] at hparams
  refine ⟨((hbound.opening name.place k.scope).trans hparams).trans hbody.binds, fun hnone => ?_⟩
  rw [hbody.size hnone]
  exact Nat.add_assoc k.next.index 1 n

end Walks

end Stamping

open Stamping

/-- Stamping a node where the next scope is the one with the next number. -/
def Node.Walked (T : TypeTable) : Node → Prop
  | .expr e => ∀ ⦃k : Surroundings⦄ ⦃r⦄, k.scope.index < k.next.index →
      (r.failure = none → r.tree.scopes.size = k.next.index) →
      Walks T k r (e.stamp T k.scope k.isGlobal r).2 e.opened (e.visits k)
  | .exprs es => ∀ ⦃k : Surroundings⦄ ⦃r⦄, k.scope.index < k.next.index →
      (r.failure = none → r.tree.scopes.size = k.next.index) →
      Walks T k r (Expr.stampAll T k.scope k.isGlobal es r).2 (Expr.openedAll es)
        (Expr.visitsAll k es)
  | .stmt s => ∀ ⦃k : Surroundings⦄ ⦃r⦄, k.scope.index < k.next.index →
      (r.failure = none → r.tree.scopes.size = k.next.index) →
      Walks T k r (s.stamp T k.scope k.isGlobal r).2 s.opened (s.visits k)
  | .stmts ss => ∀ ⦃k : Surroundings⦄ ⦃r⦄, k.scope.index < k.next.index →
      (r.failure = none → r.tree.scopes.size = k.next.index) →
      Walks T k r (Stmt.stampAll T k.scope k.isGlobal ss r).2 (Stmt.openedAll ss)
        (Stmt.visitsAll k ss)
  | .decl d => ∀ ⦃k : Surroundings⦄ ⦃r⦄, k.scope.index < k.next.index →
      (r.failure = none → r.tree.scopes.size = k.next.index) →
      Walks T k r (d.stamp T k.scope k.isGlobal r).2 d.opened (d.visits k)
  | _ => True

section Running

variable {T : TypeTable}

theorem Node.walked_expr {e : Expr} (h : ∀ ⦃k : Surroundings⦄ ⦃r⦄, k.scope.index < k.next.index →
    r.failure = none → r.tree.scopes.size = k.next.index →
    Walks T k r (e.stamp T k.scope k.isGlobal r).2 e.opened (e.visits k)) :
    (Node.expr e).Walked T := by
  intro k r hk hsize
  cases hr : r.failure with
  | none => exact h hk hr (hsize hr)
  | some d =>
    rw [Expr.stamp_of_stopped hr]
    exact .stopped hr

theorem Node.walked_stmt {s : Stmt} (h : ∀ ⦃k : Surroundings⦄ ⦃r⦄, k.scope.index < k.next.index →
    r.failure = none → r.tree.scopes.size = k.next.index →
    Walks T k r (s.stamp T k.scope k.isGlobal r).2 s.opened (s.visits k)) :
    (Node.stmt s).Walked T := by
  intro k r hk hsize
  cases hr : r.failure with
  | none => exact h hk hr (hsize hr)
  | some d =>
    rw [Stmt.stamp_of_stopped hr]
    exact .stopped hr

theorem Node.walked_decl {d : Decl} (h : ∀ ⦃k : Surroundings⦄ ⦃r⦄, k.scope.index < k.next.index →
    r.failure = none → r.tree.scopes.size = k.next.index →
    Walks T k r (d.stamp T k.scope k.isGlobal r).2 d.opened (d.visits k)) :
    (Node.decl d).Walked T := by
  intro k r hk hsize
  cases hr : r.failure with
  | none => exact h hk hr (hsize hr)
  | some _ =>
    rw [Decl.stamp_of_stopped hr]
    exact .stopped hr

end Running

theorem Node.hereditary_walked (T : TypeTable) : Node.Hereditary (Node.Walked T) where
  leaf {_ _ _} := walked_expr fun k r hk hnone hsize => by
    rw [Expr.stamp_leaf hnone]
    exact (Walks.nil fun _ => hsize).cons rfl
  binary ha hb := walked_expr fun k r hk hnone hsize => by
    rw [Expr.stamp_binary hnone]
    have hwa := ha hk fun _ => hsize
    have hwb := hb (Surroundings.lt_after hk _) hwa.size
    exact (hwa.append hwb).cons rfl
  unary ha := walked_expr fun k r hk hnone hsize => by
    rw [Expr.stamp_unary hnone]
    exact (ha hk fun _ => hsize).cons rfl
  call hf has := walked_expr fun k r hk hnone hsize => by
    rw [Expr.stamp_call hnone]
    have hwf := hf hk fun _ => hsize
    have hwas := has (Surroundings.lt_after hk _) hwf.size
    exact (hwf.append hwas).cons rfl
  block {site _} hss := walked_expr fun k r hk hnone hsize => by
    simp only [Expr.stamp_block hnone, openScope_fst hsize]
    have hwss := hss k.lt_inBlock fun _ => size_openScope hsize site.place
    exact (Walks.opening site.place hwss).cons rfl
  ifThen hc ha := walked_expr fun k r hk hnone hsize => by
    rw [Expr.stamp_ifThen hnone]
    have hwc := hc hk fun _ => hsize
    have hwa := ha (Surroundings.lt_after hk _) hwc.size
    exact (hwc.append hwa).cons rfl
  ifElse hc ha hb := walked_expr fun k r hk hnone hsize => by
    rw [Expr.stamp_ifElse hnone]
    have hwc := hc hk fun _ => hsize
    have hwa := ha (Surroundings.lt_after hk _) hwc.size
    have hwb := hb (Surroundings.lt_after (Surroundings.lt_after hk _) _) hwa.size
    exact (hwc.append (hwa.append hwb)).cons rfl
  result ha := walked_expr fun k r hk hnone hsize => by
    rw [Expr.stamp_result hnone]
    exact (ha hk fun _ => hsize).cons rfl
  noExpr _ _ _ hsize := .nil hsize
  moreExprs he hes _ _ hk hsize :=
    (he hk hsize).append (hes (Surroundings.lt_after hk _) (he hk hsize).size)
  evaluated he := walked_stmt fun k r hk hnone hsize => by
    rw [Stmt.stamp_expr hnone]
    exact (he hk fun _ => hsize).cons rfl
  assigned hl he := walked_stmt fun k r hk hnone hsize => by
    rw [Stmt.stamp_assign hnone]
    have hwl := hl hk fun _ => hsize
    have hwe := he (Surroundings.lt_after hk _) hwl.size
    exact (hwl.append hwe).cons rfl
  declared hd := walked_stmt fun k r hk hnone hsize => by
    rw [Stmt.stamp_decl hnone]
    exact (hd hk fun _ => hsize).cons rfl
  noStmt _ _ _ hsize := .nil hsize
  moreStmts hs hss _ _ hk hsize :=
    (hs hk hsize).append (hss (Surroundings.lt_after hk _) (hs hk hsize).size)
  var he := walked_decl fun k r hk hnone hsize => by
    rw [Decl.stamp_var hnone]
    exact (he hk fun _ => hsize).var hk
  fn {_ n t ps _} he := walked_decl fun k r hk hnone hsize => by
    cases hname : (r.declare k.scope ⟨.fn, n.text, n.place, n.place, k.isGlobal, t⟩).failure with
    | some why =>
      -- the name of the function itself is the one that clashes
      rw [Decl.stamp_fn_of_clash hnone rfl hname]
      have hbound := Binds.start.binding (r := r)
        ⟨.fn, n.text, n.place, n.place, k.isGlobal, t⟩
        fun _ => Nat.lt_of_lt_of_eq hk hsize.symm
      exact ⟨hbound.trans (.stopped hname _), fun hend => nomatch hname.symm.trans hend⟩
    | none =>
      simp only [Decl.stamp_fn hnone rfl hname, openScope_fst ((size_declare _ _ _).trans hsize)]
      exact .fn hk (fun _ => hsize) rfl hname rfl fun hsize₂ => he k.lt_inBlock hsize₂

theorem Decl.exists_walks_stampAll (T : TypeTable) {k : Surroundings} {r : Stamping}
    (hk : k.scope.index < k.next.index)
    (hsize : r.failure = none → r.tree.scopes.size = k.next.index) (ds : List Decl) :
    ∃ n, Walks T k r (Decl.stampAll T k.scope k.isGlobal ds r).2 n (Decl.visitsAll k ds) := by
  induction ds generalizing k r with
  | nil => exact ⟨0, .nil hsize⟩
  | cons d ds ih =>
    have hwd := (Node.hereditary_walked T).decl d hk hsize
    obtain ⟨n, hwds⟩ := ih (Surroundings.lt_after hk d.opened) hwd.size
    exact ⟨d.opened + n, hwd.append hwds⟩

namespace Program

theorem binds_of_buildScopes (T : TypeTable) (p : Program) (S : ScopeTree) :
    Stamping.Binds { tree := (S.push .origin none).2 } (p.bindings T S.scopes.size)
      (p.buildScopes T S).2 := by
  obtain ⟨n, hwalks⟩ := Decl.exists_walks_stampAll T (k := .root S.scopes.size)
    (r := { tree := (S.push .origin none).2 }) (Nat.lt_succ_self _)
    (fun _ => Array.size_push _) p.decls
  exact hwalks.binds

/-- The scopes of a program are built if and only if in the root, in each block and among the
parameters of each function all names are distinct. If they are not, the first symbol that clashes
with one before it is reported as a redefinition at its place. -/
theorem buildScopes_reports_first_clash (T : TypeTable) (p : Program) (S : ScopeTree) :
    ((p.buildScopes T S).2.failure = none ↔ p.DeclaresOnce) ∧
    (¬ p.DeclaresOnce → ∃ b, FirstClash (p.bindings T S.scopes.size) b ∧
      (p.buildScopes T S).2.failure = some ⟨.redefinition b.2.name, b.2.place⟩) := by
  have hfresh : ∀ b ∈ p.bindings T S.scopes.size, ∀ x,
      (S.push .origin none).2.local? b.1 x = none :=
    fun b hb x => ScopeTree.local?_push_of_le (index_le_of_mem_bindings hb) x
  rcases (binds_of_buildScopes T p S).outcome rfl hfresh with ⟨hnone, hbs, -⟩ | ⟨b, hb, hfail⟩
  · have honce := (pairwise_bindings_iff T _ p).mp hbs
    exact ⟨iff_of_true hnone honce, fun hnot => absurd honce hnot⟩
  · have hnot := fun honce => hb.not_pairwise ((pairwise_bindings_iff T _ p).mpr honce)
    refine ⟨iff_of_false ?_ hnot, fun _ => ⟨b, hb, hfail⟩⟩
    rw [hfail]
    exact Option.some_ne_none _

/-- The initial value of the second `a` is walked through before that name is bound again. -/
theorem buildScopes_reports_clash_of_initial : ∃ p T,
    parse "var a = 1; var a = \x7b var b = 1; var b = 2; b; \x7d;" .initial = (.ok p, T) ∧
      ¬ p.DeclaresOnce ∧ ∃ b, FirstClash (p.bindings T ScopeTree.empty.scopes.size) b ∧
        b.2.name = "b" ∧ (p.buildScopes T .empty).2.failure =
          some ⟨.redefinition "b", ⟨36, 0, 36⟩⟩ := by
  have h : ∃ p T,
      parse "var a = 1; var a = \x7b var b = 1; var b = 2; b; \x7d;" .initial = (.ok p, T) ∧
      (p.decls.map fun d => d.name.text) = ["a", "a"] ∧
      (p.buildScopes T .empty).2.failure = some ⟨.redefinition "b", ⟨36, 0, 36⟩⟩ :=
    ⟨_, _, by cbv, by cbv, by cbv⟩
  obtain ⟨p, T, hparse, hnames, hfailure⟩ := h
  have hnot : ¬ p.DeclaresOnce := by
    intro honce
    have hroot := honce.root
    rw [hnames] at hroot
    exact absurd hroot (by decide)
  obtain ⟨b, hb, hreported⟩ := (buildScopes_reports_first_clash T p .empty).2 hnot
  have hname : b.2.name = "b" := by
    rw [hfailure] at hreported
    simpa using (congrArg (Option.map Diagnostic.fault) hreported).symm
  exact ⟨p, T, hparse, hnot, b, hb, hname, hfailure⟩

end Program

end FrontEnd
