import FrontEnd.Proofs.Syntax.Marks

/-! Which block or function opens a scope: all that is stamped with the scope or with one inside it
stands in there. -/

namespace FrontEnd

namespace Visit

def inside (v : Visit) : List Node :=
  match v.node with
  | .expr (.block _ ss) => Stmt.nodesOfAll ss
  | .decl (.fn _ _ _ _ e) => e.nodes
  | _ => []

def Lists (v : Visit) (d : Decl) : Prop :=
  ∃ site ss s, v.node = .expr (.block site ss) ∧ .decl s d ∈ ss

/-- The scope around `v` is opened at `w`. -/
structure Encloses (w v : Visit) : Prop where
  next : w.around.next = v.around.scope
  inside : v.node ∈ w.inside
  lists : ∀ d, v.node = .decl d → w.Lists d

end Visit

/-- Of the visits `vs`, those whose scope is not opened among them have the scope `k.scope` around
them; of declarations only those with `P` are in it. -/
def Surroundings.Around (k : Surroundings) (P : Decl → Prop) (vs : List Visit) : Prop :=
  ∀ v ∈ vs, (∃ w ∈ vs, w.Encloses v) ∨ v.around.scope = k.scope ∧ v.around.function = k.function ∧
    ∀ d, v.node = .decl d → P d

namespace Surroundings.Around

variable {k : Surroundings} {P Q : Decl → Prop} {vs us : List Visit}

theorem nil (k : Surroundings) : k.Around P [] := fun _ hv => nomatch hv

theorem append (h : k.Around P vs) (h' : k.Around P us) : k.Around P (vs ++ us) := by
  intro v hv
  rcases List.mem_append.mp hv with hv | hv
  · exact (h v hv).imp_left fun ⟨w, hw, hwv⟩ => ⟨w, List.mem_append_left _ hw, hwv⟩
  · exact (h' v hv).imp_left fun ⟨w, hw, hwv⟩ => ⟨w, List.mem_append_right _ hw, hwv⟩

theorem cons {a : Node} (h : k.Around P vs) (ha : ∀ d, a = .decl d → P d) :
    k.Around P (⟨k, a⟩ :: vs) := by
  have hself : k.Around P [⟨k, a⟩] := by
    intro v hv
    obtain rfl := List.mem_singleton.mp hv
    exact .inr ⟨rfl, rfl, ha⟩
  exact hself.append h

theorem imp (h : k.Around P vs) (hPQ : ∀ d, P d → Q d) : k.Around Q vs :=
  fun v hv => (h v hv).imp_right fun ⟨hs, hf, hP⟩ => ⟨hs, hf, fun d hd => hPQ d (hP d hd)⟩

theorem opening {k' : Surroundings} {a : Node} (h : k'.Around Q vs) (hk : k'.scope = k.next)
    (hvs : vs.map Visit.node = Visit.inside ⟨k, a⟩) (hlists : ∀ d, Q d → Visit.Lists ⟨k, a⟩ d)
    (ha : ∀ d, a = .decl d → P d) : k.Around P (⟨k, a⟩ :: vs) := by
  intro v hv
  rcases List.mem_cons.mp hv with rfl | hv
  · exact .inr ⟨rfl, rfl, ha⟩
  · refine .inl ?_
    rcases h v hv with ⟨w, hw, hwv⟩ | ⟨hs, _, hQ⟩
    · exact ⟨w, List.mem_cons_of_mem _ hw, hwv⟩
    · exact ⟨_, List.mem_cons_self, (hs.trans hk).symm, hvs ▸ List.mem_map_of_mem hv,
        fun d hd => hlists d (hQ d hd)⟩

end Surroundings.Around

namespace Node

/-- What is not in a scope opened in a node is in the scope of the node itself. -/
def Surrounded : Node → Prop
  | expr e => ∀ k : Surroundings, k.Around (fun _ => False) (e.visits k)
  | exprs es => ∀ k : Surroundings, k.Around (fun _ => False) (Expr.visitsAll k es)
  | stmt s => ∀ k : Surroundings, k.Around (fun d => ∃ site, s = .decl site d) (s.visits k)
  | stmts ss => ∀ k : Surroundings, k.Around (fun d => ∃ s, .decl s d ∈ ss) (Stmt.visitsAll k ss)
  | decl d => ∀ k : Surroundings, k.Around (· = d) (d.visits k)
  | _ => True

theorem hereditary_surrounded : Hereditary Surrounded where
  leaf k := .cons (.nil k) nofun
  binary ha hb k := .cons ((ha k).append (hb (k.after _))) nofun
  unary ha k := .cons (ha k) nofun
  call hf has k := .cons ((hf k).append (has (k.after _))) nofun
  block hss k := .opening (hss k.inBlock) rfl (hereditary_visited.stmts _ _)
    (fun _ ⟨s, hs⟩ => ⟨_, _, s, rfl, hs⟩) nofun
  ifThen hc ha k := .cons ((hc k).append (ha (k.after _))) nofun
  ifElse hc ha hb k :=
    .cons ((hc k).append (.append (ha (k.after _)) (hb ((k.after _).after _)))) nofun
  result ha k := .cons (ha k) nofun
  noExpr k := .nil k
  moreExprs he hes k := (he k).append (hes (k.after _))
  evaluated he k := .cons ((he k).imp nofun) nofun
  assigned hl he k := .cons (((hl k).append (he (k.after _))).imp nofun) nofun
  declared hd k := .cons ((hd k).imp fun _ h => h ▸ ⟨_, rfl⟩) nofun
  noStmt k := .nil k
  moreStmts hs hss k :=
    .append ((hs k).imp fun _ ⟨s, h⟩ => ⟨s, h ▸ List.mem_cons_self⟩)
      ((hss (k.after _)).imp fun _ ⟨s, h⟩ => ⟨s, List.mem_cons_of_mem _ h⟩)
  var he k := ((he k).imp nofun).append (.cons (.nil k) fun _ h => (Node.decl.inj h).symm)
  fn he k := .opening (he (k.inFunction _)) rfl (hereditary_visited.expr _ _) nofun
    fun _ h => (Node.decl.inj h).symm

end Node

theorem Decl.around_visitsAll (k : Surroundings) (ds : List Decl) :
    k.Around (· ∈ ds) (Decl.visitsAll k ds) := by
  induction ds generalizing k with
  | nil => exact .nil k
  | cons d ds ih =>
    have hd := Node.hereditary_surrounded.decl d k
    have hds : k.Around (· ∈ ds) (Decl.visitsAll (k.after d.opened) ds) := ih _
    exact (hd.imp fun _ h => h ▸ List.mem_cons_self).append
      (hds.imp fun _ => List.mem_cons_of_mem _)

namespace Visit

variable {v w : Visit}

theorem opens_of_mem_inside {a : Node} (h : a ∈ v.inside) :
    ∃ p, v.opens = [(v.around.next, p, some v.around.scope)] := by
  unfold inside at h
  split at h
  next hv => exact ⟨_, by rw [opens, hv]⟩
  next hv => exact ⟨_, by rw [opens, hv]⟩
  next => exact nomatch h

theorem nodes_subset_inside {a : Node} (h : a ∈ v.inside) : a.nodes ⊆ v.inside := by
  unfold inside at h ⊢
  split
  next site ss hv =>
    rw [hv] at h
    exact (Node.hereditary_embeds.stmts ss a h).1
  next site n g ps e hv =>
    rw [hv] at h
    exact (Node.hereditary_embeds.expr e a h).1
  next hblock hfn =>
    split at h
    next hv => exact absurd hv (hblock _ _)
    next hv => exact absurd hv (hfn _ _ _ _ _)
    next => exact nomatch h

theorem inside_subset_nodes (v : Visit) : v.inside ⊆ v.node.nodes := by
  unfold inside
  split
  next hv =>
    rw [hv]
    exact List.subset_cons_self _ _
  next hv =>
    rw [hv]
    exact List.subset_cons_self _ _
  next => exact List.nil_subset _

end Visit

theorem ScopeTree.parent?_of_mem_outline {S : ScopeTree} {c : ScopeId} {p : Position}
    {parent : Option ScopeId} (h : (c, p, parent) ∈ S.outline) : S.parent? c = parent := by
  obtain ⟨i, hi, heq⟩ := List.mem_mapIdx.mp h
  obtain ⟨rfl, -, rfl⟩ : (⟨i⟩ : ScopeId) = c ∧ _ ∧ _ = parent := by simpa using heq
  have hi : i < S.scopes.size := by simpa using hi
  simp [parent?, scope?, hi]

theorem ScopeTree.nodup_outline (S : ScopeTree) : (S.outline.map Prod.fst).Nodup := by
  have hids : S.outline.map Prod.fst = (List.range S.scopes.size).map ScopeId.mk := by
    refine List.ext_getElem (by simp [outline]) fun i hi hi' => ?_
    simp [outline]
  rw [hids]
  exact List.nodup_range.map fun i j h => congrArg ScopeId.index h

namespace Program.Scoped

variable {T : TypeTable} {p q : Program} {S : ScopeTree} {w : List Token} {u v : Visit} {a b : Node}
  {c : ScopeId}

theorem opener_unique (h : Scoped T w p q S) (hu : u ∈ q.visits) (hv : v ∈ q.visits)
    (ha : a ∈ u.inside) (hb : b ∈ v.inside) (huv : u.around.next = v.around.next) : u = v := by
  by_contra hne
  have hnodup := S.nodup_outline
  rw [h.scopes, List.map_cons, List.map_flatMap] at hnodup
  have hpairwise := (List.pairwise_flatMap.mp (List.nodup_cons.mp hnodup).2).2
  have hsymm : Std.Symm fun u v : Visit =>
      ∀ x ∈ u.opens.map Prod.fst, ∀ y ∈ v.opens.map Prod.fst, x ≠ y :=
    ⟨fun _ _ h x hx y hy => (h y hy x hx).symm⟩
  have hdiffer := hpairwise.forall hu hv hne
  obtain ⟨p, hp⟩ := Visit.opens_of_mem_inside ha
  obtain ⟨p', hp'⟩ := Visit.opens_of_mem_inside hb
  rw [hp, hp'] at hdiffer
  exact hdiffer _ (List.mem_singleton.mpr rfl) _ (List.mem_singleton.mpr rfl) huv

theorem opener_ne_root (h : Scoped T w p q S) (hv : v ∈ q.visits) (ha : a ∈ v.inside) :
    v.around.next ≠ ⟨0⟩ := by
  intro hroot
  have hnodup := S.nodup_outline
  rw [h.scopes, List.map_cons, List.map_flatMap] at hnodup
  obtain ⟨p, hp⟩ := Visit.opens_of_mem_inside ha
  refine (List.nodup_cons.mp hnodup).1 (List.mem_flatMap.mpr ⟨v, hv, ?_⟩)
  rw [hp, hroot]
  exact List.mem_singleton.mpr rfl

theorem parent_of_opener (h : Scoped T w p q S) (hv : v ∈ q.visits) (ha : a ∈ v.inside) :
    S.parent? v.around.next = some v.around.scope := by
  obtain ⟨p, hp⟩ := Visit.opens_of_mem_inside ha
  refine ScopeTree.parent?_of_mem_outline (p := p) ?_
  rw [h.scopes]
  refine List.mem_cons_of_mem _ (List.mem_flatMap.mpr ⟨v, hv, ?_⟩)
  rw [hp]
  exact List.mem_singleton.mpr rfl

theorem parent_of_root (h : Scoped T w p q S) : S.parent? ⟨0⟩ = none := by
  refine ScopeTree.parent?_of_mem_outline (p := .origin) ?_
  rw [h.scopes]
  exact List.mem_cons_self

/-- A scope around a node, other than the root, is opened at a node that has it inside. -/
theorem exists_opener (h : Scoped T w p q S) (hS : S.WellFormed) (hv : v ∈ q.visits)
    (hc : c ∈ S.chain v.around.scope) (hne : c ≠ ⟨0⟩) :
    ∃ u ∈ q.visits, u.around.next = c ∧ v.node ∈ u.inside := by
  induction hn : v.around.scope.index using Nat.strong_induction_on generalizing v with
  | _ n ih =>
    rcases Decl.around_visitsAll .program q.decls v hv with ⟨u, hu, huv⟩ | ⟨hroot, -, -⟩
    · have hparent := huv.next ▸ h.parent_of_opener hu huv.inside
      rw [ScopeTree.chain_of_parent hS hparent, List.mem_cons] at hc
      rcases hc with rfl | hc
      · exact ⟨u, hu, huv.next, huv.inside⟩
      · have hlt := hS.parent_lt hparent
        obtain ⟨u', hu', hnext, hinside⟩ := ih _ (hn ▸ hlt) hu hc rfl
        refine ⟨u', hu', hnext, Visit.nodes_subset_inside hinside ?_⟩
        exact u.inside_subset_nodes huv.inside
    · rw [hroot] at hc
      change c ∈ S.chain ⟨0⟩ at hc
      rw [ScopeTree.chain_of_root h.parent_of_root] at hc
      exact absurd (List.mem_singleton.mp hc) hne

end Program.Scoped

end FrontEnd
