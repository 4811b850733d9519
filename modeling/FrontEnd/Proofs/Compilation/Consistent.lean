import Mathlib
import FrontEnd.Proofs.Grammar.Entering
import FrontEnd.Proofs.Scope.Mirroring
import FrontEnd.Proofs.Typing.InRange

/-! The ids of a compilation. Types, scopes and symbols are numbered where they are entered, and
whatever refers to them does so by number; no number is ever out of range, in no pass and for no
source. -/

namespace FrontEnd

variable {S : ScopeTree} {T : TypeTable} {source : String} {c : Compilation}

/-- A node with this site knows its scope. -/
def Site.Settled (S : ScopeTree) (s : Site) : Prop := ∃ c, s.scope = some c ∧ S.Holds c

/-- A name that is used means a symbol, and has the type of the symbol if that is signed. -/
def ScopeTree.Explains (S : ScopeTree) (site : ExprSite) (k : Token) : Prop :=
  ∃ c s a, site.scope = some c ∧ S.lookup c k.text k.place = some s ∧ S.symbol? s = some a ∧
    ∀ t ∈ a.signature, site.type = some t

/-- Types can be shown and compared without a look behind the end of the table. -/
structure TypeTable.Readable (T : TypeTable) : Prop where
  parts {t u : TypeId} {s : TypeShape} : T.shape? t = some s → u ∈ s.parts → T.Holds u
  shows {t : TypeId} : T.Holds t → T.showsWithin (t.index + 1) t = true
  compares {t u : TypeId} : T.Holds t → T.Holds u → T.comparesWithin (t.index + 1) t u = true

/-- Names can be looked up from everywhere in the tree without a look behind its end. -/
structure ScopeTree.Readable (S : ScopeTree) (T : TypeTable) : Prop extends S.Closed T where
  climbs {c : ScopeId} : S.Holds c → S.climbsWithin (c.index + 1) c = true

/-- What the program, the types and the scopes of a compilation have to do with one another. -/
structure Compilation.Consistent (c : Compilation) : Prop where
  types : c.types.Readable
  scopes : c.scopes.Readable c.types
  root : ∃ r, c.program.scope = some r ∧ c.scopes.Holds r
  nodes : ∀ a ∈ c.program.nodes, a.Refers (Site.Settled c.scopes) c.types
  typed {e : Expr} : .expr e ∈ c.program.nodes → e.type.isSome
  explained {site : ExprSite} {form : LeafForm} {k : Token} :
    .expr (.leaf site form k) ∈ c.program.nodes → k.kind = .identifier → c.scopes.Explains site k

/-- The ids that the passes leave behind one after the other, each whether or not it fails. -/
structure IdsInRange (source : String) : Prop where
  parsed {r : Except (List Diagnostic) Program} {T : TypeTable} :
    Program.parse source .initial = (r, T) → T.Readable ∧
      ∀ p, r = .ok p → ∀ a ∈ p.nodes, a.Refers (·.scope = none) T
  built {p : Program} {T : TypeTable} : Program.parse source .initial = (.ok p, T) →
    (p.buildScopes T .empty).2.tree.Readable T ∧
      ∀ a ∈ (p.buildScopes T .empty).1.nodes,
        a.Refers (Site.InRange (p.buildScopes T .empty).2.tree) T
  annotated {p q : Program} {T : TypeTable} {S : ScopeTree} :
    Program.parse source .initial = (.ok p, T) → p.buildScopes T .empty = (q, { tree := S }) →
      ∀ a ∈ (q.annotate S T).1.nodes, a.Refers (Site.Settled S) T
  compiled {c : Compilation} : compile source = .ok c → c.Consistent

theorem TypeTable.Reachable.readable (hT : T.Reachable) : T.Readable where
  parts := hT.holds_of_mem_parts
  shows ht := showsWithin_of_holds hT ht (Nat.lt_succ_self _)
  compares ht hu := comparesWithin_of_holds hT ht hu (Nat.lt_succ_self _)

theorem ScopeTree.Closed.readable (hS : S.Closed T) : S.Readable T where
  toClosed := hS
  climbs hc := hS.climbsWithin hc (Nat.lt_succ_self _)

theorem Visit.InPlace.refers {w : List Token} {v : Visit} (h : v.InPlace T w)
    (ha : v.node.Refers (Site.InRange S) T) : v.node.Refers (Site.Settled S) T := by
  obtain ⟨k, a⟩ := v
  cases a with
  | expr e => exact ⟨⟨_, h, ha.1 _ h⟩, ha.2⟩
  | stmt s => exact ⟨_, h, ha _ h⟩
  | decl d =>
    cases d with
    | var s n g e finish => exact ⟨⟨_, h.1, ha.1 _ h.1⟩, ha.2⟩
    | fn s n g ps e => exact ⟨⟨_, h.1, ha.1 _ h.1⟩, ha.2⟩
  | _ => exact h.elim

theorem Visit.Checked.explains {k : Surroundings} {site : ExprSite} {form : LeafForm} {n : Token}
    (h : Visit.Checked S T ⟨k, .expr (.leaf site form n)⟩) (hn : n.kind = .identifier) :
    S.Explains site n := by
  obtain ⟨X, t, rfl, rfl, htype, hleaf⟩ := h
  have hleaf : (X.resolve site.scope n >>= fun s => X.symbolType s n) = .ok t := by
    simpa only [TypeContext.typeOf, TypeContext.leafType, hn] using hleaf
  obtain ⟨s, hs, ht⟩ := bind_eq_ok.mp hleaf
  have hnames := TypeContext.resolve_eq_ok.mp hs
  obtain ⟨a, ha, hcases⟩ := (TypeContext.symbolType_eq_ok hnames).mp ht
  obtain ⟨c, hc, hlookup⟩ := hnames
  refine ⟨c, s, a, hc, hlookup, ha, fun u hu => ?_⟩
  rcases hcases with hsig | ⟨hnone, -⟩
  · obtain rfl := Option.some.inj (hsig.symm.trans hu)
    exact htype
  · cases hnone.symm.trans hu

namespace Program

variable {p q : Program}

theorem leads_of_parse (hp : parse source .initial = (.ok p, T)) :
    ∃ root, (p.buildScopes T .empty).1.scope = some root ∧
      Stamping.Leads T root { tree := (ScopeTree.empty.push .origin none).2 }
        (p.buildScopes T .empty).2 (.decls (p.buildScopes T .empty).1.decls) := by
  obtain ⟨-, hreads, -, hT⟩ := reads_of_parse hp
  have hrefers := hreads.refers (hT .initial)
  refine leads_of_buildScopes (hT .initial) (Node.Everywhere.imp hrefers fun _ hb => ?_)
  exact hb.imp fun s hs d hd => nomatch hs.symm.trans hd

theorem refers_of_scoped {w : List Token} (hq : Scoped T w p q S)
    (hnodes : (Node.decls q.decls).InRange S T) :
    (Node.decls q.decls).Everywhere (Node.Refers (Site.Settled S) T) := by
  intro a ha
  obtain ⟨v, hv, rfl⟩ := exists_visit ha
  exact (hq.inPlace v hv).refers (hnodes _ ha)

end Program

theorem Compilation.consistent_of_stages {p q : Program} {root : ScopeId} (hT : T.Reachable)
    (hroot : q.scope = some root) (hS : S.Closed T) (hheld : S.Holds root)
    (hnodes : (Node.decls q.decls).Everywhere (Node.Refers (Site.Settled S) T))
    {w : List Token} {d : ScopeId} (hrooted : Program.Rooted S T w q d)
    (hp : q.annotate S T = (p, none)) :
    Consistent ⟨p, T, S⟩ := by
  obtain ⟨⟨ds, r⟩, hds⟩ : ∃ x, x = Decl.annotateAll none q.decls
    { context := { scopes := S, types := T } } := ⟨_, rfl⟩
  have hrefers := Program.refers_of_annotate hT hS hnodes
  simp only [hp] at hrefers
  simp only [Program.annotate, ← hds] at hp
  obtain ⟨rfl, hr⟩ := Prod.mk.inj hp
  have hchecked := hrooted.placed.leavesChecked hT (k := .program) ⟨rfl, rfl⟩ hds.symm hr rfl
  have hvisit {a : Node} (ha : a ∈ (⟨ds, q.scope⟩ : Program).nodes) :
      ∃ k, Visit.Checked S T ⟨k, a⟩ := by
    obtain ⟨⟨k, b⟩, hv, rfl⟩ := Program.exists_visit ha
    exact ⟨k, hchecked _ hv⟩
  refine ⟨hT.readable, hS.readable, ⟨root, hroot, hheld⟩, hrefers, fun he => ?_, fun he hk => ?_⟩
  · obtain ⟨k, X, t, -, -, ht, -⟩ := hvisit he
    exact Option.isSome_iff_exists.mpr ⟨t, ht⟩
  · obtain ⟨k, hleaf⟩ := hvisit he
    exact hleaf.explains hk

/-- For every source, accepted or not, each pass leaves behind ids that are in range; and of a
source that is accepted the program, the types and the scopes fit together. -/
theorem ids_in_range (source : String) : IdsInRange source where
  parsed {r T} hp := by
    have hT := Program.reachable_of_parse source .initial
    rw [hp] at hT
    refine ⟨hT.readable, ?_⟩
    rintro p rfl
    obtain ⟨-, hreads, -⟩ := Program.reads_of_parse hp
    exact hreads.refers hT
  built hp := by
    obtain ⟨root, -, hleads⟩ := Program.leads_of_parse hp
    exact ⟨hleads.ready.closed.readable, hleads.nodes⟩
  annotated hp hq := by
    obtain ⟨-, hreads, -, hT⟩ := Program.reads_of_parse hp
    obtain ⟨root, -, hleads⟩ := Program.leads_of_parse hp
    rw [hq] at hleads
    have hscoped := Program.scoped_of_reads hreads hq
    exact Program.refers_of_annotate (hT .initial) hleads.ready.closed
      (Program.refers_of_scoped hscoped hleads.nodes)
  compiled {c} h := by
    unfold compile at h
    split at h
    next => exact nomatch h
    next p T hp =>
      obtain ⟨-, hreads, -, hT⟩ := Program.reads_of_parse hp
      obtain ⟨root, hroot, hleads⟩ := Program.leads_of_parse hp
      unfold Program.analyse at h
      split at h
      next => exact nomatch h
      next q S hq =>
        rw [hq] at hroot hleads
        obtain ⟨d, hrooted⟩ := Program.exists_rooted hreads hq
        have hscoped := Program.scoped_of_reads hreads hq
        split at h
        next => exact nomatch h
        next =>
          split at h
          next => exact nomatch h
          next q' hq' =>
            obtain rfl := Except.ok.inj h
            exact Compilation.consistent_of_stages (hT .initial) hroot hleads.ready.closed
              hleads.ready.holds (Program.refers_of_scoped hscoped hleads.nodes) hrooted hq'

/-- A function that is used before it is declared, and a variable that is not signed. -/
theorem consistent_of_later_function :
    ∃ c, compile "var x = f(2); of [Int] -> Int fun f(n) = \x7b var m = n; return m + x; \x7d;" =
      .ok c ∧ c.program.nodes.length = 14 ∧ c.Consistent := by
  have h : (compile
      "var x = f(2); of [Int] -> Int fun f(n) = \x7b var m = n; return m + x; \x7d;").map
        (fun c => c.program.nodes.length) = .ok 14 := by cbv
  obtain ⟨c, hc, hlength⟩ := except_map_eq_ok.mp h
  exact ⟨c, hc, hlength, (ids_in_range _).compiled hc⟩

end FrontEnd
