import FrontEnd.Proofs.Scope.InRange

/-! What the declarations of a program add to its scopes, one after the other. Each adds a stretch
of scopes and symbols of its own; in the root it binds nothing but its name. -/

namespace FrontEnd

open ScopeTree (Advances)

variable {T : TypeTable} {S : ScopeTree} {r r₁ r₂ : Stamping} {d d₁ : Decl} {ds ds₁ : List Decl}
  {w : List Token}

namespace Decl

def kind : Decl → SymbolKind
  | .var _ _ _ _ _ => .var
  | .fn _ _ _ _ _ => .fn

variable {c : ScopeId} {g : Bool}

theorem stamp_keeps (d : Decl) : (d.stamp T c g r).1.kind = d.kind ∧
    (d.stamp T c g r).1.name = d.name ∧ (d.stamp T c g r).1.signature = d.signature := by
  unfold Decl.stamp
  split
  · exact ⟨rfl, rfl, rfl⟩
  · cases d with
    | var => exact ⟨rfl, rfl, rfl⟩
    | fn =>
      dsimp only
      split <;> exact ⟨rfl, rfl, rfl⟩

end Decl

theorem Placed.binds {F : ScopeTree} {c : ScopeId} {g : Bool} {a : Node}
    (h : Placed F T c g w a) (ha : a = .decl d) :
    ∃ p v, F.Binds c d.name ⟨d.kind, d.name.text, p, v, g, d.signature⟩ := by
  induction h with
  | among _ _ ih => exact ih ha
  | var _ hn _ _ =>
    obtain rfl := Node.decl.inj ha
    exact ⟨_, _, hn⟩
  | fn hn _ _ _ _ _ =>
    obtain rfl := Node.decl.inj ha
    exact ⟨_, _, hn⟩
  | _ => exact nomatch ha

theorem Reads.fresh (h : Reads T w (.decl d)) {c : ScopeId} {g : Bool} (hc : r.tree.Holds c)
    (hd : d.stamp T c g r = (d₁, r₁)) (hr : r₁.failure = none) :
    r.tree.local? c d.name.text = none := by
  have hnone := Decl.failure_of_stamp hd hr
  cases h with
  | @var _ n _ _ _ _ _ _ _ _ _ _ _ he =>
    rw [Decl.stamp_var hnone] at hd
    obtain ⟨rfl, rfl⟩ := Prod.mk.inj hd
    obtain ⟨hr', i, hi⟩ := Stamping.of_declare hr
    obtain ⟨hadvances, -⟩ := he.settled rfl hr' hc
    have hsame := hadvances.names (n := n.text) List.not_mem_nil
    exact hsame.symm.trans (ScopeTree.of_bind_ok hi).1
  | fn =>
    obtain ⟨-, i, hi⟩ := Stamping.of_declare (Decl.failure_of_stamp_fn hd hr)
    exact (ScopeTree.of_bind_ok hi).1

/-- The work goes on in the root. -/
structure Stamping.AtRoot (T : TypeTable) (r : Stamping) : Prop extends r.Ready T ⟨0⟩ where
  working : r.failure = none
  root : r.tree.parent? ⟨0⟩ = none
  wellFormed : r.tree.WellFormed

/-- The declaration `d` comes to be stamped in the root. Nothing that it adds to the scopes is
changed up to the finished tree `S`. -/
structure Stretch (T : TypeTable) (S : ScopeTree) (r r₁ : Stamping) (d d₁ : Decl) : Prop where
  before : r.AtRoot T
  after : r₁.AtRoot T
  fresh : r.tree.local? ⟨0⟩ d.name.text = none
  refers : (Node.decl d).Everywhere (Node.Refers (·.scope = none) T)
  stamped : d.stamp T ⟨0⟩ true r = (d₁, r₁)
  nodes : (Node.decl d₁).InRange r₁.tree T
  advances : Advances ⟨0⟩ [d.name.text] r.tree r₁.tree
  binds : ∃ p v, r₁.tree.Binds ⟨0⟩ d.name ⟨d.kind, d.name.text, p, v, true, d.signature⟩
  kept : ∃ ns, Advances ⟨0⟩ ns r₁.tree S

theorem stretch_of_stamp (hT : T.Reachable) (h : Reads T w (.decl d)) (hr : r.AtRoot T)
    (hd : d.stamp T ⟨0⟩ true r = (d₁, r₁)) (hr₁ : r₁.failure = none)
    (hS : ∃ ns, Advances ⟨0⟩ ns r₁.tree S) : Stretch T S r r₁ d d₁ := by
  have hrefers := h.refers hT
  have hranged : (Node.decl d).InRange r.tree T :=
    hrefers.imp fun _ ha => ha.imp fun s hs c hc => nomatch hs.symm.trans hc
  have hleads := (Node.hereditary_stamps hT).decl d true hr.toReady hranged
  obtain ⟨hadvances, hplaced⟩ := h.settled hd hr₁ hr.holds
  have hbinds := (hplaced r₁.tree ⟨fun _ _ => rfl, id, id⟩).binds rfl
  simp only [Node.stamp, hd] at hleads
  obtain rfl : (d.stamp T ⟨0⟩ true r).1 = d₁ := by rw [hd]
  obtain ⟨hkind, hname, hsignature⟩ := d.stamp_keeps (T := T) (c := ⟨0⟩) (g := true) (r := r)
  rw [hname] at hadvances
  rw [hname, hkind, hsignature] at hbinds
  exact {
    before := hr
    after := ⟨hleads.ready, hr₁, hadvances.parent.trans hr.root, hadvances.wellFormed hr.wellFormed⟩
    fresh := h.fresh hr.holds hd hr₁
    refers := hrefers
    stamped := hd
    nodes := hleads.nodes
    advances := hadvances
    binds := hbinds
    kept := hS }

/-- The declarations come to be stamped one after the other. -/
inductive Stretches (T : TypeTable) (S : ScopeTree) :
    Stamping → List Decl → List Decl → Stamping → Prop
  | nil {r : Stamping} : Stretches T S r [] [] r
  | cons {r r₁ r₂ : Stamping} {d d₁ : Decl} {ds ds₁ : List Decl} : Stretch T S r r₁ d d₁ →
      Stretches T S r₁ ds ds₁ r₂ → Stretches T S r (d :: ds) (d₁ :: ds₁) r₂

theorem Decl.exists_advances_stampAll (h : Reads T w (.decls ds)) (hr : r.tree.Holds ⟨0⟩)
    (hds : Decl.stampAll T ⟨0⟩ true ds r = (ds₁, r₂)) (hr₂ : r₂.failure = none) :
    ∃ ns, Advances ⟨0⟩ ns r.tree r₂.tree := ⟨_, (h.settled hds hr₂ hr).1⟩

theorem stretches_of_stampAll (hT : T.Reachable) (h : Reads T w (.decls ds)) (hr : r.AtRoot T)
    (hds : Decl.stampAll T ⟨0⟩ true ds r = (ds₁, r₂)) (hr₂ : r₂.failure = none)
    (hS : ∃ ns, Advances ⟨0⟩ ns r₂.tree S) : Stretches T S r ds ds₁ r₂ := by
  induction ds generalizing w r ds₁ with
  | nil =>
    obtain ⟨rfl, rfl⟩ := Prod.mk.inj hds
    exact .nil
  | cons d ds ih =>
    cases h with
    | moreDecls hd hrest =>
      obtain ⟨rfl, rfl⟩ := Prod.mk.inj hds
      have hr₁ := Decl.failure_of_stampAll rfl hr₂
      have hheld := (hd.settled rfl hr₁ hr.holds).1.holds hr.holds
      obtain ⟨ns, hns⟩ := hS
      obtain ⟨ms, hms⟩ := Decl.exists_advances_stampAll hrest hheld rfl hr₂
      have hstretch := stretch_of_stamp hT hd hr rfl hr₁ ⟨_, hms.trans hns⟩
      exact .cons hstretch (ih hrest hstretch.after rfl)

namespace Stretches

theorem nodup (h : Stretches T S r ds ds₁ r₂) : (ds.map fun d => d.name.text).Nodup ∧
    ∀ d ∈ ds, r.tree.local? ⟨0⟩ d.name.text = none := by
  induction h with
  | nil => exact ⟨List.nodup_nil, fun _ hd => nomatch hd⟩
  | @cons r r₁ r₂ d d₁ ds ds₁ hd _ ih =>
    obtain ⟨hnodup, hfresh⟩ := ih
    obtain ⟨p, v, s, hs, -⟩ := hd.binds
    refine ⟨List.nodup_cons.mpr ⟨fun hmem => ?_, hnodup⟩, List.forall_mem_cons.mpr ⟨hd.fresh, ?_⟩⟩
    · obtain ⟨e, he, hname⟩ := List.mem_map.mp hmem
      have hnone := hfresh e he
      rw [hname, hs] at hnone
      exact nomatch hnone
    · intro e he
      cases hbound : r.tree.local? ⟨0⟩ e.name.text with
      | none => rfl
      | some t => exact nomatch (hd.advances.kept hbound).symm.trans (hfresh e he)

theorem names (h : Stretches T S r ds ds₁ r₂) {n : String}
    (hn : n ∉ ds.map fun d => d.name.text) : r₂.tree.local? ⟨0⟩ n = r.tree.local? ⟨0⟩ n := by
  induction h with
  | nil => rfl
  | cons hd _ ih =>
    rw [List.map_cons, List.mem_cons, not_or] at hn
    have hne : n ∉ [_] := fun hmem => hn.1 (List.mem_singleton.mp hmem)
    rw [ih hn.2, hd.advances.names hne]

theorem forall₂ (h : Stretches T S r ds ds₁ r₂) :
    List.Forall₂ (fun d d₁ => ∃ r r₁, Stretch T S r r₁ d d₁) ds ds₁ := by
  induction h with
  | nil => exact .nil
  | cons hd _ ih => exact .cons ⟨_, _, hd⟩ ih

end Stretches

end FrontEnd
