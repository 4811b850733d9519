import FrontEnd.Proofs.Scope.Parallel
import FrontEnd.Proofs.Scope.Stretches

/-! One declaration in two programs. What it adds to the scopes of the one program stands for what
it adds to those of the other; everything else that it can see is in the roots. -/

namespace FrontEnd

open ScopeTree (Advances)

namespace Correspondence

/-- What is added to `S` stands for what is added to `S'`, in order, and the root for the root. -/
def added (R : Position → Position → Prop) (M : TypeId → TypeId → Prop) (S S' : ScopeTree) :
    Correspondence where
  place := R
  scope c c' := c = ⟨0⟩ ∧ c' = ⟨0⟩ ∨
    ∃ j, c = ⟨S.scopes.size + j⟩ ∧ c' = ⟨S'.scopes.size + j⟩
  symbol s s' := ∃ j, s = ⟨S.symbols.size + j⟩ ∧ s' = ⟨S'.symbols.size + j⟩
  type := M

variable {R : Position → Position → Prop} {M : TypeId → TypeId → Prop} {S S' : ScopeTree}

theorem counting_added (hS : S.Holds ⟨0⟩) (hS' : S'.Holds ⟨0⟩) : (added R M S S').Counting := by
  have hpos : 0 < S.scopes.size := hS
  have hpos' : 0 < S'.scopes.size := hS'
  refine ⟨.inl ⟨rfl, rfl⟩, ?_, ?_, ?_, ?_⟩
  · rintro i i' hi (⟨hc, -⟩ | ⟨j, hc, hc'⟩)
    · exact absurd (congrArg ScopeId.index hc) hi
    · obtain rfl := ScopeId.mk.inj hc
      obtain rfl := ScopeId.mk.inj hc'
      exact .inr ⟨j + 1, rfl, rfl⟩
  · rintro c c' d d' (⟨rfl, rfl⟩ | ⟨j, rfl, rfl⟩) (⟨rfl, rfl⟩ | ⟨k, rfl, rfl⟩) <;>
      simp only [ScopeId.mk.injEq] <;> omega
  · rintro i i' ⟨j, hs, hs'⟩
    obtain rfl := SymbolId.mk.inj hs
    obtain rfl := SymbolId.mk.inj hs'
    exact ⟨j + 1, rfl, rfl⟩
  · rintro s s' t t' ⟨j, rfl, rfl⟩ ⟨k, rfl, rfl⟩
    simp only [SymbolId.mk.injEq]
    omega

/-- In the finished trees `S` and `S'`: scopes that `F` has already, and what is bound in them. -/
def within (C : Correspondence) (F S S' : ScopeTree) : Correspondence where
  place := C.place
  scope c c' := C.scope c c' ∧ F.Holds c
  symbol s s' := ∃ c c' n, (C.scope c c' ∧ F.Holds c) ∧ S.local? c n = some s ∧
    S'.local? c' n = some s'
  type := C.type

end Correspondence

open Correspondence

section Start

variable {R : Position → Position → Prop} {M : TypeId → TypeId → Prop} {T T' : TypeTable}
  {r r' : Stamping} {W : ScopeId → String → Prop}

theorem Stamping.AtRoot.exists_scope (hr : r.AtRoot T) :
    ∃ sc, r.tree.scope? ⟨0⟩ = some sc ∧ sc.parent = none ∧
      ∀ n, r.tree.local? ⟨0⟩ n = sc.names.lookup n := by
  obtain ⟨sc, hsc⟩ := hr.holds.exists_scope?
  have hroot := hr.root
  rw [ScopeTree.parent?, hsc] at hroot
  exact ⟨sc, hsc, hroot, fun n => by rw [ScopeTree.local?, hsc]; rfl⟩

theorem Stamping.AtRoot.parallel (hr : r.AtRoot T) (hr' : r'.AtRoot T')
    (hn : ∀ n, W ⟨0⟩ n → r.tree.local? ⟨0⟩ n = none)
    (hn' : ∀ n, W ⟨0⟩ n → r'.tree.local? ⟨0⟩ n = none) :
    r.Parallel (added R M r.tree r'.tree) W r' := by
  refine ⟨hr.holds, .inr ⟨0, rfl, rfl⟩, ⟨0, rfl, rfl⟩, ?_, ?_, ?_⟩
  · rintro c c' (⟨rfl, rfl⟩ | ⟨j, rfl, rfl⟩)
    · obtain ⟨sc, hsc, hparent, hnames⟩ := hr.exists_scope
      obtain ⟨sc', hsc', hparent', hnames'⟩ := hr'.exists_scope
      rw [hsc, hsc']
      refine .some ⟨?_, fun m hm => ?_⟩
      · rw [hparent, hparent']
        exact .none
      · rw [← hnames, ← hnames', hn m hm, hn' m hm]
        exact .none
    · have hnone : r.tree.scope? ⟨r.tree.scopes.size + j⟩ = none :=
        Array.getElem?_eq_none (Nat.le_add_right _ _)
      have hnone' : r'.tree.scope? ⟨r'.tree.scopes.size + j⟩ = none :=
        Array.getElem?_eq_none (Nat.le_add_right _ _)
      rw [hnone, hnone']
      exact .none
  · rintro s s' ⟨j, rfl, rfl⟩
    have hnone : r.tree.symbol? ⟨r.tree.symbols.size + j⟩ = none :=
      Array.getElem?_eq_none (Nat.le_add_right _ _)
    have hnone' : r'.tree.symbol? ⟨r'.tree.symbols.size + j⟩ = none :=
      Array.getElem?_eq_none (Nat.le_add_right _ _)
    rw [hnone, hnone']
    exact .none
  · rw [hr.working, hr'.working]

end Start

/-- The roots bind the same names, to signed symbols that can stand for one another. -/
structure ScopeTree.SameRoots (M : TypeId → TypeId → Prop) (S S' : ScopeTree) : Prop where
  names (n : String) : (S.local? ⟨0⟩ n).isSome = (S'.local? ⟨0⟩ n).isSome
  symbols {n : String} {s s' : SymbolId} : S.local? ⟨0⟩ n = some s → S'.local? ⟨0⟩ n = some s' →
    ∃ a a', S.symbol? s = some a ∧ S'.symbol? s' = some a' ∧ a.kind = a'.kind ∧ a.name = a'.name ∧
      Option.Rel M a.signature a'.signature ∧ a.signature.isSome ∧ a.isGlobal ∧ a'.isGlobal

namespace Stretch

variable {R : Position → Position → Prop} {M : TypeId → TypeId → Prop} {T T' : TypeTable}
  {S S' : ScopeTree} {r r₁ r' r₁' : Stamping} {d d₁ d' d₁' : Decl}

theorem parallel_stamp (hT : T.Reachable) (hT' : T'.Reachable) (hd : Stretch T S r r₁ d d₁)
    (hr' : r'.AtRoot T') (hn' : r'.tree.local? ⟨0⟩ d'.name.text = none)
    (h : Node.Corresponds (.unscoped R (T.Matches T')) (.decl d) (.decl d')) :
    Node.Corresponds (added R (T.Matches T') r.tree r'.tree) (.decl d₁)
        (.decl (d'.stamp T' ⟨0⟩ true r').1) ∧
      r₁.Parallel (added R (T.Matches T') r.tree r'.tree) (Watched d.name.text)
        (d'.stamp T' ⟨0⟩ true r').2 := by
  have hname : d.name.text = d'.name.text := h.declName
  have hcounting := counting_added (R := R) (M := T.Matches T') hd.before.holds hr'.holds
  have hnodes : Node.Corresponds (added R (T.Matches T') r.tree r'.tree) (.decl d) (.decl d') := by
    refine h.mono ?_ ?_ ?_
    · exact fun _ _ hp => hp
    · exact fun _ _ hc => hc.elim
    · exact fun _ _ ht => ht
  have hstart := hd.before.parallel (R := R) (M := T.Matches T') (W := Watched d.name.text) hr'
    (fun _ hn => hn rfl ▸ hd.fresh) fun _ hn => hn rfl ▸ hname ▸ hn'
  have hstamped := hnodes.stamp (W := Watched d.name.text) hcounting (tables_of_matches
    hT hT' rfl) (fun _ hc _ he => absurd he hc) hcounting.root (fun _ => rfl) true hstart
  simpa only [Node.stamp, hd.stamped] using hstamped

theorem local?_eq (hd : Stretch T S r r₁ d d₁) {c : ScopeId} (hc : r₁.tree.Holds c)
    (hroot : c ≠ ⟨0⟩) (n : String) : S.local? c n = r₁.tree.local? c n := by
  obtain ⟨ns, hns⟩ := hd.kept
  rw [ScopeTree.local?, hns.others hc hroot, ← ScopeTree.local?]

theorem parent?_eq (hd : Stretch T S r r₁ d d₁) {c : ScopeId} (hc : r₁.tree.Holds c) :
    S.parent? c = r₁.tree.parent? c := by
  obtain ⟨ns, hns⟩ := hd.kept
  by_cases hroot : c = ⟨0⟩
  · rw [hroot, hns.parent]
  · rw [ScopeTree.parent?, hns.others hc hroot, ← ScopeTree.parent?]

theorem wellFormed (hd : Stretch T S r r₁ d d₁) : S.WellFormed := by
  obtain ⟨ns, hns⟩ := hd.kept
  exact hns.wellFormed hd.after.wellFormed

/-- In the program the name of a declaration means what it declares. -/
theorem exists_symbol (hd : Stretch T S r r₁ d d₁) : ∃ s a, S.local? ⟨0⟩ d.name.text = some s ∧
    S.symbol? s = some a ∧ a.kind = d.kind ∧ a.name = d.name.text ∧ a.signature = d.signature ∧
      a.isGlobal := by
  obtain ⟨p, v, s, hs, ha⟩ := hd.binds
  obtain ⟨ns, hns⟩ := hd.kept
  exact ⟨s, _, hns.kept hs, hns.symbols ha, rfl, rfl, rfl, rfl⟩

section Twins

variable (hd : Stretch T S r r₁ d d₁) (hd' : Stretch T' S' r' r₁' d' d₁')
  (hparallel : r₁.Parallel (added R M r.tree r'.tree) (Watched d.name.text) r₁')
include hd hd'

theorem root_iff {c c' : ScopeId} (hc : (added R M r.tree r'.tree).scope c c') :
    c = ⟨0⟩ ↔ c' = ⟨0⟩ :=
  have hcounting := counting_added (R := R) (M := M) hd.before.holds hd'.before.holds
  hcounting.scope_unique hc hcounting.root

include hparallel

theorem holds_iff {c c' : ScopeId} (hc : (added R M r.tree r'.tree).scope c c') :
    r₁.tree.Holds c ↔ r₁'.tree.Holds c' := by
  have hcounting := counting_added (R := R) (M := M) hd.before.holds hd'.before.holds
  rcases hc with ⟨rfl, rfl⟩ | ⟨j, rfl, rfl⟩
  · exact iff_of_true hd.after.holds hd'.after.holds
  · have hpos : 0 < r₁.tree.scopes.size := hd.after.holds
    rcases hparallel.scopes with ⟨hzero, -⟩ | ⟨k, hk, hk'⟩
    · exact absurd (congrArg ScopeId.index hzero) (Nat.ne_of_gt hpos)
    · have hsize := ScopeId.mk.inj hk
      have hsize' := ScopeId.mk.inj hk'
      simp only [ScopeTree.Holds]
      omega

theorem isSome_local?_eq (hroots : S.SameRoots M S') {c c' : ScopeId}
    (hc : (added R M r.tree r'.tree).scope c c') (hheld : r₁.tree.Holds c) (n : String) :
    (S.local? c n).isSome = (S'.local? c' n).isSome := by
  have hroot := root_iff hd hd' hc
  by_cases he : c = ⟨0⟩
  · rw [he, hroot.mp he]
    exact hroots.names n
  · have hheld' := (hd.holds_iff hd' hparallel hc).mp hheld
    have hown := hparallel.own hc (m := n) fun h => absurd h he
    rw [hd.local?_eq hheld he, hd'.local?_eq hheld' fun h => he (hroot.mpr h)]
    generalize r₁.tree.local? c n = x, r₁'.tree.local? c' n = x' at hown
    cases hown <;> rfl

theorem parent_within {c c' : ScopeId}
    (hc : ((added R M r.tree r'.tree).within r₁.tree S S').scope c c') :
    Option.Rel ((added R M r.tree r'.tree).within r₁.tree S S').scope (S.parent? c)
      (S'.parent? c') := by
  obtain ⟨hc, hheld⟩ := hc
  have hheld' := (hd.holds_iff hd' hparallel hc).mp hheld
  have hparent := hparallel.parent hc
  rw [hd.parent?_eq hheld, hd'.parent?_eq hheld']
  generalize hx : r₁.tree.parent? c = x, r₁'.tree.parent? c' = x' at hparent
  cases hparent with
  | none => exact .none
  | some hp => exact .some ⟨hp, Nat.lt_trans (hd.after.wellFormed.parent_lt hx) hheld⟩

theorem own_within (hroots : S.SameRoots M S') {c c' : ScopeId}
    (hc : ((added R M r.tree r'.tree).within r₁.tree S S').scope c c') (n : String) :
    Option.Rel ((added R M r.tree r'.tree).within r₁.tree S S').symbol (S.local? c n)
      (S'.local? c' n) := by
  have hsome := hd.isSome_local?_eq hd' hparallel hroots hc.1 hc.2 n
  generalize hs : S.local? c n = x, hs' : S'.local? c' n = x' at hsome
  cases x with
  | none =>
    obtain rfl : x' = none := Option.not_isSome_iff_eq_none.mp (by simp [← hsome])
    exact .none
  | some s =>
    obtain ⟨s', rfl⟩ := Option.isSome_iff_exists.mp hsome.symm
    exact .some ⟨c, c', n, hc, hs, hs'⟩

/-- In the root the symbols can stand for one another; elsewhere they were declared alike. -/
theorem symbol_within (hR : KeepsOrder R) (hroots : S.SameRoots M S') {s s' : SymbolId}
    (hs : ((added R M r.tree r'.tree).within r₁.tree S S').symbol s s') :
    Option.Rel (fun a a' =>
        a.Corresponds ((added R M r.tree r'.tree).within r₁.tree S S') a' ∧
          ∀ p p', R p p' → a.visibleAt p = a'.visibleAt p') (S.symbol? s) (S'.symbol? s') := by
  obtain ⟨c, c', n, ⟨hc, hheld⟩, hs, hs'⟩ := hs
  have hroot := root_iff hd hd' hc
  by_cases he : c = ⟨0⟩
  · rw [he] at hs
    rw [hroot.mp he] at hs'
    obtain ⟨a, a', ha, ha', hkind, hname, hsig, -, hglobal, hglobal'⟩ := hroots.symbols hs hs'
    rw [ha, ha']
    refine .some ⟨⟨hkind, hname, hsig⟩, fun p p' _ => ?_⟩
    simp [Symbol.visibleAt, hglobal, hglobal']
  · have hheld' := (hd.holds_iff hd' hparallel hc).mp hheld
    rw [hd.local?_eq hheld he] at hs
    rw [hd'.local?_eq hheld' fun h => he (hroot.mpr h)] at hs'
    have hown := hparallel.own hc (m := n) fun h => absurd h he
    rw [hs, hs'] at hown
    cases hown with
    | some hss =>
      obtain ⟨a, ha, -⟩ := hd.after.wellFormed.bound hs
      obtain ⟨a', ha', -⟩ := hd'.after.wellFormed.bound hs'
      have hsymbol := hparallel.symbol? hss
      rw [ha, ha'] at hsymbol
      obtain ⟨ns, hns⟩ := hd.kept
      obtain ⟨ns', hns'⟩ := hd'.kept
      cases hsymbol with
      | some haa =>
        rw [hns.symbols ha, hns'.symbols ha']
        exact .some ⟨⟨haa.kind, haa.name, haa.signature⟩, haa.visibleAt_eq hR⟩

omit hparallel in
theorem unique_within {s s' t t' : SymbolId}
    (hs : ((added R M r.tree r'.tree).within r₁.tree S S').symbol s s')
    (ht : ((added R M r.tree r'.tree).within r₁.tree S S').symbol t t') : s = t ↔ s' = t' := by
  obtain ⟨c, c', n, ⟨hc, -⟩, hs, hs'⟩ := hs
  obtain ⟨e, e', m, ⟨he, -⟩, ht, ht'⟩ := ht
  have hiff := (counting_added hd.before.holds hd'.before.holds).scope_unique hc he
  constructor
  · rintro rfl
    obtain rfl := hd.wellFormed.unique hs ht
    obtain rfl := hd.wellFormed.name_eq hs ht
    obtain rfl := hiff.mp rfl
    exact Option.some.inj (hs'.symm.trans ht')
  · rintro rfl
    obtain rfl := hd'.wellFormed.unique hs' ht'
    obtain rfl := hd'.wellFormed.name_eq hs' ht'
    obtain rfl := hiff.mpr rfl
    exact Option.some.inj (hs.symm.trans ht)

/-- What the declaration sees in the one program corresponds to what it sees in the other. -/
theorem scopes (hR : KeepsOrder R) (hroots : S.SameRoots M S') :
    ((added R M r.tree r'.tree).within r₁.tree S S').Scopes S S' where
  wellFormed := hd.wellFormed
  wellFormed' := hd'.wellFormed
  parent := hd.parent_within hd' hparallel
  own := hd.own_within hd' hparallel hroots
  symbol := hd.symbol_within hd' hparallel hR hroots
  unique := hd.unique_within hd'

end Twins

/-- The scopes on the nodes are those that were there when the declaration was stamped. -/
theorem corresponds_within {C : Correspondence} (hd : Stretch T S r r₁ d d₁)
    (h : Node.Corresponds C (.decl d₁) (.decl d₁')) :
    Node.Corresponds (C.within r₁.tree S S') (.decl d₁) (.decl d₁') := by
  let D : Correspondence :=
    ⟨Eq, fun c e => c = e ∧ r₁.tree.Holds c, fun _ _ => False, fun t u => t = u⟩
  have hself : D.Reflects (Site.InRange r₁.tree) T := by
    refine ⟨fun _ => rfl, fun s hs => rel_self fun c hc => ⟨rfl, hs c hc⟩, fun _ _ => rfl⟩
  have hcomposes : D.Composes C (C.within r₁.tree S S') := by
    refine ⟨?_, ?_, ?_⟩
    · rintro p _ q rfl hq
      exact hq
    · rintro c _ e ⟨rfl, hc⟩ he
      exact ⟨he, hc⟩
    · rintro t _ u rfl hu
      exact hu
  exact (hself.hereditary_corresponds.decl d₁ hd.nodes).trans hcomposes h

end Stretch

section Programs

variable {T T' : TypeTable} {S S' : ScopeTree} {ds ds' : List Decl} {w : List Token}

theorem Decl.ReadAlike.kind_eq {d d' : Decl} (h : d.ReadAlike T T' d') : d.kind = d'.kind := by
  obtain ⟨R, -, h⟩ := h
  cases h <;> rfl

/-- Both programs have the same signed declarations, in whatever order. -/
structure SameDecls (T T' : TypeTable) (ds ds' : List Decl) : Prop where
  nodup : (ds.map fun d => d.name.text).Nodup → (ds'.map fun d => d.name.text).Nodup
  signed : ∀ d ∈ ds, d.signature.isSome
  forth : ∀ d ∈ ds, ∃ d' ∈ ds', d.ReadAlike T T' d'
  back : ∀ d' ∈ ds', ∃ d ∈ ds, d.ReadAlike T T' d'

/-- The declarations of a program bind their names in the root, and nothing else is bound there. -/
structure BoundInRoot (T : TypeTable) (S : ScopeTree) (ds : List Decl) : Prop where
  stretch : ∀ d ∈ ds, ∃ r r₁ d₁, Stretch T S r r₁ d d₁
  names (n : String) : n ∉ ds.map (fun d => d.name.text) → S.local? ⟨0⟩ n = none

theorem BoundInRoot.exists_decl (h : BoundInRoot T S ds) {n : String} {s : SymbolId}
    (hs : S.local? ⟨0⟩ n = some s) : ∃ d ∈ ds, d.name.text = n := by
  by_cases hn : n ∈ ds.map fun d => d.name.text
  · exact List.mem_map.mp hn
  · exact nomatch hs.symm.trans (h.names n hn)

theorem SameDecls.sameRoots (h : SameDecls T T' ds ds') (hS : BoundInRoot T S ds)
    (hS' : BoundInRoot T' S' ds') : S.SameRoots (T.Matches T') S' where
  names n := by
    by_cases hn : n ∈ ds.map fun d => d.name.text
    · obtain ⟨d, hd, rfl⟩ := List.mem_map.mp hn
      obtain ⟨d', hd', halike⟩ := h.forth d hd
      obtain ⟨_, _, _, hstretch⟩ := hS.stretch d hd
      obtain ⟨_, _, _, hstretch'⟩ := hS'.stretch d' hd'
      obtain ⟨s, a, hs, -⟩ := hstretch.exists_symbol
      obtain ⟨s', a', hs', -⟩ := hstretch'.exists_symbol
      rw [hs, halike.name_eq, hs', Option.isSome_some, Option.isSome_some]
    · have hn' : n ∉ ds'.map fun d => d.name.text := by
        intro hmem
        obtain ⟨d', hd', rfl⟩ := List.mem_map.mp hmem
        obtain ⟨d, hd, halike⟩ := h.back d' hd'
        exact hn (List.mem_map.mpr ⟨d, hd, halike.name_eq⟩)
      rw [hS.names n hn, hS'.names n hn']
  symbols {n t t'} ht ht' := by
    obtain ⟨d, hd, rfl⟩ := hS.exists_decl ht
    obtain ⟨d', hd', halike⟩ := h.forth d hd
    obtain ⟨_, _, _, hstretch⟩ := hS.stretch d hd
    obtain ⟨_, _, _, hstretch'⟩ := hS'.stretch d' hd'
    obtain ⟨s, a, hs, ha, hkind, hname, hsig, hglobal⟩ := hstretch.exists_symbol
    obtain ⟨s', a', hs', ha', hkind', hname', hsig', hglobal'⟩ := hstretch'.exists_symbol
    obtain rfl := Option.some.inj (hs.symm.trans ht)
    rw [halike.name_eq] at ht'
    obtain rfl := Option.some.inj (hs'.symm.trans ht')
    refine ⟨a, a', ha, ha', ?_, ?_, ?_, ?_, hglobal, hglobal'⟩
    · rw [hkind, hkind', halike.kind_eq]
    · rw [hname, hname', halike.name_eq]
    · rw [hsig, hsig']
      exact halike.signature
    · rw [hsig]
      exact h.signed d hd

/-- Declarations that are accepted elsewhere can be stamped in any order in which no name comes
twice. -/
theorem Decl.failure_stampAll_of_twins {r' : Stamping} (hT : T.Reachable) (hT' : T'.Reachable)
    (h : Reads T' w (.decls ds')) (hr' : r'.AtRoot T')
    (hnodup : (ds'.map fun d => d.name.text).Nodup)
    (hfresh : ∀ d' ∈ ds', r'.tree.local? ⟨0⟩ d'.name.text = none)
    (htwins : ∀ d' ∈ ds', ∃ r r₁ d d₁, Stretch T S r r₁ d d₁ ∧ d.ReadAlike T T' d') :
    (Decl.stampAll T' ⟨0⟩ true ds' r').2.failure = none := by
  induction ds' generalizing w r' with
  | nil => exact hr'.working
  | cons d' ds' ih =>
    cases h with
    | moreDecls hd' hds' =>
      obtain ⟨hn', hfresh⟩ := List.forall_mem_cons.mp hfresh
      obtain ⟨⟨r, r₁, d, d₁, hstretch, R, -, halike⟩, htwins⟩ := List.forall_mem_cons.mp htwins
      obtain ⟨hnot, hnodup⟩ := List.nodup_cons.mp hnodup
      obtain ⟨-, hparallel⟩ := hstretch.parallel_stamp hT hT' hr' hn' halike
      have hworking : (d'.stamp T' ⟨0⟩ true r').2.failure = none := by
        have hsome := hparallel.failure
        rw [hstretch.after.working, Option.isSome_none, eq_comm, Option.isSome_eq_false_iff,
          Option.isNone_iff_eq_none] at hsome
        exact hsome
      have hstretch' := stretch_of_stamp hT' hd' hr' (Prod.ext rfl rfl) hworking ⟨[], .refl _ _⟩
      refine ih hds' hstretch'.after hnodup (fun e he => ?_) htwins
      have hne : e.name.text ∉ [d'.name.text] := fun hmem =>
        hnot (List.mem_map.mpr ⟨e, he, List.mem_singleton.mp hmem⟩)
      rw [hstretch'.advances.names hne]
      exact hfresh e he

end Programs

end FrontEnd
