import Mathlib.Data.List.Perm.Basic
import FrontEnd.Compilation
import FrontEnd.Proofs.Compilation.Joined
import FrontEnd.Proofs.Typing.Twins

/-! Signed declarations in another order. Places, scopes, symbols and types all get other numbers;
what is accepted, and what each declaration looks like then, stays the same. -/

namespace FrontEnd

namespace Stamping

/-- The root has been opened. -/
def start : Stamping := { tree := (ScopeTree.empty.push .origin none).2 }

theorem atRoot_start (T : TypeTable) : start.AtRoot T where
  closed := ScopeTree.closed_empty.push fun _ hd => nomatch hd
  holds := ScopeTree.holds_push _ _ _
  working := rfl
  root := ScopeTree.parent?_push_self
  wellFormed := Program.wellFormed_empty.push fun _ hd => nomatch hd

theorem local?_start (n : String) : start.tree.local? ⟨0⟩ n = none := ScopeTree.local?_push_self

end Stamping

section Stages

variable {T T' : TypeTable} {S S' : ScopeTree} {p p' : Program} {ds ds' ds₁ : List Decl}
  {r : Stamping} {q : Annotating} {w w' : List Token} {c c' : Compilation}

theorem TypeContext.inRange_start {F : ScopeTree} (hS : S.Closed T) :
    TypeContext.InRange (Site.InRange F) S T { scopes := S, types := T } :=
  ⟨rfl, rfl, hS, fun _ hx => (nomatch hx), fun _ hx => nomatch hx⟩

/-- The declarations of a program in its finished scopes. -/
structure Built (T : TypeTable) (S : ScopeTree) (ds ds₁ : List Decl) : Prop
    extends BoundInRoot T S ds where
  closed : S.Closed T
  stretches : Stretches T S .start ds ds₁ { tree := S }

theorem built_of_stampAll (hT : T.Reachable) (h : Reads T w (.decls ds))
    (hds : Decl.stampAll T ⟨0⟩ true ds .start = (ds₁, { tree := S })) : Built T S ds ds₁ := by
  have hstart := Stamping.atRoot_start T
  have hstretches := stretches_of_stampAll hT h hstart hds rfl ⟨[], .refl _ _⟩
  have hranged : (Node.decls ds).InRange Stamping.start.tree T :=
    Node.Everywhere.imp (h.refers hT) fun _ hb => hb.imp fun _ hs c hc => nomatch hs.symm.trans hc
  have hleads := Node.stamps_decls hT ds true hstart.toReady hranged
  simp only [Node.stamp, hds] at hleads
  refine ⟨⟨fun d hd => ?_, fun n hn => ?_⟩, hleads.ready.closed, hstretches⟩
  · obtain ⟨d₁, -, r, r₁, hstretch⟩ := exists_mem_of_forall₂ hstretches.forall₂ hd
    exact ⟨r, r₁, d₁, hstretch⟩
  · exact (hstretches.names hn).trans (Stamping.local?_start n)

theorem Program.buildScopes_eq (h : Decl.stampAll T ⟨0⟩ true p.decls .start = (ds₁, r)) :
    p.buildScopes T .empty = (⟨ds₁, some ⟨0⟩⟩, r) :=
  congrArg (fun x : List Decl × Stamping => ((⟨x.1, some ⟨0⟩⟩, x.2) : Program × Stamping)) h

/-- All passes over the declarations of a program succeed. -/
structure Program.Passes (T : TypeTable) (p : Program) (ds₁ : List Decl) (q : Annotating)
    (c : Compilation) : Prop where
  stamped : Decl.stampAll T ⟨0⟩ true p.decls .start = (ds₁, { tree := c.scopes })
  checked : ∀ d₁ ∈ ds₁, d₁.checkNames c.scopes [] = .ok ()
  typed : Decl.annotateAll none ds₁ { context := { scopes := c.scopes, types := T } } =
    (c.program.decls, q)
  working : q.failure = none
  types : c.types = T

theorem Program.exists_passes (h : p.analyse T = .ok c) : ∃ ds₁ q, p.Passes T ds₁ q c := by
  obtain ⟨⟨ds₁, S, failure⟩, hds⟩ : ∃ x, x = Decl.stampAll T ⟨0⟩ true p.decls .start := ⟨_, rfl⟩
  unfold Program.analyse at h
  rw [Program.buildScopes_eq hds.symm] at h
  cases failure with
  | some => exact nomatch h
  | none =>
    dsimp only at h
    split at h
    next => exact nomatch h
    next hchecked =>
      obtain ⟨⟨es, q⟩, hes⟩ : ∃ x, x =
        Decl.annotateAll none ds₁ { context := { scopes := S, types := T } } := ⟨_, rfl⟩
      simp only [Program.annotate, ← hes] at h
      split at h
      next => exact nomatch h
      next hq =>
        obtain ⟨rfl, hworking⟩ := Prod.mk.inj hq
        obtain rfl := Except.ok.inj h
        exact ⟨ds₁, q, hds.symm, forM_eq_ok.mp hchecked, hes.symm, hworking, rfl⟩

theorem Program.analyse_eq
    (hds : Decl.stampAll T ⟨0⟩ true p.decls .start = (ds₁, { tree := S }))
    (hchecked : ∀ d₁ ∈ ds₁, d₁.checkNames S [] = .ok ())
    (htyped : Decl.annotateAll none ds₁ { context := { scopes := S, types := T } } = (ds, q))
    (hq : q.failure = none) : p.analyse T = .ok ⟨⟨ds, some ⟨0⟩⟩, T, S⟩ := by
  have hnames : Program.checkDefinitions S ⟨ds₁, some ⟨0⟩⟩ = .ok () := forM_eq_ok.mpr hchecked
  unfold Program.analyse
  rw [Program.buildScopes_eq hds]
  dsimp only
  rw [hnames]
  simp only [Program.annotate, htyped, hq]

theorem Program.exists_analyse
    (hds : Decl.stampAll T ⟨0⟩ true p.decls .start = (ds₁, { tree := S }))
    (hchecked : ∀ d₁ ∈ ds₁, d₁.checkNames S [] = .ok ())
    (htyped : (Decl.annotateAll none ds₁ { context := { scopes := S, types := T } }).2.failure =
      none) : ∃ c, p.analyse T = .ok c := ⟨_, Program.analyse_eq hds hchecked rfl htyped⟩

theorem Program.Passes.analyse_eq (h : p.Passes T ds₁ q c) :
    p.analyse T = .ok ⟨⟨c.program.decls, some ⟨0⟩⟩, T, c.scopes⟩ :=
  Program.analyse_eq h.stamped h.checked h.typed h.working

theorem Program.Passes.built (h : p.Passes T ds₁ q c) (hT : T.Reachable)
    (hp : Reads T w (.decls p.decls)) : Built T c.scopes p.decls ds₁ :=
  built_of_stampAll hT hp h.stamped

theorem Program.Passes.accepted (h : p.Passes T ds₁ q c) (hT : T.Reachable)
    (hp : Reads T w (.decls p.decls)) :
    List.Forall₂ (Decl.AcceptedAs T c.scopes) p.decls c.program.decls := by
  have hbuilt := h.built hT hp
  exact hbuilt.stretches.accepted hT (TypeContext.inRange_start hbuilt.closed) h.checked h.typed
    h.working

/-- If one of two programs with the same signed declarations is accepted, so is the other. -/
theorem SameDecls.exists_analyse (h : SameDecls T T' p.decls p'.decls) (hT : T.Reachable)
    (hT' : T'.Reachable) (hp : Reads T w (.decls p.decls)) (hp' : Reads T' w' (.decls p'.decls))
    (hc : p.analyse T = .ok c) : ∃ c', p'.analyse T' = .ok c' := by
  obtain ⟨ds₁, q, hpasses⟩ := Program.exists_passes hc
  have hbuilt := hpasses.built hT hp
  have htwins : ∀ d' ∈ p'.decls, ∃ r r₁ d d₁, Stretch T c.scopes r r₁ d d₁ ∧
      d.ReadAlike T T' d' := by
    intro d' hd'
    obtain ⟨d, hd, halike⟩ := h.back d' hd'
    obtain ⟨r, r₁, d₁, hstretch⟩ := hbuilt.stretch d hd
    exact ⟨r, r₁, d, d₁, hstretch, halike⟩
  have hstamped := Decl.failure_stampAll_of_twins hT hT' hp' (Stamping.atRoot_start T')
    (h.nodup hbuilt.stretches.nodup.1) (fun d' _ => Stamping.local?_start _) htwins
  obtain ⟨⟨ds₁', S', failure⟩, hds'⟩ : ∃ x, x = Decl.stampAll T' ⟨0⟩ true p'.decls .start :=
    ⟨_, rfl⟩
  rw [← hds'] at hstamped
  obtain rfl : failure = none := hstamped
  have hbuilt' := built_of_stampAll hT' hp' hds'.symm
  have hroots := h.sameRoots hbuilt.toBoundInRoot hbuilt'.toBoundInRoot
  have haccepted : ∀ d' ∈ p'.decls, ∃ d e : Decl, d.AcceptedAs T c.scopes e ∧
      d.ReadAlike T T' d' := by
    intro d' hd'
    obtain ⟨d, hd, halike⟩ := h.back d' hd'
    obtain ⟨e, -, he⟩ := exists_mem_of_forall₂ (hpasses.accepted hT hp) hd
    exact ⟨d, e, he, halike⟩
  obtain ⟨hchecked, htyped⟩ := hbuilt'.stretches.of_twins hT hT'
    (TypeContext.inRange_start hbuilt'.closed) hroots haccepted
  exact Program.exists_analyse hds'.symm hchecked htyped

end Stages

section Lists

variable {α β β' γ : Type} {P : α → β → Prop} {P' : α → β' → Prop} {as as' : List α} {bs : List β}
  {bs' : List β'} {f : β → γ} {f' : β' → γ} {g : α → γ}

/-- What two lists make of the same things in another order is told by one function of the things if
they make the same of each. -/
theorem exists_common_map [Inhabited γ] (hp : as.Perm as') (h : List.Forall₂ P as bs)
    (h' : List.Forall₂ P' as' bs') (hf : ∀ a b b', P a b → P' a b' → f b = f' b') :
    ∃ g : α → γ, bs.map f = as.map g ∧ bs'.map f' = as'.map g := by
  classical
  let g (a : α) : γ := if ha : ∃ b, P a b then f ha.choose else default
  have hg : ∀ a ∈ as, ∀ b', P' a b' → f' b' = g a := by
    intro a ha b' hb'
    have hsome := exists_of_mem_forall₂ h ha
    have hchoose : g a = f hsome.choose := dif_pos hsome
    rw [hchoose, hf a _ b' hsome.choose_spec hb']
  refine ⟨g, map_eq_map_of_forall₂ h fun a ha b hb => ?_,
    map_eq_map_of_forall₂ h' fun a ha => hg a (hp.symm.subset ha)⟩
  obtain ⟨b', hb'⟩ := exists_of_mem_forall₂ h' (hp.subset ha)
  rw [hf a b b' hb hb', hg a ha b' hb']

end Lists

section Sources

variable {T T' : TypeTable} {source : String} {sources sources' : List String} {d d' : Decl}
  {ds ds' : List Decl}

theorem Decl.IsReadFrom.signed (h : d.IsReadFrom T source) : d.signature.isSome := by
  obtain ⟨d₀, T₀, -, hsigned, halike⟩ := h
  have hsignature := halike.signature
  generalize d₀.signature = x, d.signature = y at hsignature hsigned
  cases hsignature with
  | none => exact nomatch hsigned
  | some _ => rfl

theorem Decl.IsReadFrom.readAlike (h : d.IsReadFrom T source) (h' : d'.IsReadFrom T' source)
    (hT : T.Reachable) : d.ReadAlike T T' d' := by
  obtain ⟨d₀, T₀, hp, -, halike⟩ := h
  obtain ⟨d₀', T₀', hp', -, halike'⟩ := h'
  obtain ⟨hparsed, rfl⟩ := Prod.mk.inj (hp.symm.trans hp')
  obtain rfl : d₀ = d₀' := by
    have hdecls := congrArg Program.decls (Except.ok.inj hparsed)
    exact List.head_eq_of_cons_eq hdecls
  exact (halike.symm (Program.reachable_of_parse_initial hp)).trans hT halike'

theorem map_name_eq (h : List.Forall₂ (Decl.ReadAlike T T') ds ds') :
    ds'.map (fun d => d.name.text) = ds.map fun d => d.name.text :=
  map_eq_map_of_forall₂ h fun _ _ _ h => h.name_eq.symm

/-- Joined in another order, the sources are read as the same declarations. -/
theorem sameDecls_of_perm (hT : T.Reachable) (hp : sources.Perm sources')
    (hds : List.Forall₂ (Decl.IsReadFrom T) sources ds)
    (hds' : List.Forall₂ (Decl.IsReadFrom T') sources' ds') : SameDecls T T' ds ds' := by
  obtain ⟨xs, hxs, hperm⟩ := List.perm_comp_forall₂ hp hds'
  have hsources : List.Forall₂ (fun d s => d.IsReadFrom T s) ds sources := hds.flip
  have hpair : ∀ d s x, Decl.IsReadFrom T s d → Decl.IsReadFrom T' s x → d.ReadAlike T T' x :=
    fun _ _ _ hd hx => Decl.IsReadFrom.readAlike hd hx hT
  have halike : List.Forall₂ (Decl.ReadAlike T T') ds xs := forall₂_comp hpair hsources hxs
  refine ⟨fun hnodup => ?_, fun d hd => ?_, fun d hd => ?_, fun d' hd' => ?_⟩
  · rw [← map_name_eq halike] at hnodup
    exact (hperm.map _).nodup hnodup
  · obtain ⟨s, -, hs⟩ := exists_mem_of_forall₂ hsources hd
    exact Decl.IsReadFrom.signed hs
  · obtain ⟨d', hd', h⟩ := exists_mem_of_forall₂ halike hd
    exact ⟨d', hperm.subset hd', h⟩
  · obtain ⟨d, hd, h⟩ := exists_mem_of_forall₂ halike.flip (hperm.symm.subset hd')
    exact ⟨d, hd, h⟩

end Sources

/-- What each declaration of a program adds to the text that shows it. -/
def Compilation.parts (c : Compilation) : List String :=
  c.program.decls.map fun d => String.join ((d.outline c.types 1).map OutlineLine.shown)

theorem Compilation.dump_eq (c : Compilation) :
    c.program.dump c.types = OutlineLine.shown ⟨0, "Program"⟩ ++ String.join c.parts := by
  have hparts (ds : List Decl) :
      String.join ((ds.flatMap (Decl.outline c.types 1)).map OutlineLine.shown) =
        String.join (ds.map fun d => String.join ((d.outline c.types 1).map OutlineLine.shown)) := by
    induction ds with
    | nil => rfl
    | cons d ds ih =>
      rw [List.flatMap_cons, List.map_append, String.join_append, List.map_cons, String.join_cons, ih]
  simp only [Program.dump, Program.outline, List.map_cons, String.join_cons, hparts, parts]

section Orders

variable {sources sources' : List String}

theorem compile_of_parse {source : String} {p : Program} {T : TypeTable}
    (h : Program.parse source .initial = (.ok p, T)) : compile source = p.analyse T := by
  simp only [compile, h]

theorem exists_compile_of_perm (h : ∀ s ∈ sources, IsSigned s) (hp : sources.Perm sources')
    (hc : ∃ c, compile ("\n".intercalate sources) = .ok c) :
    ∃ c, compile ("\n".intercalate sources') = .ok c := by
  have h' : ∀ s ∈ sources', IsSigned s := fun s hs => h s (hp.symm.subset hs)
  obtain ⟨ds, T, hparse, hds⟩ := Program.exists_parse_joined h
  obtain ⟨ds', T', hparse', hds'⟩ := Program.exists_parse_joined h'
  have hT := Program.reachable_of_parse_initial hparse
  have hT' := Program.reachable_of_parse_initial hparse'
  obtain ⟨-, hreads, -⟩ := Program.reads_of_parse hparse
  obtain ⟨-, hreads', -⟩ := Program.reads_of_parse hparse'
  obtain ⟨c, hc⟩ := hc
  rw [compile_of_parse hparse] at hc
  rw [compile_of_parse hparse']
  have hsame : SameDecls T T' (⟨ds, none⟩ : Program).decls (⟨ds', none⟩ : Program).decls :=
    sameDecls_of_perm hT hp hds hds'
  exact hsame.exists_analyse hT hT' hreads hreads' hc

/-- In the compiled program the source stands as the declaration `e`. -/
def Decl.ComesOutAs (c : Compilation) (source : String) (e : Decl) : Prop :=
  ∃ d : Decl, d.IsReadFrom c.types source ∧ d.AcceptedAs c.types c.scopes e

/-- Each of the sources comes out as a declaration of the program. -/
theorem exists_comesOutAs {c : Compilation} (h : ∀ s ∈ sources, IsSigned s)
    (hc : compile ("\n".intercalate sources) = .ok c) : ∃ ds, c.types.Reachable ∧
      List.Forall₂ (Decl.IsReadFrom c.types) sources ds ∧ BoundInRoot c.types c.scopes ds ∧
      List.Forall₂ (Decl.ComesOutAs c) sources c.program.decls := by
  obtain ⟨ds, T, hparse, hds⟩ := Program.exists_parse_joined h
  have hT := Program.reachable_of_parse_initial hparse
  obtain ⟨-, hreads, -⟩ := Program.reads_of_parse hparse
  rw [compile_of_parse hparse] at hc
  obtain ⟨ds₁, q, hpasses⟩ := Program.exists_passes hc
  have hbuilt := hpasses.built hT hreads
  have haccepted := hpasses.accepted hT hreads
  obtain rfl := hpasses.types
  refine ⟨ds, hT, hds, hbuilt.toBoundInRoot, ?_⟩
  exact forall₂_comp (fun _ d _ hd he => ⟨d, hd, he⟩) hds haccepted

/-- The order of signed declarations does not matter. A program is accepted if and only if it is in
another order, and then what each source adds to the dump is the same. -/
theorem compile_joined_of_perm {sources sources' : List String} (h : ∀ s ∈ sources, IsSigned s)
    (hp : sources.Perm sources') :
    ((∃ c, compile ("\n".intercalate sources) = .ok c) ↔
      ∃ c', compile ("\n".intercalate sources') = .ok c') ∧
    ∀ c c', compile ("\n".intercalate sources) = .ok c →
      compile ("\n".intercalate sources') = .ok c' →
        ∃ part : String → String, c.parts = sources.map part ∧ c'.parts = sources'.map part := by
  have h' : ∀ s ∈ sources', IsSigned s := fun s hs => h s (hp.symm.subset hs)
  refine ⟨⟨exists_compile_of_perm h hp, exists_compile_of_perm h' hp.symm⟩, fun c c' hc hc' => ?_⟩
  obtain ⟨ds, hT, hread, hbound, hout⟩ := exists_comesOutAs h hc
  obtain ⟨ds', hT', hread', hbound', hout'⟩ := exists_comesOutAs h' hc'
  have hroots := (sameDecls_of_perm hT hp hread hread').sameRoots hbound hbound'
  refine exists_common_map hp hout hout' ?_
  rintro s e e' ⟨d, hd, he⟩ ⟨d', hd', he'⟩
  have halike := Decl.IsReadFrom.readAlike hd hd' hT
  rw [he.outline_eq he' hT hT' halike hroots]

/-- A function with a variable of its own that is not signed, behind or before what uses it. -/
theorem compile_joined_of_reversed : ∃ sources c c',
    sources = ["of Int var x = f(2);",
      "of [Int] -> Int fun f(n) = \x7b var m = n; return m + x; \x7d;"] ∧
    compile ("\n".intercalate sources) = .ok c ∧
    compile ("\n".intercalate sources.reverse) = .ok c' ∧
    ∃ part : String → String, c.parts = sources.map part ∧ c'.parts = sources.reverse.map part := by
  have hsigned : ∀ s ∈ ["of Int var x = f(2);",
      "of [Int] -> Int fun f(n) = \x7b var m = n; return m + x; \x7d;"], IsSigned s := by
    simp only [List.forall_mem_cons, isSigned_iff]
    refine ⟨?_, ?_, fun _ hs => nomatch hs⟩ <;> cbv
  have hcompiled : (compile ("\n".intercalate ["of Int var x = f(2);",
      "of [Int] -> Int fun f(n) = \x7b var m = n; return m + x; \x7d;"])).map
        (fun c => c.program.decls.length) = .ok 2 := by cbv
  obtain ⟨c, hc, -⟩ := except_map_eq_ok.mp hcompiled
  obtain ⟨hiff, hparts⟩ := compile_joined_of_perm hsigned (List.reverse_perm _).symm
  obtain ⟨c', hc'⟩ := hiff.mp ⟨c, hc⟩
  exact ⟨_, c, c', rfl, hc, hc', hparts c c' hc hc'⟩

end Orders

end FrontEnd
