import FrontEnd.Proofs.Scope.Twins
import FrontEnd.Proofs.Syntax.Outlines
import FrontEnd.Proofs.Typing.Correspondence
import FrontEnd.Proofs.Typing.InRange

/-! One declaration checked and typed in two programs. The types that were inferred before it came
are those of variables it cannot see, so the programs may have inferred quite different ones. -/

namespace FrontEnd

open Correspondence

/-- The names in a declaration are found, and its expressions obey the rules of typing. Before it
came types were inferred for what is bound in the scopes of `r` only. -/
structure Accepted (T : TypeTable) (S : ScopeTree) (r r₁ : Stamping) (X : TypeContext)
    (d d₁ : Decl) : Prop extends Stretch T S r r₁ d d₁ where
  context : X.InRange (Site.InRange r.tree) S T
  checked : d₁.checkNames S [] = .ok ()
  typed : (d₁.annotate none { context := X }).2.failure = none

/-- In its program the declaration is accepted, and comes out as `e`. -/
def Decl.AcceptedAs (T : TypeTable) (S : ScopeTree) (d e : Decl) : Prop :=
  ∃ r r₁ X d₁, Accepted T S r r₁ X d d₁ ∧ (d₁.annotate none { context := X }).1 = e

variable {T T' : TypeTable} {S S' : ScopeTree} {r r₁ r₂ r' r₁' r₂' : Stamping}
  {X X' : TypeContext} {d d₁ d' d₁' e e' : Decl}

theorem TypeContext.InRange.mono {F G : ScopeTree} (hX : X.InRange (Site.InRange F) S T)
    (h : F.scopes.size ≤ G.scopes.size) : X.InRange (Site.InRange G) S T := by
  refine ⟨hX.types, hX.scopes, hX.symbols, hX.inferred, fun x hx => ?_⟩
  obtain ⟨site, n, hsite, hown⟩ := hX.owned x hx
  exact ⟨site, n, fun c hc => (hsite c hc).mono h, hown⟩

theorem TypeContext.InRange.lookup_eq_none {F : ScopeTree} {c : ScopeId} {n : String} {s : SymbolId}
    (hX : X.InRange (Site.InRange F) S T) (hS : S.WellFormed) (hs : S.local? c n = some s)
    (hc : ¬F.Holds c) : X.inferred.lookup s = none := by
  cases hl : X.inferred.lookup s with
  | none => rfl
  | some t =>
    obtain ⟨l₁, l₂, he, -⟩ := List.lookup_eq_some_iff.mp hl
    have hmem := List.mem_append_right l₁ (List.mem_cons_self (a := (s, t)) (l := l₂))
    obtain ⟨site, m, hsite, hown⟩ := hX.owned (s, t) (he ▸ hmem)
    obtain ⟨b, hb, hm⟩ := Option.bind_eq_some_iff.mp hown
    obtain rfl := hS.unique hs hm
    exact absurd (hsite c hb) hc

namespace Stretch

variable {R : Position → Position → Prop} (hd : Stretch T S r r₁ d d₁)
  (hd' : Stretch T' S' r' r₁' d' d₁')
include hd hd'

/-- Whatever was inferred before, it is not for what the declaration adds; and in the roots all is
signed. -/
theorem contexts (hT : T.Reachable) (hT' : T'.Reachable) (hR : KeepsOrder R)
    (hparallel : r₁.Parallel (added R (T.Matches T') r.tree r'.tree) (Watched d.name.text) r₁')
    (hroots : S.SameRoots (T.Matches T') S') (hX : X.InRange (Site.InRange r.tree) S T)
    (hX' : X'.InRange (Site.InRange r'.tree) S' T') :
    ((added R (T.Matches T') r.tree r'.tree).within r₁.tree S S').Contexts X X' := by
  have hscopes := hd.scopes hd' hparallel hR hroots
  refine ⟨?_, ?_, ?_⟩
  · rw [hX.scopes, hX'.scopes]
    exact hscopes.trees
  · rw [hX.types, hX'.types]
    exact tables_of_matches hT hT' rfl
  · rintro s s' ⟨c, c', n, ⟨hc, -⟩, hs, hs'⟩ hnone
    rcases hc with ⟨rfl, rfl⟩ | ⟨j, rfl, rfl⟩
    · obtain ⟨a, a', ha, -, -, -, -, hsigned, -⟩ := hroots.symbols hs hs'
      rw [hX.scopes, ha, Option.bind_some] at hnone
      rw [hnone] at hsigned
      exact nomatch hsigned
    · have hnew : ¬r.tree.Holds ⟨r.tree.scopes.size + j⟩ :=
        Nat.not_lt.mpr (Nat.le_add_right _ _)
      have hnew' : ¬r'.tree.Holds ⟨r'.tree.scopes.size + j⟩ :=
        Nat.not_lt.mpr (Nat.le_add_right _ _)
      rw [hX.lookup_eq_none hscopes.wellFormed hs hnew,
        hX'.lookup_eq_none hscopes.wellFormed' hs' hnew']
      exact .none

/-- Two declarations that are read alike correspond when their names are checked, and when types are
written on them. -/
theorem exists_contexts (hT : T.Reachable) (hT' : T'.Reachable) (h : d.ReadAlike T T' d')
    (hroots : S.SameRoots (T.Matches T') S') (hX : X.InRange (Site.InRange r.tree) S T)
    (hX' : X'.InRange (Site.InRange r'.tree) S' T') : ∃ C : Correspondence,
      C.Tables T T' ∧ C.Contexts X X' ∧ Node.Corresponds C (.decl d₁) (.decl d₁') := by
  obtain ⟨R, hR, h⟩ := h
  have hstamped := hd.parallel_stamp hT hT' hd'.before hd'.fresh h
  rw [hd'.stamped] at hstamped
  obtain ⟨hnodes, hparallel⟩ := hstamped
  have hcontexts := hd.contexts hd' hT hT' hR hparallel hroots hX hX'
  exact ⟨_, tables_of_matches hT hT' rfl, hcontexts, hd.corresponds_within hnodes⟩

end Stretch

namespace Accepted

variable (hd : Accepted T S r r₁ X d d₁) (hT : T.Reachable) (hT' : T'.Reachable)
  (h : d.ReadAlike T T' d') (hroots : S.SameRoots (T.Matches T') S')
include hd hT hT' h hroots

theorem twin (hd' : Stretch T' S' r' r₁' d' d₁') (hX' : X'.InRange (Site.InRange r'.tree) S' T') :
    Accepted T' S' r' r₁' X' d' d₁' := by
  obtain ⟨C, -, hcontexts, hnodes⟩ := hd.exists_contexts hd' hT hT' h hroots hd.context hX'
  refine ⟨hd', hX', ?_, ?_⟩
  · have htrees := hcontexts.trees
    rw [hd.context.scopes, hX'.scopes] at htrees
    have hnames := hnodes.checkNames htrees .nil
    simp only [Node.checkNames, hd.checked] at hnames
    exact hnames.eq_ok
  · have hstart : C.Runs { context := X } { context := X' } := ⟨hcontexts, .none⟩
    obtain ⟨-, hruns⟩ := hnodes.annotate .none hstart
    have hsome := hruns.isSome_eq
    simp only [Node.annotate, hd.typed] at hsome
    rwa [Option.isSome_none, eq_comm, Option.isSome_eq_false_iff, Option.isNone_iff_eq_none]
      at hsome

theorem outline_eq (hd' : Accepted T' S' r' r₁' X' d' d₁') (depth : Nat) :
    (d₁.annotate none { context := X }).1.outline T depth =
      (d₁'.annotate none { context := X' }).1.outline T' depth := by
  obtain ⟨C, htables, hcontexts, hnodes⟩ :=
    hd.exists_contexts hd'.toStretch hT hT' h hroots hd.context hd'.context
  have hstart : C.Runs { context := X } { context := X' } := ⟨hcontexts, .none⟩
  obtain ⟨htyped, -⟩ := hnodes.annotate .none hstart
  exact htyped.outline_eq (fun _ _ ht => htables.shown ht) depth 0

end Accepted

/-- Declarations that are read alike look alike once they are accepted. -/
theorem Decl.AcceptedAs.outline_eq (hd : d.AcceptedAs T S e) (hd' : d'.AcceptedAs T' S' e')
    (hT : T.Reachable) (hT' : T'.Reachable) (h : d.ReadAlike T T' d')
    (hroots : S.SameRoots (T.Matches T') S') (depth : Nat) :
    e.outline T depth = e'.outline T' depth := by
  obtain ⟨_, _, _, _, hd, rfl⟩ := hd
  obtain ⟨_, _, _, _, hd', rfl⟩ := hd'
  exact hd.outline_eq hT hT' h hroots hd' depth

section Programs

variable {ds ds₁ es : List Decl} {q : Annotating}

/-- After a declaration types are inferred for what was bound before, and for its own variables. -/
theorem Accepted.context_after (hT : T.Reachable) (hd : Accepted T S r r₁ X d d₁) :
    (d₁.annotate none { context := X }).2.context.InRange (Site.InRange r₁.tree) S T := by
  have hX := hd.context.mono hd.advances.size
  have hstart : Annotating.InRange (Site.InRange r₁.tree) S T { context := X } := hX
  have hgoing : Annotating.Discerning (Site.InRange r₁.tree) S T { context := X } :=
    ⟨hstart, fun _ h => nomatch h⟩
  exact ((Node.hereditary_annotates hT).decl d₁ none hgoing hd.nodes).1.inRange

theorem Annotating.eq_of_failure {q : Annotating} (hq : q.failure = none) :
    q = { context := q.context } := by
  cases q
  exact congrArg _ hq

namespace Stretches

/-- In a program that is accepted every declaration is, one after the other. -/
theorem accepted (hT : T.Reachable) (h : Stretches T S r ds ds₁ r₂)
    (hX : X.InRange (Site.InRange r.tree) S T) (hchecked : ∀ d₁ ∈ ds₁, d₁.checkNames S [] = .ok ())
    (hes : Decl.annotateAll none ds₁ { context := X } = (es, q)) (hq : q.failure = none) :
    List.Forall₂ (Decl.AcceptedAs T S) ds es := by
  induction h generalizing X es with
  | nil =>
    obtain ⟨rfl, -⟩ := Prod.mk.inj hes
    exact .nil
  | @cons r r₁ r₂ d d₁ ds ds₁ hd _ ih =>
    obtain ⟨hfirst, hrest⟩ := List.forall_mem_cons.mp hchecked
    obtain ⟨rfl, rfl⟩ := Prod.mk.inj hes
    have haccepted : Accepted T S r r₁ X d d₁ :=
      ⟨hd, hX, hfirst, Decl.failure_of_annotateAll rfl hq⟩
    refine .cons ⟨r, r₁, X, d₁, haccepted, rfl⟩ (ih (haccepted.context_after hT) hrest ?_)
    rw [← Annotating.eq_of_failure haccepted.typed]

/-- Declarations that are accepted elsewhere are accepted here, in whatever order they come. -/
theorem of_twins (hT : T.Reachable) (hT' : T'.Reachable) (h : Stretches T' S' r' ds ds₁ r₂')
    (hX' : X'.InRange (Site.InRange r'.tree) S' T') (hroots : S.SameRoots (T.Matches T') S')
    (htwins : ∀ d' ∈ ds, ∃ d e : Decl, d.AcceptedAs T S e ∧ d.ReadAlike T T' d') :
    (∀ d₁ ∈ ds₁, d₁.checkNames S' [] = .ok ()) ∧
      (Decl.annotateAll none ds₁ { context := X' }).2.failure = none := by
  induction h generalizing X' with
  | nil => exact ⟨fun _ hd => (nomatch hd), rfl⟩
  | @cons r' r₁' r₂' d' d₁' ds ds₁ hd' _ ih =>
    obtain ⟨⟨d, e, ⟨_, _, X, d₁, hd, -⟩, halike⟩, htwins⟩ := List.forall_mem_cons.mp htwins
    have haccepted := hd.twin hT hT' halike hroots hd' hX'
    obtain ⟨hchecked, htyped⟩ := ih (haccepted.context_after hT') htwins
    refine ⟨List.forall_mem_cons.mpr ⟨haccepted.checked, hchecked⟩, ?_⟩
    simp only [Decl.annotateAll]
    rwa [Annotating.eq_of_failure haccepted.typed]

end Stretches

end Programs

end FrontEnd
