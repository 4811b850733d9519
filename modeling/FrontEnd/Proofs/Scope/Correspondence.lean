import FrontEnd.Proofs.Checks
import FrontEnd.Proofs.Syntax.Correspondence
import FrontEnd.Proofs.Scope.Likeness
import FrontEnd.Proofs.Types.Matching

/-! Names in trees of scopes that correspond. If corresponding names are looked up with
corresponding symbols, the check of all names takes the same course in both programs. -/

namespace FrontEnd

variable {C : Correspondence}

/-- Symbols that can stand for one another once they are found. -/
structure Symbol.Corresponds (C : Correspondence) (a a' : Symbol) : Prop where
  kind : a.kind = a'.kind
  name : a.name = a'.name
  signature : Option.Rel C.type a.signature a'.signature

namespace Correspondence

/-- In the trees `S` and `S'` corresponding names mean corresponding symbols. -/
structure Trees (C : Correspondence) (S S' : ScopeTree) : Prop where
  lookup {c c' : ScopeId} {p p' : Position} (hc : C.scope c c') (hp : C.place p p') (n : String) :
    Option.Rel C.symbol (S.lookup c n p) (S'.lookup c' n p')
  own {c c' : ScopeId} (hc : C.scope c c') (n : String) :
    Option.Rel C.symbol (S.local? c n) (S'.local? c' n)
  symbol {s s' : SymbolId} (hs : C.symbol s s') :
    Option.Rel (Symbol.Corresponds C) (S.symbol? s) (S'.symbol? s')
  unique {s s' t t' : SymbolId} (hs : C.symbol s s') (ht : C.symbol t t') : s = t ↔ s' = t'

variable {S S' : ScopeTree} {s s' : SymbolId} {P P' : List SymbolId}

theorem Trees.contains_eq (h : C.Trees S S') (hs : C.symbol s s')
    (hP : List.Forall₂ C.symbol P P') : P.contains s = P'.contains s' := by
  induction hP with
  | nil => rfl
  | cons ht _ ih =>
    have hiff := h.unique hs ht
    simp only [List.contains_cons, ih, beq_eq_decide, hiff]

theorem Trees.ownSymbol? (h : C.Trees S S') {site site' : Site} (hs : site.Corresponds C site')
    {n n' : Token} (hn : n.Like C.place n') :
    Option.Rel C.symbol (site.ownSymbol? S n) (site'.ownSymbol? S' n') := by
  have hscope := hs.scope
  unfold Site.ownSymbol?
  rw [← hn.text]
  generalize site.scope = x, site'.scope = x' at hscope
  cases hscope with
  | none => exact .none
  | some hc => exact h.own hc _

theorem rel_filter {α β : Type} {R : α → β → Prop} {x : Option α} {y : Option β} {p : α → Bool}
    {q : β → Bool} (h : Option.Rel R x y) (hpq : ∀ a b, R a b → p a = q b) :
    Option.Rel R (x.filter p) (y.filter q) := by
  cases h with
  | none => exact .none
  | @some a b hab =>
    have he := hpq a b hab
    simp only [Option.filter, he]
    split
    · exact .some hab
    · exact .none

theorem rel_append_toList {x : Option SymbolId} {x' : Option SymbolId}
    (h : Option.Rel C.symbol x x') (hP : List.Forall₂ C.symbol P P') :
    List.Forall₂ C.symbol (x.toList ++ P) (x'.toList ++ P') := by
  cases h with
  | none => exact hP
  | some hs => exact .cons hs hP

end Correspondence

/-- Scopes of the trees `S` and `S'` that correspond, with all that is bound in them and around
them. -/
structure Correspondence.Scopes (C : Correspondence) (S S' : ScopeTree) : Prop where
  wellFormed : S.WellFormed
  wellFormed' : S'.WellFormed
  parent {c c' : ScopeId} (hc : C.scope c c') : Option.Rel C.scope (S.parent? c) (S'.parent? c')
  own {c c' : ScopeId} (hc : C.scope c c') (n : String) :
    Option.Rel C.symbol (S.local? c n) (S'.local? c' n)
  symbol {s s' : SymbolId} (hs : C.symbol s s') :
    Option.Rel (fun a a' => a.Corresponds C a' ∧
      ∀ p p', C.place p p' → a.visibleAt p = a'.visibleAt p') (S.symbol? s) (S'.symbol? s')
  unique {s s' t t' : SymbolId} (hs : C.symbol s s') (ht : C.symbol t t') : s = t ↔ s' = t'

namespace Correspondence.Scopes

variable {S S' : ScopeTree} (h : C.Scopes S S')
include h

theorem visible? {c c' : ScopeId} (hc : C.scope c c') (n : String) {p p' : Position}
    (hp : C.place p p') : Option.Rel C.symbol (S.visible? c n p) (S'.visible? c' n p') := by
  refine rel_filter (h.own hc n) fun s s' hs => ?_
  have hsymbol := h.symbol hs
  generalize S.symbol? s = x, S'.symbol? s' = x' at hsymbol
  cases hsymbol with
  | none => rfl
  | some ha => rw [Option.map_some, Option.map_some, ha.2 p p' hp]

/-- From scopes that correspond a name is looked up through parents that correspond. -/
theorem lookup {c c' : ScopeId} (hc : C.scope c c') (n : String) {p p' : Position}
    (hp : C.place p p') : Option.Rel C.symbol (S.lookup c n p) (S'.lookup c' n p') := by
  generalize hi : c.index = i
  induction i using Nat.strongRecOn generalizing c c' with
  | ind i ih =>
    have hvisible := h.visible? hc n hp
    cases hv : S.visible? c n p with
    | some s =>
      cases hv' : S'.visible? c' n p' with
      | some s' =>
        rw [ScopeTree.lookup_of_visible hv, ScopeTree.lookup_of_visible hv', ← hv, ← hv']
        exact hvisible
      | none =>
        rw [hv, hv'] at hvisible
        exact nomatch hvisible
    | none =>
      have hv' : S'.visible? c' n p' = none := eq_none_of_rel (hv ▸ hvisible)
      have hparent := h.parent hc
      cases hd : S.parent? c with
      | none =>
        have hd' : S'.parent? c' = none := eq_none_of_rel (hd ▸ hparent)
        rw [ScopeTree.lookup_of_root hd, ScopeTree.lookup_of_root hd']
        exact hvisible
      | some d =>
        have hlt := h.wellFormed.parent_lt hd
        rw [hd] at hparent
        generalize hd' : S'.parent? c' = x at hparent
        cases hparent with
        | @some _ d' hdd =>
          rw [ScopeTree.lookup_of_parent h.wellFormed hd hv,
            ScopeTree.lookup_of_parent h.wellFormed' hd' hv']
          exact ih d.index (hi ▸ hlt) hdd rfl

theorem trees : C.Trees S S' where
  lookup hc hp n := h.lookup hc n hp
  own := h.own
  symbol {s s'} hs := by
    have hsymbol := h.symbol hs
    generalize S.symbol? s = x, S'.symbol? s' = x' at hsymbol ⊢
    cases hsymbol with
    | none => exact .none
    | some ha => exact .some ha.1
  unique := h.unique

end Correspondence.Scopes

theorem Correspondence.tables_of_matches {T T' : TypeTable} (hT : T.Reachable)
    (hT' : T'.Reachable) (hC : C.type = T.Matches T') : C.Tables T T' := by
  constructor
  · intro p
    rw [hC]
    exact hT.matches_primitive hT' p
  · intro a a' b b' ha hb
    rw [hC] at ha hb
    exact ha.same_eq hT hT' hb
  · intro a a' ha
    rw [hC] at ha
    exact ha.shown_eq hT hT'
  · intro a a' ha
    rw [hC] at ha ⊢
    exact ha.rel_function?

namespace KeepsOrder

variable {R Q : Position → Position → Prop}

theorem flip (hR : KeepsOrder R) : KeepsOrder fun p q => R q p :=
  fun p p' q q' hp hq => (hR p' p q' q hp hq).symm

theorem comp (hR : KeepsOrder R) (hQ : KeepsOrder Q) :
    KeepsOrder fun p r => ∃ q, R p q ∧ Q q r := by
  rintro p p' q q' ⟨o, hpo, hop⟩ ⟨u, hqu, huq⟩
  exact (hR p o q u hpo hqu).trans (hQ o p' u q' hop huq)

theorem eq : KeepsOrder Eq := by
  rintro p _ q _ rfl rfl
  exact Iff.rfl

end KeepsOrder

def Correspondence.unscoped (R : Position → Position → Prop) (M : TypeId → TypeId → Prop) :
    Correspondence := ⟨R, fun _ _ => False, fun _ _ => False, M⟩

/-- The declarations are read from the same tokens, in the same order, with types that match. -/
def Decl.ReadAlike (T T' : TypeTable) (d d' : Decl) : Prop :=
  ∃ R, KeepsOrder R ∧
    Node.Corresponds (.unscoped R (T.Matches T')) (.decl d) (.decl d')

namespace Decl.ReadAlike

variable {T T' T'' : TypeTable} {d d' d'' : Decl}

theorem symm (hT : T.Reachable) (h : d.ReadAlike T T' d') : d'.ReadAlike T' T d := by
  obtain ⟨R, hR, h⟩ := h
  have hinverts : (Correspondence.unscoped R (T.Matches T')).Inverts
      (.unscoped (fun p q => R q p) (T'.Matches T)) :=
    ⟨fun _ _ => id, fun _ _ => id, fun _ _ ht => ht.symm hT⟩
  exact ⟨_, hR.flip, h.symm hinverts⟩

theorem trans (hT : T.Reachable) (h : d.ReadAlike T T' d') (h' : d'.ReadAlike T' T'' d'') :
    d.ReadAlike T T'' d'' := by
  obtain ⟨R, hR, h⟩ := h
  obtain ⟨Q, hQ, h'⟩ := h'
  have hcomposes : (Correspondence.unscoped R (T.Matches T')).Composes
      (.unscoped Q (T'.Matches T'')) (.unscoped (fun p r => ∃ q, R p q ∧ Q q r) (T.Matches T'')) :=
    ⟨fun _ q _ hp hq => ⟨q, hp, hq⟩, fun _ _ _ hc => hc.elim, fun _ _ _ ht hu => ht.trans hT hu⟩
  exact ⟨_, hR.comp hQ, h.trans hcomposes h'⟩

theorem name_eq (h : d.ReadAlike T T' d') : d.name.text = d'.name.text := by
  obtain ⟨R, -, h⟩ := h
  exact h.declName

theorem signature (h : d.ReadAlike T T' d') :
    Option.Rel (T.Matches T') d.signature d'.signature := by
  obtain ⟨R, -, h⟩ := h
  exact h.declSignature

end Decl.ReadAlike

namespace Node.Corresponds

open Correspondence

variable {S S' : ScopeTree} {P P' : List SymbolId}

theorem checkName (hS : C.Trees S S') {e e' : Expr} (h : e.Corresponds C e')
    (hP : List.Forall₂ C.symbol P P') :
    Alike (Diagnostic.Like C.place) Eq (e.checkName S P) (e'.checkName S' P') := by
  have hname := h.name?
  have hscope : Option.Rel C.scope e.scope e'.scope := h.site.scope
  unfold Expr.checkName
  generalize e.name? = x, e'.name? = x' at hname
  cases hname with
  | none => exact .ok rfl
  | @some t t' ht =>
    generalize e.scope = y, e'.scope = y' at hscope
    cases hscope with
    | none => exact .error ⟨by rw [ht.text], ht.place⟩
    | @some c c' hc =>
      have hlookup := hS.lookup hc ht.place t.text
      have hfound := rel_filter (p := fun s => !P.contains s) (q := fun s => !P'.contains s)
        hlookup fun s s' hs => by rw [hS.contains_eq hs hP]
      simp only [ht.text] at hfound ⊢
      generalize (S.lookup c t'.text t.place).filter (fun s => !P.contains s) = z,
        (S'.lookup c' t'.text t'.place).filter (fun s => !P'.contains s) = z' at hfound
      cases hfound with
      | none => exact .error ⟨rfl, ht.place⟩
      | some _ => exact .ok rfl

theorem checkNames (hS : C.Trees S S') {a a' : Node} (h : a.Corresponds C a')
    (hP : List.Forall₂ C.symbol P P') :
    Alike (Diagnostic.Like C.place) Eq (a.checkNames S P) (a'.checkNames S' P') := by
  induction h generalizing P P' with
  | leaf hs hk => exact ((leaf hs hk).checkName hS hP).bind fun _ _ _ => .ok rfl
  | binary hs hk ha hb iha ihb =>
    exact ((binary hs hk ha hb).checkName hS hP).bind fun _ _ _ =>
      (iha hP).bind fun _ _ _ => ihb hP
  | unary hs hk ha iha => exact ((unary hs hk ha).checkName hS hP).bind fun _ _ _ => iha hP
  | call hs hf has ihf ihas =>
    exact ((call hs hf has).checkName hS hP).bind fun _ _ _ =>
      (ihf hP).bind fun _ _ _ => ihas hP
  | block hs hss ihss => exact ((block hs hss).checkName hS hP).bind fun _ _ _ => ihss hP
  | ifThen hs hc ha ihc iha =>
    exact ((ifThen hs hc ha).checkName hS hP).bind fun _ _ _ =>
      (ihc hP).bind fun _ _ _ => iha hP
  | ifElse hs hc ha hb ihc iha ihb =>
    exact ((ifElse hs hc ha hb).checkName hS hP).bind fun _ _ _ =>
      (ihc hP).bind fun _ _ _ => (iha hP).bind fun _ _ _ => ihb hP
  | result hs ha iha => exact ((result hs ha).checkName hS hP).bind fun _ _ _ => iha hP
  | noExpr => exact .ok rfl
  | moreExprs _ _ ihe ihes => exact (ihe hP).bind fun _ _ _ => ihes hP
  | evaluated _ _ ihe => exact ihe hP
  | assigned _ _ _ ihl ihe => exact (ihl hP).bind fun _ _ _ => ihe hP
  | declared _ _ ihd => exact ihd hP
  | noStmt => exact .ok rfl
  | moreStmts _ _ iha ihas => exact (iha hP).bind fun _ _ _ => ihas hP
  | var hs hn _ _ _ ihe => exact ihe (rel_append_toList (hS.ownSymbol? hs hn) hP)
  | fn _ _ _ _ _ ihe => exact ihe hP
  | noDecl => exact .ok rfl
  | moreDecls _ _ ihd ihds => exact (ihd hP).bind fun _ _ _ => ihds hP

end Node.Corresponds

section Like

variable {R : Position → Position → Prop} (hR : KeepsOrder R) {S S' : ScopeTree} (hS : S.Like R S')
include hR hS

theorem ScopeTree.Like.trees : (Correspondence.sameScopes R Eq).Trees S S' where
  lookup {c _ p p'} hc hp n := by
    obtain rfl := hc
    exact rel_eq_iff.mpr (hS.lookup_eq hR c n hp)
  own {c _} hc n := by
    obtain rfl := hc
    exact rel_eq_iff.mpr (hS.local?_eq c n)
  symbol {s _} hs := by
    obtain rfl := hs
    have hsymbol := hS.symbol? s
    generalize S.symbol? s = x, S'.symbol? s = x' at hsymbol
    cases hsymbol with
    | none => exact .none
    | some ha => exact .some ⟨ha.kind, ha.name, rel_eq_iff.mpr ha.signature⟩
  unique {s _ t _} hs ht := by
    obtain rfl := hs
    obtain rfl := ht
    exact Iff.rfl

theorem Node.Like.checkNames {a a' : Node} (h : a.Like R Eq a') (P : List SymbolId) :
    Alike (Diagnostic.Like R) Eq (a.checkNames S P) (a'.checkNames S' P) :=
  h.corresponds.checkNames (hS.trees hR) (List.forall₂_same.mpr fun _ _ => rfl)

end Like

end FrontEnd
