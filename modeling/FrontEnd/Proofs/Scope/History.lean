import Mathlib.Logic.Relation
import FrontEnd.Proofs.Scope.Held
import FrontEnd.Proofs.Scope.Records
import FrontEnd.Proofs.Scope.Renaming

/-! The trees of scopes that come about: from the empty one, scopes are opened and symbols are
bound, and it may be that a name is taken already. What holds of every such tree, and what later
steps keep of it. -/

namespace FrontEnd.ScopeTree

variable {S S' S'' : ScopeTree} {c d : ScopeId} {n : String} {s : SymbolId}

/-- The tree once it was tried to bind `a` in the scope `c`. -/
def attempt (S : ScopeTree) (c : ScopeId) (a : Symbol) : ScopeTree :=
  match S.bind c a with
  | .ok (_, S') => S'
  | .error _ => S

/-- One operation on a tree, with scopes that the tree has. -/
inductive Step (S : ScopeTree) : ScopeTree → Prop where
  | push (place : Position) (parent : Option ScopeId) (h : ∀ d ∈ parent, S.Holds d) :
      S.Step (S.push place parent).2
  | bind (c : ScopeId) (a : Symbol) (h : S.Holds c) : S.Step (S.attempt c a)

def HasEntry (S : ScopeTree) (c : ScopeId) (n : String) (s : SymbolId) : Prop :=
  ∃ sc, S.scope? c = some sc ∧ (n, s) ∈ sc.names

/-- From parent to parent, the way from `c` goes through the scopes `cs` and ends at a root. -/
inductive RootPath (S : ScopeTree) : ScopeId → List ScopeId → Prop where
  | root {c : ScopeId} {sc : Scope} (hc : S.scope? c = some sc) (hroot : sc.parent = none) :
      RootPath S c [c]
  | parent {c d : ScopeId} {sc : Scope} {ds : List ScopeId} (hc : S.scope? c = some sc)
      (hd : sc.parent = some d) (h : RootPath S d ds) : RootPath S c (c :: ds)

/-- Parents are older than their children, every way up ends at a root, the names of a scope are
distinct and stand for symbols with these names, and every symbol is bound in one scope. -/
structure Intact (S : ScopeTree) : Prop where
  parent_lt {c d : ScopeId} {sc : Scope} : S.scope? c = some sc → sc.parent = some d →
    d.index < c.index
  ends {c : ScopeId} : S.Holds c → S.RootPath c (S.chain c)
  distinct {c : ScopeId} {sc : Scope} : S.scope? c = some sc → (sc.names.map Prod.fst).Nodup
  named {c : ScopeId} {n : String} {s : SymbolId} : S.HasEntry c n s →
    S.HoldsSymbol s ∧ ∃ a, S.symbol? s = some a ∧ a.name = n
  owned {s : SymbolId} : S.HoldsSymbol s → ∃! c, ∃ n, S.HasEntry c n s

/-- The symbols of `S` are in `S'` as they were, each bound where it was and nowhere else. -/
structure Preserved (S S' : ScopeTree) : Prop where
  symbol {s : SymbolId} : S.HoldsSymbol s → S'.symbol? s = S.symbol? s
  entry {c : ScopeId} {n : String} {s : SymbolId} : S.HoldsSymbol s →
    (S'.HasEntry c n s ↔ S.HasEntry c n s)

/-- What steps from `S` to `S'` do. -/
structure Develops (S S' : ScopeTree) : Prop where
  gains : ∃ os bs, S.Gains S' os bs
  wellFormed : S.WellFormed → S'.WellFormed
  wellNamed : S.WellNamed → S'.WellNamed

theorem Develops.refl (S : ScopeTree) : S.Develops S := ⟨⟨[], [], .refl S⟩, id, id⟩

theorem Develops.trans (h : S.Develops S') (h' : S'.Develops S'') : S.Develops S'' where
  gains := by
    obtain ⟨os, bs, hg⟩ := h.gains
    obtain ⟨os', bs', hg'⟩ := h'.gains
    exact ⟨_, _, hg.trans hg'⟩
  wellFormed hS := h'.wellFormed (h.wellFormed hS)
  wellNamed hS := h'.wellNamed (h.wellNamed hS)

theorem attempt_of_ok {a : Symbol} (h : S.bind c a = .ok (s, S')) : S.attempt c a = S' := by
  rw [attempt, h]

theorem attempt_of_error {a : Symbol} (h : S.bind c a = .error s) : S.attempt c a = S := by
  rw [attempt, h]

theorem Step.develops (h : S.Step S') : S.Develops S' := by
  cases h with
  | push place parent hp =>
    exact ⟨⟨_, _, .of_push S place parent⟩, fun hS => hS.push hp,
      (extends_push S place parent).wellNamed⟩
  | bind c a hc =>
    cases hb : S.bind c a with
    | error s =>
      rw [attempt_of_error hb]
      exact .refl S
    | ok r =>
      obtain ⟨s, S'⟩ := r
      rw [attempt_of_ok hb]
      exact ⟨⟨_, _, .of_bind hb hc⟩, fun hS => hS.bind hb hc, (extends_bind hb).wellNamed⟩

theorem develops_of_steps (h : Relation.ReflTransGen Step S S') : S.Develops S' := by
  induction h with
  | refl => exact .refl S
  | tail _ hstep ih => exact ih.trans hstep.develops

theorem wellFormed_of_steps (h : Relation.ReflTransGen Step empty S) : S.WellFormed :=
  (develops_of_steps h).wellFormed
    ⟨fun h => by simp [empty, parent?, scope?] at h, fun h => by simp [empty, local?, scope?] at h,
      fun h => by simp [empty, local?, scope?] at h⟩

theorem wellNamed_of_steps (h : Relation.ReflTransGen Step empty S) : S.WellNamed :=
  (develops_of_steps h).wellNamed wellNamed_empty

theorem WellNamed.hasEntry_iff (h : S.WellNamed) : S.HasEntry c n s ↔ S.local? c n = some s :=
  h.local?_eq_some.symm

theorem WellFormed.rootPath (h : S.WellFormed) (hc : S.Holds c) : S.RootPath c (S.chain c) := by
  -- a parent is older, so the way up ends
  induction hk : c.index using Nat.strong_induction_on generalizing c with
  | h k ih =>
    obtain ⟨sc, hsc⟩ := hc.exists_scope?
    have hparent : S.parent? c = sc.parent := by rw [parent?, hsc, Option.bind_some]
    cases hp : sc.parent with
    | none =>
      rw [chain_of_root (hparent.trans hp)]
      exact .root hsc hp
    | some d =>
      have hlt := h.parent_lt (hparent.trans hp)
      have hd : S.Holds d := Nat.lt_trans hlt hc
      rw [chain_of_parent h (hparent.trans hp)]
      exact .parent hsc hp (ih d.index (hk ▸ hlt) hd rfl)

theorem exists_local?_of_gains {os : List (ScopeId × Position × Option ScopeId)}
    {bs : List (ScopeId × Symbol)} (h : empty.Gains S os bs) (hs : S.HoldsSymbol s) :
    ∃ c n, S.local? c n = some s := by
  have hlt : s.index < bs.length := by
    have hsize : S.symbols.size = 0 + bs.length := h.size_symbols
    have hs : s.index < S.symbols.size := hs
    omega
  refine ⟨bs[s.index].1, bs[s.index].2.name,
    h.names.mpr (.inr ⟨s.index, bs[s.index].2, ?_, ?_, rfl⟩)⟩
  · exact (Nat.zero_add _).symm
  · exact List.getElem?_eq_getElem hlt

theorem intact_of_steps (h : Relation.ReflTransGen Step empty S) : S.Intact := by
  have hw := wellFormed_of_steps h
  have hn := wellNamed_of_steps h
  refine ⟨fun hc hd => hw.parent_lt (by rw [parent?, hc, Option.bind_some, hd]), hw.rootPath,
    hn.nodup, fun {c n s} he => ?_, fun {s} hs => ?_⟩
  · obtain ⟨a, ha, hname⟩ := hw.bound (hn.hasEntry_iff.mp he)
    exact ⟨(Array.getElem?_eq_some_iff.mp ha).1, a, ha, hname⟩
  · obtain ⟨os, bs, hg⟩ := (develops_of_steps h).gains
    obtain ⟨c, n, hc⟩ := exists_local?_of_gains hg hs
    refine ⟨c, ⟨n, hn.hasEntry_iff.mpr hc⟩, ?_⟩
    rintro d ⟨m, hd⟩
    exact hw.unique (hn.hasEntry_iff.mp hd) hc

theorem preserved_of_steps (hn : S.WellNamed) (h : Relation.ReflTransGen Step S S') :
    S.Preserved S' := by
  have hdevelops := develops_of_steps h
  obtain ⟨os, bs, hg⟩ := hdevelops.gains
  refine ⟨fun {s} hs => ?_, fun {c n s} hs => ?_⟩
  · rw [symbol?, symbol?, ← Array.getElem?_toList, hg.symbols, List.getElem?_append_left hs,
      Array.getElem?_toList]
  · rw [(hdevelops.wellNamed hn).hasEntry_iff, hn.hasEntry_iff, hg.names]
    refine or_iff_left ?_
    -- what is bound later has a larger number
    rintro ⟨j, a, hj, -⟩
    have hlt : s.index < S.symbols.size := hs
    omega

/-- Every tree is as it should be, and all later ones agree with it on its symbols. -/
theorem intact_and_preserved (h : Relation.ReflTransGen Step empty S) :
    S.Intact ∧ ∀ S', Relation.ReflTransGen Step S S' → S.Preserved S' :=
  ⟨intact_of_steps h, fun _ h' => preserved_of_steps (wellNamed_of_steps h) h'⟩

/-- A root with a global `x`, and a scope inside it. -/
def nested : ScopeTree where
  scopes := #[⟨.origin, none, [("x", ⟨0⟩)]⟩, ⟨⟨12, 0, 12⟩, some ⟨0⟩, []⟩]
  symbols := #[⟨.var, "x", ⟨4, 0, 4⟩, ⟨4, 0, 4⟩, true, none⟩]

theorem steps_nested : Relation.ReflTransGen Step empty nested := by
  have hroot : Step empty (empty.push .origin none).2 := .push _ none fun _ h => nomatch h
  have hinner := Step.push (S := (empty.push .origin none).2) ⟨12, 0, 12⟩ (some ⟨0⟩) (by decide)
  have hbind := Step.bind (S := ((empty.push .origin none).2.push ⟨12, 0, 12⟩ (some ⟨0⟩)).2) ⟨0⟩
    ⟨.var, "x", ⟨4, 0, 4⟩, ⟨4, 0, 4⟩, true, none⟩ (by decide)
  exact ((Relation.ReflTransGen.single hroot).tail hinner).tail hbind

/-- A second `x` in the inner scope leaves the first as it is. -/
theorem intact_and_preserved_of_shadowed : nested.Holds ⟨1⟩ ∧ nested.Intact ∧
    nested.Preserved (nested.attempt ⟨1⟩ ⟨.var, "x", ⟨16, 0, 16⟩, ⟨22, 0, 22⟩, false, none⟩) := by
  have hinner : nested.Holds ⟨1⟩ := by decide
  have hall := intact_and_preserved steps_nested
  exact ⟨hinner, hall.1, hall.2 _ (.single (.bind ⟨1⟩ _ hinner))⟩

end FrontEnd.ScopeTree
