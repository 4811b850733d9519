import FrontEnd.Proofs.Scope.Growth
import FrontEnd.Proofs.Syntax.Visits
import FrontEnd.Proofs.Types.Held

/-! The ids in a tree of scopes. While scopes are built, whether or not that comes to its end, every
id that is kept in the tree or on a node is one of a scope, a symbol or a type that is there. -/

namespace FrontEnd

namespace ScopeTree

variable {S S' : ScopeTree} {T : TypeTable} {c d : ScopeId} {a : Symbol} {n : String}
  {s i : SymbolId} {p : Position}

def HoldsSymbol (S : ScopeTree) (s : SymbolId) : Prop := s.index < S.symbols.size

/-- Parents are older scopes, names are bound to symbols of the tree, and symbols have types of the
table. -/
structure Closed (S : ScopeTree) (T : TypeTable) : Prop where
  parents {c d : ScopeId} {sc : Scope} : S.scope? c = some sc → sc.parent = some d →
    d.index < c.index
  names {c : ScopeId} {sc : Scope} : S.scope? c = some sc →
    ∀ x ∈ sc.names, S.HoldsSymbol x.2
  types {s : SymbolId} {a : Symbol} : S.symbol? s = some a → ∀ t ∈ a.signature, T.Holds t

theorem Holds.exists_scope? (h : S.Holds c) : ∃ sc, S.scope? c = some sc :=
  ⟨_, Array.getElem?_eq_getElem h⟩

theorem HoldsSymbol.exists_symbol? (h : S.HoldsSymbol s) : ∃ a, S.symbol? s = some a :=
  ⟨_, Array.getElem?_eq_getElem h⟩

theorem closed_empty : ScopeTree.empty.Closed T where
  parents h := by simp [ScopeTree.empty, scope?] at h
  names h := by simp [ScopeTree.empty, scope?] at h
  types h := by simp [ScopeTree.empty, symbol?] at h

theorem Closed.push (h : S.Closed T) {parent : Option ScopeId} (hp : ∀ d ∈ parent, S.Holds d) :
    (S.push p parent).2.Closed T := by
  constructor
  · intro c d sc hc hd
    by_cases hnew : c = (S.push p parent).1
    · subst hnew
      rw [scope?_push_self] at hc
      obtain rfl := Option.some.inj hc
      exact hp d hd
    · rw [scope?_push_of_ne hnew] at hc
      exact h.parents hc hd
  · intro c sc hc
    by_cases hnew : c = (S.push p parent).1
    · subst hnew
      rw [scope?_push_self] at hc
      obtain rfl := Option.some.inj hc
      exact fun x hx => nomatch hx
    · rw [scope?_push_of_ne hnew] at hc
      exact h.names hc
  · exact h.types

theorem Closed.bind (h : S.Closed T) (hb : S.bind c a = .ok (i, S'))
    (ha : ∀ t ∈ a.signature, T.Holds t) : S'.Closed T := by
  obtain ⟨-, rfl, -⟩ := of_bind_ok hb
  have hscope {d : ScopeId} {sc' : Scope} (hd : S'.scope? d = some sc') :
      ∃ sc, S.scope? d = some sc ∧ sc'.parent = sc.parent ∧
        ∀ x ∈ sc'.names, x.2 = ⟨S.symbols.size⟩ ∨ x ∈ sc.names := by
    by_cases hdc : d = c
    · subst hdc
      rw [scope?_bind_self hb] at hd
      obtain ⟨sc, hsc, rfl⟩ := Option.map_eq_some_iff.mp hd
      refine ⟨sc, hsc, rfl, fun x hx => ?_⟩
      rcases List.mem_cons.mp hx with rfl | hx
      · exact .inl rfl
      · exact .inr hx
    · rw [scope?_bind_of_ne hb hdc] at hd
      exact ⟨sc', hd, rfl, fun x hx => .inr hx⟩
  have hsize := size_symbols_bind hb
  constructor
  · intro e d sc hc hd
    obtain ⟨sc', hsc', hparent, -⟩ := hscope hc
    exact h.parents hsc' (hparent ▸ hd)
  · intro e sc hc x hx
    obtain ⟨sc', hsc', -, hnames⟩ := hscope hc
    rcases hnames x hx with he | hx
    · rw [HoldsSymbol, he, hsize]
      exact Nat.lt_succ_self _
    · have hlt : x.2.index < S.symbols.size := h.names hsc' x hx
      exact Nat.lt_of_lt_of_le hlt (by omega)
  · intro s b hs
    by_cases he : s = ⟨S.symbols.size⟩
    · rw [he, symbol?_bind_self hb] at hs
      obtain rfl := Option.some.inj hs
      exact ha
    · rw [symbol?_bind_of_ne hb he] at hs
      exact h.types hs

/-- What is looked up on the way from a scope to its root is there. -/
def climbsWithin (S : ScopeTree) : Nat → ScopeId → Bool
  | 0, _ => false
  | k + 1, c =>
    match S.scope? c with
    | none => false
    | some sc => sc.names.all (fun x => (S.symbol? x.2).isSome) &&
        sc.parent.all (S.climbsWithin k)

theorem Closed.climbsWithin (h : S.Closed T) (hc : S.Holds c) {k : Nat} (hk : c.index < k) :
    S.climbsWithin k c = true := by
  induction k generalizing c with
  | zero => omega
  | succ k ih =>
    obtain ⟨sc, hsc⟩ := hc.exists_scope?
    simp only [ScopeTree.climbsWithin, hsc, Bool.and_eq_true, List.all_eq_true,
      Option.all_eq_true]
    refine ⟨fun x hx => ?_, fun d hd => ?_⟩
    · obtain ⟨a, ha⟩ := (h.names hsc x hx).exists_symbol?
      rw [ha]
      rfl
    · have hlt := h.parents hsc hd
      exact ih (Nat.lt_trans hlt hc) (by omega)

end ScopeTree

end FrontEnd
