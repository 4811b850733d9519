import FrontEnd.Proofs.Checks
import FrontEnd.Scope.Definitions

/-! Looking a name up from a scope: what the scope itself shows, and behind that what its parent
shows. A name is found if it means a symbol that is not pending. -/

namespace FrontEnd

namespace ScopeTree

variable {S : ScopeTree} {c d : ScopeId} {n m : String} {p : Position} {s : SymbolId}

def parent? (S : ScopeTree) (c : ScopeId) : Option ScopeId := (S.scope? c).bind Scope.parent

/-- Parents are older than their children, and a symbol is bound once, under its own name. -/
structure WellFormed (S : ScopeTree) : Prop where
  parent_lt {c d : ScopeId} : S.parent? c = some d → d.index < c.index
  bound {c : ScopeId} {n : String} {s : SymbolId} : S.local? c n = some s →
    ∃ d, S.symbol? s = some d ∧ d.name = n
  unique {c d : ScopeId} {n m : String} {s : SymbolId} : S.local? c n = some s →
    S.local? d m = some s → c = d

theorem WellFormed.name_eq (h : S.WellFormed) (hc : S.local? c n = some s)
    (hd : S.local? d m = some s) : n = m := by
  obtain ⟨a, ha, rfl⟩ := h.bound hc
  obtain ⟨b, hb, rfl⟩ := h.bound hd
  rw [Option.some.inj (ha.symm.trans hb)]

theorem visible?_eq_some : S.visible? c n p = some s ↔
    S.local? c n = some s ∧ ∃ d, S.symbol? s = some d ∧ d.visibleAt p = true := by
  rw [visible?, Option.filter_eq_some_iff]
  refine and_congr_right fun _ => ?_
  cases S.symbol? s <;> simp

theorem visible?_eq_none_of_local? (h : S.local? c n = none) : S.visible? c n p = none := by
  rw [visible?, h, Option.filter_none]

theorem exists_visible?_of_lookup (h : S.lookup c n p = some s) :
    ∃ d, S.visible? d n p = some s := by
  obtain ⟨d, _, hd⟩ := List.exists_of_findSome?_eq_some h
  exact ⟨d, hd⟩

theorem exists_symbol?_of_lookup (h : S.lookup c n p = some s) : ∃ d, S.symbol? s = some d := by
  obtain ⟨_, hc⟩ := exists_visible?_of_lookup h
  obtain ⟨_, d, hd, _⟩ := visible?_eq_some.mp hc
  exact ⟨d, hd⟩

theorem chainWithin_eq (h : S.WellFormed) {k l : Nat} (hk : c.index < k) (hl : c.index < l) :
    S.chainWithin k c = S.chainWithin l c := by
  induction k generalizing c l with
  | zero => omega
  | succ k ih =>
    obtain ⟨l, rfl⟩ : ∃ i, l = i + 1 := ⟨l - 1, by omega⟩
    unfold chainWithin
    split
    next => rfl
    next d hd =>
      have hlt := h.parent_lt hd
      rw [ih (l := l) (by omega) (by omega)]

theorem chain_of_parent (h : S.WellFormed) (hd : S.parent? c = some d) :
    S.chain c = c :: S.chain d := by
  have hlt := h.parent_lt hd
  have hchain : S.chain c = c :: S.chainWithin c.index d := by
    rw [parent?] at hd
    simp only [chain, chainWithin, hd]
  rw [hchain, chain, chainWithin_eq h hlt (Nat.lt_succ_self _)]

theorem chain_of_root (hd : S.parent? c = none) : S.chain c = [c] := by
  rw [parent?] at hd
  simp only [chain, chainWithin, hd]

theorem lookup_of_visible (h : S.visible? c n p = some s) : S.lookup c n p = some s := by
  have hchain : ∃ cs, S.chain c = c :: cs := by
    unfold chain chainWithin
    split <;> exact ⟨_, rfl⟩
  obtain ⟨cs, hcs⟩ := hchain
  rw [lookup, hcs, List.findSome?_cons, h]

theorem lookup_of_parent (h : S.WellFormed) (hd : S.parent? c = some d)
    (hc : S.visible? c n p = none) : S.lookup c n p = S.lookup d n p := by
  rw [lookup, chain_of_parent h hd, List.findSome?_cons, hc, lookup]

theorem lookup_of_root (hd : S.parent? c = none) : S.lookup c n p = S.visible? c n p := by
  rw [lookup, chain_of_root hd, List.findSome?_cons]
  cases S.visible? c n p <;> rfl

end ScopeTree

/-- At its place the token names the symbol. -/
def ScopeTree.Names (S : ScopeTree) (site : Site) (t : Token) (s : SymbolId) : Prop :=
  ∃ c, site.scope = some c ∧ S.lookup c t.text t.place = some s

variable {S : ScopeTree} {P : List SymbolId} {u : Unit}

theorem Expr.checkName_eq_ok {e : Expr} : e.checkName S P = .ok u ↔
    ∀ k ∈ e.name?, ∃ s, S.Names e.site.toSite k s ∧ s ∉ P := by
  unfold checkName ScopeTree.Names
  change _ ↔ ∀ k ∈ e.name?, ∃ s, (∃ c, e.scope = some c ∧ S.lookup c k.text k.place = some s) ∧ _
  cases e.name? with
  | none => simp
  | some k =>
    cases hc : e.scope with
    | none => simp
    | some c =>
      cases hs : S.lookup c k.text k.place with
      | none => simp [hs]
      | some s => by_cases hP : s ∈ P <;> simp [hs, hP, Option.filter]

end FrontEnd
