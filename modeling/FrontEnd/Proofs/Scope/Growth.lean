import FrontEnd.Proofs.Scope.Lookup
import FrontEnd.Scope.Stamping

/-! How a tree of scopes grows. Opening a scope and binding a symbol are the only steps; of the
scopes that were there, only the one that is worked in gets new names. -/

namespace FrontEnd.ScopeTree

variable {S S' : ScopeTree} {c d : ScopeId} {n : String} {s : SymbolId}

def Holds (S : ScopeTree) (c : ScopeId) : Prop := c.index < S.scopes.size

instance : Decidable (S.Holds c) := inferInstanceAs (Decidable (c.index < S.scopes.size))

section Push

variable {place : Position} {parent : Option ScopeId}

theorem scope?_push_of_ne (h : d ≠ (S.push place parent).1) :
    (S.push place parent).2.scope? d = S.scope? d := by
  have hne : d.index ≠ S.scopes.size := fun he => h (by cases d; simp_all [push])
  simp [push, scope?, Array.getElem?_push, hne]

theorem scope?_push_self :
    (S.push place parent).2.scope? (S.push place parent).1 = some ⟨place, parent, []⟩ := by
  simp [push, scope?]

theorem local?_push_self : (S.push place parent).2.local? (S.push place parent).1 n = none := by
  rw [local?, scope?_push_self]
  rfl

theorem parent?_push_self : (S.push place parent).2.parent? (S.push place parent).1 = parent := by
  rw [parent?, scope?_push_self]
  rfl

theorem local?_push_of_ne (h : d ≠ (S.push place parent).1) :
    (S.push place parent).2.local? d n = S.local? d n := by
  rw [local?, scope?_push_of_ne h, local?]

theorem WellFormed.push (h : S.WellFormed) (hp : ∀ d ∈ parent, S.Holds d) :
    (S.push place parent).2.WellFormed := by
  have hlocal : ∀ {d n s}, (S.push place parent).2.local? d n = some s → S.local? d n = some s := by
    intro d n s hs
    by_cases hd : d = (S.push place parent).1
    · rw [hd, local?_push_self] at hs
      exact nomatch hs
    · rwa [local?_push_of_ne hd] at hs
  refine ⟨fun {c d} hd => ?_, fun hs => h.bound (hlocal hs), fun hs hs' =>
    h.unique (hlocal hs) (hlocal hs')⟩
  by_cases hc : c = (S.push place parent).1
  · rw [hc, parent?_push_self] at hd
    rw [hc]
    exact hp d hd
  · rw [parent?, scope?_push_of_ne hc] at hd
    exact h.parent_lt hd

end Push

section Bind

variable {sym : Symbol} {i : SymbolId}

theorem of_bind_ok (h : S.bind c sym = .ok (i, S')) : S.local? c sym.name = none ∧
    i = ⟨S.symbols.size⟩ ∧ S' = ⟨S.scopes.modify c.index fun sc =>
      { sc with names := (sym.name, i) :: sc.names }, S.symbols.push sym⟩ := by
  unfold bind at h
  split at h
  next => exact nomatch h
  next hnone =>
    obtain ⟨rfl, rfl⟩ := Prod.mk.inj (Except.ok.inj h)
    exact ⟨hnone, rfl, rfl⟩

theorem bind_eq_error : S.bind c sym = .error s ↔ S.local? c sym.name = some s := by
  unfold bind
  cases S.local? c sym.name <;> simp

theorem exists_bind (h : S.local? c sym.name = none) :
    ∃ S', S.bind c sym = .ok (⟨S.symbols.size⟩, S') := by
  unfold bind
  rw [h]
  exact ⟨_, rfl⟩

theorem size_bind (h : S.bind c sym = .ok (i, S')) : S'.scopes.size = S.scopes.size := by
  obtain ⟨_, _, rfl⟩ := of_bind_ok h
  simp

theorem size_symbols_bind (h : S.bind c sym = .ok (i, S')) :
    S'.symbols.size = S.symbols.size + 1 := by
  obtain ⟨_, _, rfl⟩ := of_bind_ok h
  simp

theorem scope?_bind_of_ne (h : S.bind c sym = .ok (i, S')) (hd : d ≠ c) :
    S'.scope? d = S.scope? d := by
  obtain ⟨_, _, rfl⟩ := of_bind_ok h
  have hne : c.index ≠ d.index := fun he => hd (by cases c; cases d; simp_all)
  simp [scope?, Array.getElem?_modify, hne]

theorem scope?_bind_self (h : S.bind c sym = .ok (i, S')) :
    S'.scope? c = (S.scope? c).map fun sc => { sc with names := (sym.name, i) :: sc.names } := by
  obtain ⟨_, _, rfl⟩ := of_bind_ok h
  simp [scope?, Array.getElem?_modify]

theorem parent?_bind (h : S.bind c sym = .ok (i, S')) (d : ScopeId) :
    S'.parent? d = S.parent? d := by
  unfold parent?
  by_cases hd : d = c
  · rw [hd, scope?_bind_self h]
    cases S.scope? c <;> rfl
  · rw [scope?_bind_of_ne h hd]

theorem local?_bind_self (h : S.bind c sym = .ok (i, S')) (hc : S.Holds c) :
    S'.local? c sym.name = some i := by
  obtain ⟨sc, hsc⟩ : ∃ sc, S.scope? c = some sc := ⟨_, Array.getElem?_eq_getElem hc⟩
  simp [local?, scope?_bind_self h, hsc]

theorem local?_bind_of_ne (h : S.bind c sym = .ok (i, S')) (hn : d ≠ c ∨ n ≠ sym.name) :
    S'.local? d n = S.local? d n := by
  unfold local?
  by_cases hd : d = c
  · have hn : (n == sym.name) = false := by simpa [hd] using hn
    rw [hd, scope?_bind_self h]
    cases S.scope? c with
    | none => rfl
    | some sc => simp [List.lookup_cons, hn]
  · rw [scope?_bind_of_ne h hd]

theorem symbol?_bind_self (h : S.bind c sym = .ok (i, S')) : S'.symbol? i = some sym := by
  obtain ⟨_, rfl, rfl⟩ := of_bind_ok h
  simp [symbol?]

theorem symbol?_bind_of_ne (h : S.bind c sym = .ok (i, S')) (hs : s ≠ i) :
    S'.symbol? s = S.symbol? s := by
  obtain ⟨_, rfl, rfl⟩ := of_bind_ok h
  have hne : s.index ≠ S.symbols.size := fun he => hs (congrArg SymbolId.mk he)
  rw [symbol?, Array.getElem?_push, if_neg hne]
  rfl

theorem symbol?_bind {a : Symbol} (h : S.bind c sym = .ok (i, S')) (ha : S.symbol? s = some a) :
    S'.symbol? s = some a := by
  obtain ⟨_, rfl, _⟩ := of_bind_ok h
  have hne : s ≠ ⟨S.symbols.size⟩ := by
    rintro rfl
    exact Nat.lt_irrefl _ (Array.getElem?_eq_some_iff.mp ha).1
  rw [symbol?_bind_of_ne h hne, ha]

theorem local?_bind_cases (h : S.bind c sym = .ok (i, S')) (hc : S.Holds c)
    (hs : S'.local? d n = some s) : d = c ∧ s = i ∨ S.local? d n = some s := by
  by_cases hn : d = c ∧ n = sym.name
  · obtain ⟨rfl, rfl⟩ := hn
    rw [local?_bind_self h hc] at hs
    exact .inl ⟨rfl, (Option.some.inj hs).symm⟩
  · rw [local?_bind_of_ne h (Decidable.not_and_iff_or_not.mp hn)] at hs
    exact .inr hs

theorem WellFormed.bind (h : S.WellFormed) (hb : S.bind c sym = .ok (i, S')) (hc : S.Holds c) :
    S'.WellFormed := by
  have hfresh : ∀ d n, S.local? d n ≠ some i := by
    intro d n hi
    obtain ⟨a, ha, _⟩ := h.bound hi
    obtain ⟨hlt, _⟩ := Array.getElem?_eq_some_iff.mp ha
    obtain ⟨_, rfl, _⟩ := of_bind_ok hb
    exact Nat.lt_irrefl _ hlt
  refine ⟨fun hd => h.parent_lt (parent?_bind hb _ ▸ hd), fun {d n s} hs => ?_,
    fun {d d' n m s} hs hs' => ?_⟩
  · by_cases hn : d = c ∧ n = sym.name
    · obtain ⟨rfl, rfl⟩ := hn
      rw [local?_bind_self hb hc] at hs
      obtain rfl := Option.some.inj hs
      exact ⟨sym, symbol?_bind_self hb, rfl⟩
    · rw [local?_bind_of_ne hb (Decidable.not_and_iff_or_not.mp hn)] at hs
      obtain ⟨a, ha, hname⟩ := h.bound hs
      exact ⟨a, symbol?_bind hb ha, hname⟩
  · rcases local?_bind_cases hb hc hs with ⟨rfl, rfl⟩ | hs
    · rcases local?_bind_cases hb hc hs' with ⟨rfl, _⟩ | hs'
      · rfl
      · exact absurd hs' (hfresh _ _)
    · rcases local?_bind_cases hb hc hs' with ⟨rfl, rfl⟩ | hs'
      · exact absurd hs (hfresh _ _)
      · exact h.unique hs hs'

end Bind

/-- Work in the scope `c` that adds at most the names `ns` there. -/
structure Advances (c : ScopeId) (ns : List String) (S S' : ScopeTree) : Prop where
  size : S.scopes.size ≤ S'.scopes.size
  others {d : ScopeId} : S.Holds d → d ≠ c → S'.scope? d = S.scope? d
  parent : S'.parent? c = S.parent? c
  names {n : String} : n ∉ ns → S'.local? c n = S.local? c n
  kept {n : String} {s : SymbolId} : S.local? c n = some s → S'.local? c n = some s
  symbols {s : SymbolId} {a : Symbol} : S.symbol? s = some a → S'.symbol? s = some a
  wellFormed : S.WellFormed → S'.WellFormed

namespace Advances

variable {S'' : ScopeTree} {ns ms : List String}

theorem refl (c : ScopeId) (S : ScopeTree) : Advances c [] S S :=
  ⟨Nat.le_refl _, fun _ _ => rfl, rfl, fun _ => rfl, id, id, id⟩

theorem trans (h : Advances c ns S S') (h' : Advances c ms S' S'') :
    Advances c (ns ++ ms) S S'' where
  size := Nat.le_trans h.size h'.size
  others hd hc := (h'.others (Nat.lt_of_lt_of_le hd h.size) hc).trans (h.others hd hc)
  parent := h'.parent.trans h.parent
  names hn := by
    rw [List.mem_append, not_or] at hn
    exact (h'.names hn.2).trans (h.names hn.1)
  kept hs := h'.kept (h.kept hs)
  symbols hs := h'.symbols (h.symbols hs)
  wellFormed hS := h'.wellFormed (h.wellFormed hS)

theorem holds (h : Advances c ns S S') (hd : S.Holds d) : S'.Holds d :=
  Nat.lt_of_lt_of_le hd h.size

theorem of_push {place : Position} (hc : S.Holds c)
    (h : Advances (S.push place (some c)).1 ns (S.push place (some c)).2 S') :
    Advances c [] S S' := by
  have hne : ∀ {d}, S.Holds d → d ≠ (S.push place (some c)).1 := by
    rintro d hd rfl
    exact Nat.lt_irrefl _ hd
  have hold : ∀ {d}, S.Holds d → S'.scope? d = S.scope? d := by
    intro d hd
    have hpush : (S.push place (some c)).2.Holds d := by
      rw [Holds, push, Array.size_push]
      exact Nat.lt_succ_of_lt hd
    rw [h.others hpush (hne hd), scope?_push_of_ne (hne hd)]
  have hlocal : ∀ n, S'.local? c n = S.local? c n := fun n => by rw [local?, hold hc, local?]
  refine ⟨?_, fun hd _ => hold hd, ?_, fun _ => hlocal _, fun hs => (hlocal _).trans hs,
    fun hs => h.symbols hs, fun hS => h.wellFormed (hS.push ?_)⟩
  · have hsize := h.size
    rw [push, Array.size_push] at hsize
    omega
  · rw [parent?, hold hc, parent?]
  · intro d hd
    obtain rfl := Option.some.inj hd
    exact hc

theorem of_bind {sym : Symbol} {i : SymbolId} (h : S.bind c sym = .ok (i, S')) (hc : S.Holds c) :
    Advances c [sym.name] S S' where
  size := Nat.le_of_eq (size_bind h).symm
  others _ hd := scope?_bind_of_ne h hd
  parent := parent?_bind h c
  names hn := local?_bind_of_ne h (.inr (by simpa using hn))
  kept {n s} hs := by
    obtain ⟨hnone, _⟩ := of_bind_ok h
    have hn : n ≠ sym.name := by
      rintro rfl
      exact nomatch hnone.symm.trans hs
    rw [local?_bind_of_ne h (.inr hn), hs]
  symbols hs := symbol?_bind h hs
  wellFormed hS := hS.bind h hc

end Advances

end FrontEnd.ScopeTree
