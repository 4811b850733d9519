import Mathlib
import FrontEnd.Proofs.Scope.Growth

/-! A symbol under another name. If no symbol had that name, nothing is found that was not found
before: what meant the symbol means it under the new name, and every other name means what it
meant. -/

namespace FrontEnd

/-- The scope with the name `n` for the symbol `s`. -/
def Scope.rename (s : SymbolId) (n : String) (c : Scope) : Scope :=
  { c with names := c.names.map fun b => (if b.2 = s then n else b.1, b.2) }

def Symbol.rename (n : String) (a : Symbol) : Symbol := { a with name := n }

namespace ScopeTree

/-- The tree with the name `n` for the symbol `s`. -/
def rename (s : SymbolId) (n : String) (S : ScopeTree) : ScopeTree where
  scopes := S.scopes.map (Scope.rename s n)
  symbols := S.symbols.modify s.index (Symbol.rename n)

/-- A scope has each of its names once, and these are the names of the symbols they stand for. -/
structure WellNamed (S : ScopeTree) : Prop where
  nodup {c : ScopeId} {d : Scope} : S.scope? c = some d → (d.names.map Prod.fst).Nodup
  bound {c : ScopeId} {d : Scope} {b : String × SymbolId} : S.scope? c = some d → b ∈ d.names →
    ∃ a, S.symbol? b.2 = some a ∧ a.name = b.1

def IsFree (S : ScopeTree) (n : String) : Prop := ∀ ⦃i a⦄, S.symbol? i = some a → a.name ≠ n

variable {S S' : ScopeTree} {s i : SymbolId} {n m : String} {c d : ScopeId} {p : Position}

section Rename

theorem scope?_rename (c : ScopeId) :
    (S.rename s n).scope? c = (S.scope? c).map (Scope.rename s n) := by
  simp [scope?, rename]

theorem symbol?_rename (i : SymbolId) :
    (S.rename s n).symbol? i = (S.symbol? i).map fun a => if i = s then a.rename n else a := by
  unfold symbol? rename
  rw [Array.getElem?_modify]
  by_cases h : i = s
  · simp [h]
  · have hne : s.index ≠ i.index := fun he => h (by cases i; cases s; simp_all)
    simp [h, hne]

theorem parent?_rename (c : ScopeId) : (S.rename s n).parent? c = S.parent? c := by
  rw [parent?, scope?_rename, parent?]
  cases S.scope? c <;> rfl

theorem chain_rename (c : ScopeId) : (S.rename s n).chain c = S.chain c := by
  have hchain (k : Nat) (d : ScopeId) :
      (S.rename s n).chainWithin k d = S.chainWithin k d := by
    induction k generalizing d with
    | zero => rfl
    | succ k ih =>
      have hparent := parent?_rename (S := S) (s := s) (n := n) d
      unfold parent? at hparent
      simp only [chainWithin, hparent, ih]
  exact hchain _ c

end Rename

section Lookup

theorem lookup_eq_some_iff {names : List (String × SymbolId)} (h : (names.map Prod.fst).Nodup) :
    names.lookup m = some i ↔ (m, i) ∈ names := by
  induction names with
  | nil => simp
  | cons b bs ih =>
    rw [List.map_cons, List.nodup_cons] at h
    rw [List.lookup_cons, List.mem_cons]
    cases hm : m == b.1 with
    | true =>
      obtain rfl := beq_iff_eq.mp hm
      have hnot : (b.1, i) ∉ bs := fun hi => h.1 (List.mem_map.mpr ⟨_, hi, rfl⟩)
      simp [hnot, Prod.ext_iff, eq_comm]
    | false =>
      have hne : (m, i) ≠ b := by
        rintro rfl
        simp at hm
      simp only [ih h.2, hne, false_or]

theorem WellNamed.local?_eq_some (h : S.WellNamed) :
    S.local? c m = some i ↔ ∃ d, S.scope? c = some d ∧ (m, i) ∈ d.names := by
  unfold local?
  cases hc : S.scope? c with
  | none => simp
  | some d => simp [lookup_eq_some_iff (h.nodup hc)]

theorem WellNamed.name_of_local? (h : S.WellNamed) (hm : S.local? c m = some i) :
    ∃ a, S.symbol? i = some a ∧ a.name = m := by
  obtain ⟨d, hd, hb⟩ := h.local?_eq_some.mp hm
  exact h.bound hd hb

theorem WellNamed.name_eq (h : S.WellNamed) (hc : S.local? c n = some i)
    (hd : S.local? d m = some i) : n = m := by
  obtain ⟨a, ha, rfl⟩ := h.name_of_local? hc
  obtain ⟨a', ha', rfl⟩ := h.name_of_local? hd
  rw [Option.some.inj (ha.symm.trans ha')]

variable (h : S.WellNamed) (hn : S.IsFree n)
include h hn

theorem WellNamed.rename (s : SymbolId) : (S.rename s n).WellNamed where
  nodup {c d} hd := by
    rw [scope?_rename] at hd
    obtain ⟨d, hc, rfl⟩ := Option.map_eq_some_iff.mp hd
    have hnodup := h.nodup hc
    have hbound := fun b hb => h.bound (b := b) hc hb
    unfold Scope.rename
    dsimp only
    rw [List.map_map, List.Nodup, List.pairwise_map]
    rw [List.Nodup, List.pairwise_map] at hnodup
    refine hnodup.imp_of_mem fun {b b'} hb hb' hne => ?_
    obtain ⟨a, ha, hname⟩ := hbound b hb
    obtain ⟨a', ha', hname'⟩ := hbound b' hb'
    simp only [Function.comp]
    split
    next hs =>
      split
      next hs' =>
        -- one symbol has one name
        rw [hs] at ha
        rw [hs'] at ha'
        obtain rfl := Option.some.inj (ha.symm.trans ha')
        exact absurd (hname.symm.trans hname') hne
      next => exact fun he => hn ha' (hname'.trans he.symm)
    next =>
      split
      next => exact fun he => hn ha (hname.trans he)
      next => exact hne
  bound {c d b'} hd hb' := by
    rw [scope?_rename] at hd
    obtain ⟨d, hc, rfl⟩ := Option.map_eq_some_iff.mp hd
    obtain ⟨b, hb, rfl⟩ := List.mem_map.mp hb'
    obtain ⟨a, ha, hname⟩ := h.bound hc hb
    refine ⟨_, by rw [symbol?_rename, ha]; rfl, ?_⟩
    dsimp only
    split
    next => rfl
    next => exact hname

theorem local?_rename : (S.rename s n).local? c m = some i ↔
    ∃ m', S.local? c m' = some i ∧ m = if i = s then n else m' := by
  simp only [(h.rename hn s).local?_eq_some, h.local?_eq_some, scope?_rename,
    Option.map_eq_some_iff]
  constructor
  · rintro ⟨_, ⟨d, hd, rfl⟩, hmem⟩
    obtain ⟨⟨m', j⟩, hb, he⟩ := List.mem_map.mp hmem
    obtain ⟨rfl, rfl⟩ := Prod.mk.inj he
    exact ⟨m', ⟨d, hd, hb⟩, rfl⟩
  · rintro ⟨m', ⟨d, hd, hb⟩, rfl⟩
    exact ⟨_, ⟨d, hd, rfl⟩, List.mem_map.mpr ⟨_, hb, rfl⟩⟩

theorem visible?_rename : (S.rename s n).visible? c m p = some i ↔
    ∃ m', S.visible? c m' p = some i ∧ m = if i = s then n else m' := by
  have hvisible : (∃ a, (S.rename s n).symbol? i = some a ∧ a.visibleAt p = true) ↔
      ∃ a, S.symbol? i = some a ∧ a.visibleAt p = true := by
    rw [symbol?_rename]
    cases S.symbol? i with
    | none => simp
    | some a => by_cases hi : i = s <;> simp [hi, Symbol.rename, Symbol.visibleAt]
  simp only [visible?_eq_some, local?_rename h hn, hvisible]
  constructor
  · rintro ⟨⟨m', hm, rfl⟩, ha⟩
    exact ⟨m', ⟨hm, ha⟩, rfl⟩
  · rintro ⟨m', ⟨hm, ha⟩, rfl⟩
    exact ⟨⟨m', hm, rfl⟩, ha⟩

/-- In a scope of its own the symbol is shown under the new name. -/
theorem visible?_rename_self (hs : S.local? d m = some s) :
    (S.rename s n).visible? c n p = (S.visible? c m p).filter (· = s) := by
  refine Option.ext fun i => ?_
  rw [visible?_rename h hn, Option.filter_eq_some_iff]
  constructor
  · rintro ⟨m', hm, he⟩
    obtain ⟨hlocal, -⟩ := visible?_eq_some.mp hm
    split at he
    next hi =>
      obtain rfl := hi
      rw [h.name_eq hs hlocal]
      exact ⟨hm, by simp⟩
    next =>
      -- no other symbol had the name
      obtain ⟨a, ha, hname⟩ := h.name_of_local? hlocal
      exact absurd (hname.trans he.symm) (hn ha)
  · rintro ⟨hm, hi⟩
    obtain rfl : i = s := by simpa using hi
    exact ⟨m, hm, by rw [if_pos rfl]⟩

theorem visible?_rename_of_ne (hm : m ≠ n) :
    (S.rename s n).visible? c m p = (S.visible? c m p).filter (· ≠ s) := by
  refine Option.ext fun i => ?_
  rw [visible?_rename h hn, Option.filter_eq_some_iff]
  constructor
  · rintro ⟨m', hm', he⟩
    split at he
    next => exact absurd he hm
    next hi => exact ⟨he ▸ hm', by simpa using hi⟩
  · rintro ⟨hm', hi⟩
    have hi : i ≠ s := by simpa using hi
    exact ⟨m, hm', by rw [if_neg hi]⟩

theorem lookup_rename_self (hs : S.lookup c m p = some s) :
    (S.rename s n).lookup c n p = some s := by
  obtain ⟨d, hd⟩ := exists_visible?_of_lookup hs
  obtain ⟨hlocal, -⟩ := visible?_eq_some.mp hd
  simp only [lookup, chain_rename, visible?_rename_self h hn hlocal] at hs ⊢
  generalize S.chain c = cs at hs
  induction cs with
  | nil => exact hs
  | cons d ds ih =>
    rw [List.findSome?_cons] at hs ⊢
    cases hv : S.visible? d m p with
    | none => exact ih (by simpa only [hv] using hs)
    | some i =>
      obtain rfl : i = s := by simpa only [hv, Option.some.injEq] using hs
      simp [Option.filter]

theorem lookup_rename_of_ne (hm : m ≠ n) (hs : S.lookup c m p ≠ some s) :
    (S.rename s n).lookup c m p = S.lookup c m p := by
  simp only [lookup, chain_rename, visible?_rename_of_ne h hn hm] at hs ⊢
  generalize S.chain c = cs at hs
  induction cs with
  | nil => rfl
  | cons d ds ih =>
    rw [List.findSome?_cons] at hs
    rw [List.findSome?_cons, List.findSome?_cons]
    cases hv : S.visible? d m p with
    | none => exact ih (by simpa only [hv] using hs)
    | some i =>
      have hi : i ≠ s := by simpa only [hv, ne_eq, Option.some.injEq] using hs
      simp [Option.filter, hi]

end Lookup

section Growth

theorem wellNamed_empty : empty.WellNamed where
  nodup h := by simp [empty, scope?] at h
  bound h := by simp [empty, scope?] at h

/-- The tree goes on from `S` to `S'`: what was bound stays bound. -/
structure Extends (S S' : ScopeTree) : Prop where
  symbols {i : SymbolId} {a : Symbol} : S.symbol? i = some a → S'.symbol? i = some a
  wellNamed : S.WellNamed → S'.WellNamed

theorem Extends.refl (S : ScopeTree) : S.Extends S := ⟨id, id⟩

theorem Extends.trans {S'' : ScopeTree} (h : S.Extends S') (h' : S'.Extends S'') :
    S.Extends S'' :=
  ⟨fun ha => h'.symbols (h.symbols ha), fun hS => h'.wellNamed (h.wellNamed hS)⟩

theorem extends_push (S : ScopeTree) (place : Position) (parent : Option ScopeId) :
    S.Extends (S.push place parent).2 where
  symbols := id
  wellNamed h := by
    have hscope {c d} (hd : (S.push place parent).2.scope? c = some d) :
        S.scope? c = some d ∨ d.names = [] := by
      by_cases hc : c = (S.push place parent).1
      · rw [hc, scope?_push_self] at hd
        exact .inr (congrArg Scope.names (Option.some.inj hd)).symm
      · rw [scope?_push_of_ne hc] at hd
        exact .inl hd
    refine ⟨fun hd => ?_, fun hd hb => ?_⟩
    · rcases hscope hd with hd | hd
      · exact h.nodup hd
      · rw [hd]
        exact List.nodup_nil
    · rcases hscope hd with hd | hd
      · exact h.bound hd hb
      · rw [hd] at hb
        exact nomatch hb

theorem extends_bind {a : Symbol} (hb : S.bind c a = .ok (i, S')) : S.Extends S' where
  symbols := symbol?_bind hb
  wellNamed h := by
    obtain ⟨hnone, -⟩ := of_bind_ok hb
    have hscope {d e} (he : S'.scope? d = some e) : ∃ e₀, S.scope? d = some e₀ ∧
        (e.names = e₀.names ∨ d = c ∧ e.names = (a.name, i) :: e₀.names) := by
      by_cases hd : d = c
      · rw [hd, scope?_bind_self hb] at he
        obtain ⟨e₀, he₀, rfl⟩ := Option.map_eq_some_iff.mp he
        exact ⟨e₀, hd ▸ he₀, .inr ⟨hd, rfl⟩⟩
      · rw [scope?_bind_of_ne hb hd] at he
        exact ⟨e, he, .inl rfl⟩
    refine ⟨fun {d e} he => ?_, fun {d e b} he hmem => ?_⟩
    · obtain ⟨e₀, he₀, hnames | ⟨rfl, hnames⟩⟩ := hscope he
      · rw [hnames]
        exact h.nodup he₀
      · rw [hnames, List.map_cons, List.nodup_cons]
        refine ⟨fun hmem => ?_, h.nodup he₀⟩
        obtain ⟨⟨m, j⟩, hj, rfl⟩ := List.mem_map.mp hmem
        exact nomatch hnone.symm.trans (h.local?_eq_some.mpr ⟨e₀, he₀, hj⟩)
    · obtain ⟨e₀, he₀, hnames | ⟨rfl, hnames⟩⟩ := hscope he
      · obtain ⟨x, hx, hname⟩ := h.bound he₀ (hnames ▸ hmem)
        exact ⟨x, symbol?_bind hb hx, hname⟩
      · rw [hnames] at hmem
        rcases List.mem_cons.mp hmem with rfl | hmem
        · exact ⟨a, symbol?_bind_self hb, rfl⟩
        · obtain ⟨x, hx, hname⟩ := h.bound he₀ hmem
          exact ⟨x, symbol?_bind hb hx, hname⟩

theorem push_rename (S : ScopeTree) (s : SymbolId) (n : String) (place : Position)
    (parent : Option ScopeId) : (S.rename s n).push place parent =
      ((S.push place parent).1, (S.push place parent).2.rename s n) := by
  simp [push, rename, Scope.rename]

/-- A symbol that is bound under its name is bound under the new one if it is the one renamed. -/
theorem bind_rename {a : Symbol} (hb : S.bind c a = .ok (i, S')) (h : S.WellNamed)
    (hn : S'.IsFree n) : (S.rename s n).bind c (if i = s then a.rename n else a) =
      .ok (i, S'.rename s n) := by
  have hfree : S.IsFree n := fun j x hx => hn (symbol?_bind hb hx)
  have hself := symbol?_bind_self hb
  obtain ⟨hnone, rfl, rfl⟩ := of_bind_ok hb
  have hlt {j : SymbolId} {x : Symbol} (hx : S.symbol? j = some x) : j ≠ ⟨S.symbols.size⟩ := by
    rintro rfl
    exact Nat.lt_irrefl _ (Array.getElem?_eq_some_iff.mp hx).1
  have hname : (if (⟨S.symbols.size⟩ : SymbolId) = s then a.rename n else a).name =
      if (⟨S.symbols.size⟩ : SymbolId) = s then n else a.name := by
    split <;> rfl
  have hlocal : (S.rename s n).local? c
      (if (⟨S.symbols.size⟩ : SymbolId) = s then n else a.name) = none := by
    refine Option.eq_none_iff_forall_ne_some.mpr fun j hj => ?_
    obtain ⟨m, hm, he⟩ := (local?_rename h hfree).mp hj
    obtain ⟨x, hx, rfl⟩ := h.name_of_local? hm
    split at he
    next hs =>
      rw [if_neg fun hj => hlt hx (hj.trans hs.symm)] at he
      exact hfree hx he.symm
    next =>
      split at he
      next => exact hn hself he
      next =>
        rw [← he, hnone] at hm
        exact nomatch hm
  unfold bind
  rw [hname, hlocal]
  simp only [Except.ok.injEq, Prod.mk.injEq, rename, mk.injEq, Array.size_modify, true_and]
  constructor
  · refine Array.ext_getElem? fun j => ?_
    simp only [Array.getElem?_modify, Array.getElem?_map]
    split
    next => cases S.scopes[j]? <;> rfl
    next => rfl
  · refine Array.ext_getElem? fun j => ?_
    simp only [Array.getElem?_push, Array.getElem?_modify, Array.size_modify]
    by_cases hj : j = S.symbols.size
    · subst hj
      by_cases hs : (⟨S.symbols.size⟩ : SymbolId) = s
      · simp [← hs]
      · have hne : s.index ≠ S.symbols.size := fun he => hs (by cases s; simp_all)
        simp [hs, hne]
    · simp [hj]

end Growth

end ScopeTree

end FrontEnd
