import FrontEnd.Proofs.Scope.History

/-! What one step changes for those who look names up. A new scope changes nothing in the scopes
that were there. A new symbol is found exactly where the search for its name comes as far as its
scope. -/

namespace FrontEnd.ScopeTree

variable {S S' : ScopeTree} {a : Symbol} {c d e : ScopeId} {n : String} {s : SymbolId}
  {p : Position}

/-- The scope `d` is `c` itself or lies inside it. -/
def LiesIn (S : ScopeTree) (d c : ScopeId) : Prop :=
  Relation.ReflTransGen (fun x y => S.parent? x = some y) d c

/-- The scope `e` binds `n` to a symbol that is visible at `p`. -/
def Offers (S : ScopeTree) (e : ScopeId) (n : String) (p : Position) : Prop :=
  ∃ s b, S.local? e n = some s ∧ S.symbol? s = some b ∧ (b.isGlobal = true ∨ b.visibleFrom < p)

/-- The symbol `a`, once it is bound in `c`, is what `n` means at `p` inside `d`: on the way from
`d` to `c` nothing else is found. -/
structure Reveals (S : ScopeTree) (c : ScopeId) (a : Symbol) (d : ScopeId) (n : String)
    (p : Position) : Prop where
  name : n = a.name
  inside : S.LiesIn d c
  visible : a.isGlobal = true ∨ a.visibleFrom < p
  uncovered {e : ScopeId} : S.LiesIn d e → S.LiesIn e c → e ≠ c → ¬ S.Offers e n p

theorem visibleAt_iff : a.visibleAt p = true ↔ a.isGlobal = true ∨ a.visibleFrom < p := by
  rw [Symbol.visibleAt, Bool.or_eq_true, decide_eq_true_iff]

theorem offers_iff : S.Offers e n p ↔ ∃ s, S.visible? e n p = some s := by
  simp only [Offers, visible?_eq_some, visibleAt_iff, exists_and_left]

theorem visible?_eq_none_of_not_offers (h : ¬ S.Offers e n p) : S.visible? e n p = none :=
  Option.eq_none_iff_forall_ne_some.mpr fun s hs => h (offers_iff.mpr ⟨s, hs⟩)

theorem WellFormed.index_le (h : S.WellFormed) (hd : S.LiesIn d c) : c.index ≤ d.index := by
  induction hd with
  | refl => exact Nat.le_refl _
  | tail _ hparent ih => exact Nat.le_trans (Nat.le_of_lt (h.parent_lt hparent)) ih

theorem WellFormed.liesIn_antisymm (h : S.WellFormed) (hd : S.LiesIn d c) (hc : S.LiesIn c d) :
    d = c := by
  have hindex := Nat.le_antisymm (h.index_le hc) (h.index_le hd)
  cases d
  cases c
  exact congrArg ScopeId.mk hindex

/-- The answers are the same if from parent to parent, as far as the search goes, the scopes offer
the same. The condition `P` describes the scopes it comes to. -/
theorem lookup_congr {P : ScopeId → Prop} (h : S.WellFormed) (h' : S'.WellFormed)
    (hvisible : ∀ d, P d → S'.visible? d n p = S.visible? d n p)
    (hparent : ∀ d, P d → S'.parent? d = S.parent? d)
    (hnext : ∀ d e, P d → S.visible? d n p = none → S.parent? d = some e → P e) (hd : P d) :
    S'.lookup d n p = S.lookup d n p := by
  induction hk : d.index using Nat.strong_induction_on generalizing d with
  | h k ih =>
    cases hv : S.visible? d n p with
    | some s => rw [lookup_of_visible hv, lookup_of_visible ((hvisible d hd).trans hv)]
    | none =>
      cases he : S.parent? d with
      | none =>
        rw [lookup_of_root he, lookup_of_root ((hparent d hd).trans he), hvisible d hd]
      | some e =>
        rw [lookup_of_parent h he hv, lookup_of_parent h' ((hparent d hd).trans he)
          ((hvisible d hd).trans hv)]
        exact ih e.index (hk ▸ h.parent_lt he) (hnext d e hd hv he) rfl

section Push

variable {place : Position} {parent : Option ScopeId}

theorem ne_push (hd : S.Holds d) : d ≠ (S.push place parent).1 := by
  rintro rfl
  exact Nat.lt_irrefl _ hd

theorem local?_push (hd : S.Holds d) (n : String) :
    (S.push place parent).2.local? d n = S.local? d n :=
  local?_push_of_ne (ne_push hd)

theorem lookup_push (h : S.WellFormed) (hp : ∀ d ∈ parent, S.Holds d) (hd : S.Holds d) (n : String)
    (p : Position) : (S.push place parent).2.lookup d n p = S.lookup d n p := by
  refine lookup_congr (P := S.Holds) h (h.push hp) (fun d hd => ?_) (fun d hd => ?_)
    (fun d e hd _ he => Nat.lt_trans (h.parent_lt he) hd) hd
  · rw [visible?, local?_push hd, visible?]
    rfl
  · rw [parent?, scope?_push_of_ne (ne_push hd), parent?]

end Push

section Bind

theorem lookup_ne_of_bind (hb : S.bind c a = .ok (s, S')) : S.lookup d n p ≠ some s := by
  intro hs
  obtain ⟨b, hsymbol⟩ := exists_symbol?_of_lookup hs
  obtain ⟨-, rfl, -⟩ := of_bind_ok hb
  exact Nat.lt_irrefl _ (Array.getElem?_eq_some_iff.mp hsymbol).1

variable (h : S.WellFormed) (hb : S.bind c a = .ok (s, S'))
include h hb

theorem visible?_bind_of_ne (hne : d ≠ c ∨ n ≠ a.name) :
    S'.visible? d n p = S.visible? d n p := by
  refine Option.ext fun i => ?_
  rw [visible?_eq_some, visible?_eq_some, local?_bind_of_ne hb hne]
  refine and_congr_right fun hi => ?_
  obtain ⟨b, hsymbol, -⟩ := h.bound hi
  rw [hsymbol, symbol?_bind hb hsymbol]

theorem visible?_bind_of_hidden (hc : S.Holds c) (hv : ¬ (a.isGlobal = true ∨ a.visibleFrom < p)) :
    S'.visible? d n p = S.visible? d n p := by
  by_cases hne : d = c ∧ n = a.name
  · obtain ⟨rfl, rfl⟩ := hne
    obtain ⟨hnone, -⟩ := of_bind_ok hb
    rw [visible?_eq_none_of_local? hnone]
    refine Option.eq_none_iff_forall_ne_some.mpr fun i hi => ?_
    obtain ⟨hlocal, b, hsymbol, hvisible⟩ := visible?_eq_some.mp hi
    obtain rfl : i = s := Option.some.inj (hlocal.symm.trans (local?_bind_self hb hc))
    obtain rfl : b = a := Option.some.inj (hsymbol.symm.trans (symbol?_bind_self hb))
    exact hv (visibleAt_iff.mp hvisible)
  · exact visible?_bind_of_ne h hb (Decidable.not_and_iff_or_not.mp hne)

variable (hc : S.Holds c)
include hc

theorem Reveals.lookup (hr : S.Reveals c a d n p) : S'.lookup d n p = some s := by
  obtain ⟨rfl, hinside, hvisible, huncovered⟩ := hr
  have hself : S'.lookup c a.name p = some s := lookup_of_visible (visible?_eq_some.mpr
    ⟨local?_bind_self hb hc, a, symbol?_bind_self hb, visibleAt_iff.mpr hvisible⟩)
  induction hinside using Relation.ReflTransGen.head_induction_on with
  | refl => exact hself
  | @head d e hparent hrest ih =>
    have hlt : c.index < d.index :=
      Nat.lt_of_le_of_lt (h.index_le hrest) (h.parent_lt hparent)
    have hne : d ≠ c := by
      rintro rfl
      exact Nat.lt_irrefl _ hlt
    have hcovered := huncovered .refl (.head hparent hrest) hne
    have hnone : S'.visible? d a.name p = none := by
      rw [visible?_bind_of_ne h hb (.inl hne), visible?_eq_none_of_not_offers hcovered]
    rw [lookup_of_parent (h.bind hb hc) ((parent?_bind hb d).trans hparent) hnone]
    exact ih fun hde => huncovered (.head hparent hde)

/-- If the search does not come as far as the new symbol, it finds what it found before. -/
theorem lookup_bind_of_not_reveals (hr : ¬ S.Reveals c a d n p) :
    S'.lookup d n p = S.lookup d n p := by
  refine lookup_congr (P := fun d => ¬ S.Reveals c a d n p) h (h.bind hb hc) (fun d hr => ?_)
    (fun d _ => parent?_bind hb d) (fun d e hr hv he hre => hr ?_) hr
  · -- the new symbol itself would be found
    by_cases hv : a.isGlobal = true ∨ a.visibleFrom < p
    · refine visible?_bind_of_ne h hb (Decidable.not_and_iff_or_not.mp ?_)
      rintro ⟨rfl, hn⟩
      exact hr ⟨hn, .refl, hv, fun hde hed hne => absurd (h.liesIn_antisymm hed hde) hne⟩
    · exact visible?_bind_of_hidden h hb hc hv
  · refine ⟨hre.name, .head he hre.inside, hre.visible, fun {x} hdx hxc hne => ?_⟩
    -- on the way from `d` stands `d` itself, where nothing is visible, or it goes on from `e`
    rcases Relation.ReflTransGen.cases_head hdx with rfl | ⟨y, hy, hyx⟩
    · rw [offers_iff, hv]
      simp
    · obtain rfl : e = y := Option.some.inj (he.symm.trans hy)
      exact hre.uncovered hyx hxc hne

end Bind

/-- A new scope changes no answer in an old one. Binding fails only if the name is taken, and then
changes nothing; a new symbol is the new answer just where nothing stands in its way, and all other
answers stay. -/
theorem answers_after_step (h : Relation.ReflTransGen Step empty S) :
    (∀ place parent, (∀ d ∈ parent, S.Holds d) → ∀ d, S.Holds d → ∀ n,
      (S.push place parent).2.local? d n = S.local? d n ∧
      ∀ p, (S.push place parent).2.lookup d n p = S.lookup d n p) ∧
    ∀ c, S.Holds c → ∀ a,
      (∀ s, S.bind c a = .error s → S.local? c a.name = some s ∧ S.attempt c a = S) ∧
      ∀ s S', S.bind c a = .ok (s, S') → ∀ d n p,
        (S'.lookup d n p ≠ S.lookup d n p ↔ S.Reveals c a d n p) ∧
        (S.Reveals c a d n p → S'.lookup d n p = some s) ∧
        (¬ S.Reveals c a d n p → S'.lookup d n p = S.lookup d n p) := by
  have hw := wellFormed_of_steps h
  refine ⟨fun place parent hp d hd n => ⟨local?_push hd n, lookup_push hw hp hd n⟩,
    fun c hc a => ⟨fun s hs => ⟨bind_eq_error.mp hs, attempt_of_error hs⟩,
      fun s S' hb d n p => ⟨⟨?_, ?_⟩, fun hr => hr.lookup hw hb hc,
        lookup_bind_of_not_reveals hw hb hc⟩⟩⟩
  · intro hne
    by_contra hr
    exact hne (lookup_bind_of_not_reveals hw hb hc hr)
  · intro hr
    rw [hr.lookup hw hb hc]
    exact (lookup_ne_of_bind hb).symm

/-- A second `x` that is visible from behind its value: further back the inner scope gets a new
answer, before that and in the root it does not. -/
theorem answers_after_shadowing : nested.Holds ⟨1⟩ ∧ ∃ s S',
    nested.bind ⟨1⟩ ⟨.var, "x", ⟨16, 0, 16⟩, ⟨22, 0, 22⟩, false, none⟩ = .ok (s, S') ∧
      S'.lookup ⟨1⟩ "x" ⟨30, 0, 30⟩ = some s ∧
      S'.lookup ⟨1⟩ "x" ⟨22, 0, 22⟩ = nested.lookup ⟨1⟩ "x" ⟨22, 0, 22⟩ ∧
      S'.lookup ⟨0⟩ "x" ⟨30, 0, 30⟩ = nested.lookup ⟨0⟩ "x" ⟨30, 0, 30⟩ := by
  have hinner : nested.Holds ⟨1⟩ := by decide
  have hall := (answers_after_step steps_nested).2 ⟨1⟩ hinner
    ⟨.var, "x", ⟨16, 0, 16⟩, ⟨22, 0, 22⟩, false, none⟩
  have hroot : nested.parent? ⟨0⟩ = none := by decide
  refine ⟨hinner, _, _, rfl, ((hall.2 _ _ rfl _ _ _).2.1 ⟨rfl, .refl, .inr (by decide), ?_⟩),
    (hall.2 _ _ rfl _ _ _).2.2 ?_, (hall.2 _ _ rfl _ _ _).2.2 ?_⟩
  · intro e hde hed hne
    exact absurd ((wellFormed_of_steps steps_nested).liesIn_antisymm hed hde) hne
  · intro hr
    have hvisible := hr.visible
    revert hvisible
    decide
  · intro hr
    rcases Relation.ReflTransGen.cases_head hr.inside with he | ⟨y, hy, -⟩
    · exact absurd he (by decide)
    · exact nomatch hroot.symm.trans hy

end FrontEnd.ScopeTree
