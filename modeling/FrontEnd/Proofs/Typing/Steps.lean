import FrontEnd.Proofs.Types.Sameness
import FrontEnd.Proofs.Typing.Rules

/-! What the checks of single nodes say once they succeed. -/

namespace FrontEnd

theorem Expr.written_eq_ok {e : Expr} {t : TypeId} : e.written = .ok t ↔ e.type = some t := by
  unfold Expr.written
  cases e.type <;> simp

def BinaryForm.resultType : BinaryForm → TypeId
  | comparison => TypeTable.bool
  | arithmetic => TypeTable.int

namespace TypeContext

/-- The type written on the expression can stand for `u`. -/
def Has (X : TypeContext) (e : Expr) (u : TypeId) : Prop :=
  ∃ t, e.type = some t ∧ X.same t u = true

variable {X : TypeContext} {fn : Option TypeId} {t : TypeId}

theorem requireInt_eq_ok {e : Expr} {p : Position} {u : Unit} :
    X.requireInt e p = .ok u ↔ X.Has e TypeTable.int := by
  simp only [requireInt, bind_eq_ok, Expr.written_eq_ok, ite_eq_ok, pure_eq_ok, and_true, Has]

theorem requireBool_eq_ok {e : Expr} {u : Unit} :
    X.requireBool e = .ok u ↔ X.Has e TypeTable.bool := by
  simp only [requireBool, bind_eq_ok, Expr.written_eq_ok, ite_eq_ok, pure_eq_ok, and_true, Has]

theorem requireArguments_eq_ok {n : Nat} {ts : List TypeId} {es : List Expr} {u : Unit}
    (hes : ∀ e ∈ es, e.type.isSome) (hn : ts.length = es.length) :
    X.requireArguments n ts es = .ok u ↔
      List.Forall₂ (fun t (e : Expr) => ∀ u ∈ e.type, X.same t u = true) ts es := by
  induction es generalizing n ts with
  | nil =>
    obtain rfl := List.eq_nil_of_length_eq_zero hn
    exact ⟨fun _ => .nil, fun _ => rfl⟩
  | cons e es ih =>
    cases ts with
    | nil => exact nomatch hn
    | cons t ts =>
      rw [List.forall_mem_cons] at hes
      obtain ⟨v, hv⟩ := Option.isSome_iff_exists.mp hes.1
      rw [requireArguments, bind_eq_ok, List.forall₂_cons,
        ← ih (n := n + 1) hes.2 (Nat.succ.inj hn)]
      simp [Expr.written_eq_ok, ite_eq_ok, hv]

theorem resolve_eq_ok {site : Site} {k : Token} {s : SymbolId} :
    X.resolve site.scope k = .ok s ↔ X.scopes.Names site k s := by
  unfold resolve ScopeTree.Names
  cases site.scope with
  | none => simp
  | some c => cases h : X.scopes.lookup c k.text k.place <;> simp [h]

theorem symbolType_eq_ok {site : Site} {k : Token} {s : SymbolId}
    (hs : X.scopes.Names site k s) :
    X.symbolType s k = .ok t ↔ X.scopes.HasType X.inferred s t := by
  obtain ⟨c, _, hc⟩ := hs
  obtain ⟨d, hd⟩ := ScopeTree.exists_symbol?_of_lookup hc
  unfold symbolType ScopeTree.HasType
  cases hg : d.signature with
  | some g => simp [hd, hg]
  | none => cases hl : X.inferred.lookup s <;> simp_all

theorem typed_of_leafType {site : ExprSite} {form : LeafForm} {k : Token}
    (h : X.leafType site k = .ok t) :
    Typed X.scopes X.types fn X.inferred (.expr (.leaf site form k) t) X.inferred := by
  unfold leafType at h
  split at h
  next hk => exact pure_eq_ok.mp h ▸ .number hk
  next hk => exact pure_eq_ok.mp h ▸ .string hk
  next hk => exact pure_eq_ok.mp h ▸ .truth (.inl hk)
  next hk => exact pure_eq_ok.mp h ▸ .truth (.inr hk)
  next hk =>
    obtain ⟨s, hs, ht⟩ := bind_eq_ok.mp h
    have hs := resolve_eq_ok.mp hs
    exact .name hk hs ((symbolType_eq_ok hs).mp ht)
  next => exact nomatch h

theorem typeOf_binary {site : ExprSite} {form : BinaryForm} {k : Token} {l r : Expr} :
    X.typeOf fn (.binary site form k l r) = .ok t ↔
      X.Has l TypeTable.int ∧ X.Has r TypeTable.int ∧ t = form.resultType := by
  simp only [typeOf, bind_eq_ok, requireInt_eq_ok]
  cases form <;> simp [pure_eq_ok, BinaryForm.resultType]

theorem typeOf_unary {site : ExprSite} {k : Token} {e : Expr} :
    X.typeOf fn (.unary site k e) = .ok t ↔ X.Has e TypeTable.int ∧ t = TypeTable.int := by
  simp only [typeOf, bind_eq_ok, requireInt_eq_ok, pure_eq_ok]
  constructor
  · rintro ⟨_, h⟩
    exact h
  · intro h
    exact ⟨(), h⟩

theorem typeOf_ifThen {site : ExprSite} {c e : Expr} :
    X.typeOf fn (.ifThen site c e) = .ok t ↔
      X.Has c TypeTable.bool ∧ e.type.isSome ∧ t = TypeTable.unit := by
  simp only [typeOf, bind_eq_ok, requireBool_eq_ok, Expr.written_eq_ok, pure_eq_ok,
    Option.isSome_iff_exists]
  simp

theorem typeOf_ifElse {site : ExprSite} {c a b : Expr} :
    X.typeOf fn (.ifElse site c a b) = .ok t ↔
      X.Has c TypeTable.bool ∧ a.type = some t ∧ ∃ u, b.type = some u ∧ X.same t u = true := by
  simp only [typeOf, bind_eq_ok, requireBool_eq_ok, Expr.written_eq_ok, pure_eq_ok, ite_eq_ok]
  constructor
  · rintro ⟨_, hc, a, ha, b, hb, hs, rfl⟩
    exact ⟨hc, ha, b, hb, hs⟩
  · rintro ⟨hc, ha, b, hb, hs⟩
    exact ⟨(), hc, t, ha, b, hb, hs, rfl⟩

theorem typeOf_call {site : ExprSite} {f : Expr} {as : List Expr}
    (has : ∀ e ∈ as, e.type.isSome) :
    X.typeOf fn (.call site f as) = .ok t ↔
      ∃ g ts, f.type = some g ∧ X.types.function? g = some (ts, t) ∧
        List.Forall₂ (fun t (e : Expr) => ∀ u ∈ e.type, X.same t u = true) ts as := by
  simp only [typeOf, callType, bind_eq_ok, Expr.written_eq_ok]
  constructor
  · rintro ⟨g, hg, h⟩
    split at h
    next => cases h
    next ts r hf =>
      rw [ite_eq_ok, bind_eq_ok] at h
      obtain ⟨hn, _, hargs, ht⟩ := h
      obtain rfl := pure_eq_ok.mp ht
      exact ⟨g, ts, hg, hf, (requireArguments_eq_ok has hn).mp hargs⟩
  · rintro ⟨g, ts, hg, hf, hargs⟩
    have hn := hargs.length_eq
    refine ⟨g, hg, ?_⟩
    simp only [hf, ite_eq_ok, bind_eq_ok, pure_eq_ok]
    exact ⟨hn, (), (requireArguments_eq_ok has hn).mpr hargs, trivial⟩

theorem typeOf_returned {site : ExprSite} {e : Expr} :
    X.typeOf fn (.result site .fromFunction e) = .ok t ↔
      e.type = some t ∧ ∃ g ts r, fn = some g ∧ X.types.function? g = some (ts, r) ∧
        X.same r t = true := by
  simp only [typeOf, resultType]
  constructor
  · intro h
    split at h
    next => cases h
    next g =>
      split at h
      next => cases h
      next ts r hg =>
        simp only [bind_eq_ok, Expr.written_eq_ok, ite_eq_ok, pure_eq_ok] at h
        obtain ⟨u, hu, hs, rfl⟩ := h
        exact ⟨hu, g, ts, r, rfl, hg, hs⟩
  · rintro ⟨ht, g, ts, r, rfl, hg, hs⟩
    simp only [hg, bind_eq_ok, Expr.written_eq_ok, ite_eq_ok, pure_eq_ok]
    exact ⟨t, ht, hs, rfl⟩

theorem typeOf_yielded {site : ExprSite} {e : Expr} :
    X.typeOf fn (.result site .fromBlock e) = .ok t ↔ e.type = some t := Expr.written_eq_ok

theorem checkAssignment_eq_ok {l e : Expr} {u : Unit} :
    X.checkAssignment l e = .ok u ↔ ∃ k s t v, l.name? = some k ∧
      X.scopes.Names l.site.toSite k s ∧ (X.scopes.symbol? s).map Symbol.kind = some .var ∧
        X.scopes.HasType X.inferred s t ∧ e.type = some v ∧ X.same t v = true := by
  unfold checkAssignment
  constructor
  · intro h
    split at h
    next => exact nomatch h
    next k hk =>
      obtain ⟨s, hs, h⟩ := bind_eq_ok.mp h
      have hs := resolve_eq_ok.mp hs
      obtain ⟨hvar, h⟩ := ite_eq_ok.mp h
      obtain ⟨t, ht, h⟩ := bind_eq_ok.mp h
      obtain ⟨v, hv, h⟩ := bind_eq_ok.mp h
      obtain ⟨hsame, _⟩ := ite_eq_ok.mp h
      exact ⟨k, s, t, v, hk, hs, hvar, (symbolType_eq_ok hs).mp ht, Expr.written_eq_ok.mp hv, hsame⟩
  · rintro ⟨k, s, t, v, hk, hs, hvar, ht, hv, hsame⟩
    simp only [hk, bind_eq_ok, ite_eq_ok]
    exact ⟨s, resolve_eq_ok.mpr hs, hvar, t, (symbolType_eq_ok hs).mpr ht, v,
      Expr.written_eq_ok.mpr hv, hsame, rfl⟩

theorem declareVar_eq_ok {Y : TypeContext} {site : Site} {n : Token} {g : Option TypeId}
    {e : Expr} : X.declareVar site n g e = .ok Y ↔ ∃ t, e.type = some t ∧
      ((∃ u, g = some u ∧ X.same u t = true ∧ Y = X) ∨ (g = none ∧ ∃ s,
        site.ownSymbol? X.scopes n = some s ∧ Y = { X with inferred := (s, t) :: X.inferred })) := by
  unfold declareVar
  rw [bind_eq_ok]
  refine exists_congr fun t => and_congr Expr.written_eq_ok ?_
  cases g with
  | some u => simp [ite_eq_ok, pure_eq_ok]
  | none => cases site.ownSymbol? X.scopes n <;> simp [pure_eq_ok]

end TypeContext

end FrontEnd
