import FrontEnd.Proofs.Grammar.Language
import FrontEnd.Proofs.Grammar.Continuation
import FrontEnd.Proofs.Typing.Steps

/-! Checks of single nodes that fail only because the program breaks a rule, never because something
was not there. -/

namespace FrontEnd

/-- The faults of a stage that did not get what it relies on. -/
def Fault.isBroken : Fault → Bool
  | badTarget | internal _ => true
  | _ => false

/-- What is computed may fail, but not for want of something. -/
def Sane {α : Type} (x : Except Diagnostic α) : Prop := ∀ d, x = .error d → d.fault.isBroken = false

namespace Sane

variable {α β : Type}

theorem ok (a : α) : Sane (.ok a) := FailsOnly.ok a

theorem error {d : Diagnostic} (h : d.fault.isBroken = false) : Sane (.error d : Except _ α) :=
  FailsOnly.error h

theorem bind {x : Except Diagnostic α} {f : α → Except Diagnostic β} (hx : Sane x)
    (hf : ∀ a, x = .ok a → Sane (f a)) : Sane (x >>= f) := FailsOnly.bind hx hf

theorem ite {p : Prop} [Decidable p] {x : Except Diagnostic α} {d : Diagnostic} (hx : Sane x)
    (hd : d.fault.isBroken = false) : Sane (if p then x else .error d) :=
  FailsOnly.ite (fun _ => hx) fun _ => hd

theorem map {x : Except Diagnostic α} (f : α → β) (hx : Sane x) : Sane (x.map f) :=
  FailsOnly.map f hx

end Sane

namespace Sane

variable {X : TypeContext} {fn : Option TypeId}

theorem written {e : Expr} (he : e.type.isSome) : Sane e.written := by
  obtain ⟨t, ht⟩ := Option.isSome_iff_exists.mp he
  rw [Expr.written_eq_ok.mpr ht]
  exact .ok t

theorem requireInt {e : Expr} (he : e.type.isSome) (p : Position) : Sane (X.requireInt e p) :=
  (written he).bind fun _ _ => .ite (.ok _) rfl

theorem requireBool {e : Expr} (he : e.type.isSome) : Sane (X.requireBool e) :=
  (written he).bind fun _ _ => .ite (.ok _) rfl

theorem requireArguments {n : Nat} {ts : List TypeId} {es : List Expr}
    (hes : ∀ e ∈ es, e.type.isSome) : Sane (X.requireArguments n ts es) := by
  induction es generalizing n ts with
  | nil => cases ts <;> exact .ok _
  | cons e es ih =>
    cases ts with
    | nil => exact .ok _
    | cons t ts =>
      rw [List.forall_mem_cons] at hes
      exact (written hes.1).bind fun _ _ => .ite (ih hes.2) rfl

theorem symbolType (s : SymbolId) (k : Token) : Sane (X.symbolType s k) := by
  unfold TypeContext.symbolType
  dsimp only
  split
  · exact .ok _
  · exact .error rfl

theorem callType {site : ExprSite} {f : Expr} {as : List Expr} (hf : f.type.isSome)
    (has : ∀ e ∈ as, e.type.isSome) : Sane (X.callType site f as) := by
  refine (written hf).bind fun t _ => ?_
  split
  · exact .error rfl
  · exact .ite ((requireArguments has).bind fun _ _ => .ok _) rfl

theorem resultType {site : ExprSite} {form : ResultForm} {v : Expr} (hv : v.type.isSome)
    (hfn : ∀ t ∈ fn, ∃ f, X.types.function? t = some f) :
    Sane (X.resultType fn site form v) := by
  cases form with
  | fromBlock => exact written hv
  | fromFunction =>
    unfold TypeContext.resultType
    cases fn with
    | none => exact .error rfl
    | some g =>
      obtain ⟨⟨ts, r⟩, hg⟩ := hfn g rfl
      simp only [hg]
      exact (written hv).bind fun _ _ => .ite (.ok _) rfl

theorem leafType {site : ExprSite} {k : Token} (hk : k.kind ∈ TokenKind.literals)
    (hs : k.kind = .identifier → ∃ s, X.scopes.Names site.toSite k s) :
    Sane (X.leafType site k) := by
  have hkinds : ∀ i ∈ TokenKind.literals, i = .identifier ∨ i = .number ∨ i = .string ∨
      i = .kwTrue ∨ i = .kwFalse := by decide
  unfold TypeContext.leafType
  rcases hkinds _ hk with hname | h | h | h | h
  · obtain ⟨s, hs⟩ := hs hname
    rw [hname]
    refine bind ?_ fun s _ => symbolType s k
    rw [TypeContext.resolve_eq_ok.mpr hs]
    exact ok s
  all_goals
    rw [h]
    exact ok _

theorem checkAssignment {l e : Expr} (hl : l.name?.isSome)
    (hs : ∀ k ∈ l.name?, ∃ s, X.scopes.Names l.site.toSite k s) (he : e.type.isSome) :
    Sane (X.checkAssignment l e) := by
  obtain ⟨k, hk⟩ := Option.isSome_iff_exists.mp hl
  obtain ⟨s, hs⟩ := hs k hk
  have hresolve : X.resolve l.site.toSite.scope k = .ok s := TypeContext.resolve_eq_ok.mpr hs
  unfold TypeContext.checkAssignment
  simp only [hk]
  refine bind (hresolve ▸ ok s) fun s' _ => ite ?_ rfl
  exact (symbolType s' k).bind fun _ _ => (written he).bind fun _ _ => ite (ok _) rfl

theorem declareVar {site : Site} {n : Token} {g : Option TypeId} {e : Expr} (he : e.type.isSome)
    (hn : ∃ s, site.ownSymbol? X.scopes n = some s) : Sane (X.declareVar site n g e) := by
  obtain ⟨s, hs⟩ := hn
  refine (written he).bind fun t _ => ?_
  cases g with
  | some u => exact ite (ok _) rfl
  | none =>
    simp only [hs]
    exact ok _

end Sane

end FrontEnd
