/-! Checks that succeed or fail with a reason, one after the other. Work that has not failed goes
on. -/

namespace FrontEnd

theorem bind_eq_ok {ε α β : Type} {x : Except ε α} {f : α → Except ε β} {b : β} :
    (x >>= f) = .ok b ↔ ∃ a, x = .ok a ∧ f a = .ok b := by
  cases x with
  | error _ => exact ⟨fun h => (nomatch h), fun ⟨_, h, _⟩ => nomatch h⟩
  | ok a => exact ⟨fun h => ⟨a, rfl, h⟩, fun ⟨_, ha, h⟩ => Except.ok.inj ha ▸ h⟩

theorem ite_eq_ok {ε α : Type} {p : Prop} [Decidable p] {x : Except ε α} {d : ε} {a : α} :
    (if p then x else .error d) = .ok a ↔ p ∧ x = .ok a := by
  split <;> simp_all

theorem ite_isSome_of_none {α β : Type} {o : Option β} {x y : α} (h : o = none) :
    (if o.isSome then x else y) = y := if_neg (by simp [h])

theorem pure_eq_ok {ε α : Type} {a b : α} : (pure a : Except ε α) = .ok b ↔ b = a :=
  ⟨fun h => (Except.ok.inj h).symm, fun h => h ▸ rfl⟩

theorem except_map_eq_ok {ε α β : Type} {x : Except ε α} {f : α → β} {b : β} :
    x.map f = .ok b ↔ ∃ a, x = .ok a ∧ f a = b := by
  cases x <;> simp [Except.map]

theorem forM_eq_ok {ε α : Type} {as : List α} {f : α → Except ε Unit} {u : Unit} :
    as.forM f = .ok u ↔ ∀ a ∈ as, f a = .ok () := by
  induction as with
  | nil => simp [pure_eq_ok]
  | cons a as ih =>
    have hcons : (a :: as).forM f = .ok u ↔ ∃ v, f a = .ok v ∧ as.forM f = .ok u := bind_eq_ok
    rw [hcons, ih, List.forall_mem_cons]
    constructor
    · rintro ⟨⟨⟩, ha, has⟩
      exact ⟨ha, has⟩
    · rintro ⟨ha, has⟩
      exact ⟨(), ha, has⟩

/-- What is computed fails only with reasons of this kind. -/
def FailsOnly {ε α : Type} (P : ε → Prop) (x : Except ε α) : Prop := ∀ d, x = .error d → P d

namespace FailsOnly

variable {ε α β : Type} {P : ε → Prop} {x : Except ε α}

theorem ok (a : α) : FailsOnly P (.ok a) := fun _ h => nomatch h

theorem error {d : ε} (h : P d) : FailsOnly P (.error d : Except _ α) :=
  fun _ he => Except.error.inj he ▸ h

theorem bind {f : α → Except ε β} (hx : FailsOnly P x) (hf : ∀ a, x = .ok a → FailsOnly P (f a)) :
    FailsOnly P (x >>= f) := by
  cases x with
  | error d => exact error (hx d rfl)
  | ok a => exact hf a rfl

theorem ite {p : Prop} [Decidable p] {d : ε} (hx : p → FailsOnly P x) (hd : ¬p → P d) :
    FailsOnly P (if p then x else .error d) := by
  split
  next h => exact hx h
  next h => exact error (hd h)

theorem map (f : α → β) (hx : FailsOnly P x) : FailsOnly P (x.map f) := by
  cases x with
  | error d => exact error (hx d rfl)
  | ok a => exact ok _

end FailsOnly

/-- Both checks succeed with related values, or both fail with related reasons. -/
inductive Alike {ε ε' α α' : Type} (E : ε → ε' → Prop) (A : α → α' → Prop) :
    Except ε α → Except ε' α' → Prop
  | ok {a : α} {a' : α'} : A a a' → Alike E A (.ok a) (.ok a')
  | error {d : ε} {d' : ε'} : E d d' → Alike E A (.error d) (.error d')

theorem Alike.bind {ε ε' α α' β β' : Type} {E : ε → ε' → Prop} {A : α → α' → Prop}
    {B : β → β' → Prop} {x : Except ε α} {x' : Except ε' α'} {f : α → Except ε β}
    {f' : α' → Except ε' β'} (h : Alike E A x x') (hf : ∀ a a', A a a' → Alike E B (f a) (f' a')) :
    Alike E B (x >>= f) (x' >>= f') := by
  cases h with
  | ok ha => exact hf _ _ ha
  | error hd => exact .error hd

theorem Alike.map {ε ε' α α' β β' : Type} {E : ε → ε' → Prop} {A : α → α' → Prop}
    {B : β → β' → Prop} {x : Except ε α} {x' : Except ε' α'} {f : α → β} {f' : α' → β'}
    (h : Alike E A x x') (hf : ∀ a a', A a a' → B (f a) (f' a')) :
    Alike E B (x.map f) (x'.map f') := by
  cases h with
  | ok ha => exact .ok (hf _ _ ha)
  | error hd => exact .error hd

theorem Alike.exists_ok {ε ε' α α' : Type} {E : ε → ε' → Prop} {A : α → α' → Prop} {a : α}
    {x : Except ε' α'} (h : Alike E A (.ok a) x) : ∃ a', x = .ok a' ∧ A a a' := by
  cases h with
  | ok ha => exact ⟨_, rfl, ha⟩

theorem Alike.eq_ok {ε ε' α : Type} {E : ε → ε' → Prop} {a : α} {x : Except ε' α}
    (h : Alike E Eq (.ok a) x) : x = .ok a := by
  cases h with
  | ok ha => rw [ha]

theorem Alike.ite {ε ε' α α' : Type} {E : ε → ε' → Prop} {A : α → α' → Prop} {p p' : Prop}
    [Decidable p] [Decidable p'] {x y : Except ε α} {x' y' : Except ε' α'} (hp : p ↔ p')
    (h : Alike E A x x') (h' : Alike E A y y') :
    Alike E A (if p then x else y) (if p' then x' else y') := by
  by_cases h₀ : p
  · rwa [if_pos h₀, if_pos (hp.mp h₀)]
  · rwa [if_neg h₀, if_neg fun h₁ => h₀ (hp.mpr h₁)]

end FrontEnd
