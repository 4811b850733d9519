import FrontEnd.Types.Table

/-! How a table of types grows. New types stand behind the old ones and are made of old ones, so
that the index of a type is above those of its parts. -/

namespace FrontEnd

def TypeShape.parts : TypeShape → List TypeId
  | primitive _ => []
  | pointer target => [target]
  | function arguments result => arguments ++ [result]

namespace TypeTable

/-- The tables that a program can come to have. -/
inductive Reachable : TypeTable → Prop
  | initial : Reachable initial
  | pointer {T : TypeTable} {t : TypeId} : Reachable T → t.index < T.size →
      Reachable (T.pointer t).2
  | function {T : TypeTable} {as : List TypeId} {r : TypeId} : Reachable T →
      (∀ a ∈ as, a.index < T.size) → r.index < T.size → Reachable (T.function as r).2

def Grows (T T' : TypeTable) : Prop := T.shapes.toList <+: T'.shapes.toList

theorem Grows.refl (T : TypeTable) : T.Grows T := List.prefix_rfl

theorem Grows.trans {T U V : TypeTable} (h : T.Grows U) (h' : U.Grows V) : T.Grows V :=
  List.IsPrefix.trans h h'

theorem grows_enter (T : TypeTable) (s : TypeShape) : T.Grows (T.enter s).2 := by
  simp [Grows, enter]

theorem lt_size_of_shape? {T : TypeTable} {t : TypeId} {s : TypeShape}
    (h : T.shape? t = some s) : t.index < T.size := by
  obtain ⟨hlt, _⟩ := Array.getElem?_eq_some_iff.mp h
  exact hlt

theorem Grows.shape? {T T' : TypeTable} (h : T.Grows T') {t : TypeId} {s : TypeShape}
    (ht : T.shape? t = some s) : T'.shape? t = some s := by
  rw [TypeTable.shape?, ← Array.getElem?_toList] at ht ⊢
  obtain ⟨rest, hrest⟩ := h
  rw [← hrest, List.getElem?_append_left (List.getElem?_eq_some_iff.mp ht).1, ht]

theorem Grows.function? {T T' : TypeTable} (h : T.Grows T') {t : TypeId}
    {f : List TypeId × TypeId} (ht : T.function? t = some f) : T'.function? t = some f := by
  unfold TypeTable.function? at ht ⊢
  cases hs : T.shape? t with
  | none => simp [hs] at ht
  | some s => rw [h.shape? hs]; rwa [hs] at ht

theorem function?_eq_some {T : TypeTable} {t : TypeId} {as : List TypeId} {r : TypeId} :
    T.function? t = some (as, r) ↔ T.shape? t = some (.function as r) := by
  unfold function?
  split <;> simp_all

theorem size_enter (T : TypeTable) (s : TypeShape) : (T.enter s).2.size = T.size + 1 := by
  simp [enter, size]

theorem shape?_enter_cases {T : TypeTable} {s s' : TypeShape} {t : TypeId}
    (h : (T.enter s).2.shape? t = some s') : t.index = T.size ∧ s' = s ∨ T.shape? t = some s' := by
  have hlt := lt_size_of_shape? h
  rw [size_enter] at hlt
  by_cases ht : t.index < T.size
  · exact .inr (by rw [← h, shape?_enter_of_lt s ht])
  · obtain rfl : t = (T.enter s).1 := by
      cases t
      simp only [enter, TypeId.mk.injEq] at ht hlt ⊢
      omega
    rw [shape?_enter_self] at h
    exact .inl ⟨rfl, (Option.some.inj h).symm⟩

theorem shape?_initial {t : TypeId} {s : TypeShape} (h : initial.shape? t = some s) :
    ∃ p, t = primitive p ∧ s = .primitive p := by
  obtain ⟨i⟩ := t
  match i with
  | 0 => exact ⟨.int, rfl, (Option.some.inj h).symm⟩
  | 1 => exact ⟨.bool, rfl, (Option.some.inj h).symm⟩
  | 2 => exact ⟨.string, rfl, (Option.some.inj h).symm⟩
  | 3 => exact ⟨.unit, rfl, (Option.some.inj h).symm⟩
  | i + 4 => simp [initial, shape?] at h

namespace Reachable

theorem shape?_primitive {T : TypeTable} (h : T.Reachable) (p : Primitive) :
    T.shape? (TypeTable.primitive p) = some (.primitive p) := by
  induction h with
  | initial => cases p <;> rfl
  | pointer _ _ ih => exact (grows_enter _ _).shape? ih
  | function _ _ _ ih => exact (grows_enter _ _).shape? ih

theorem grows_initial {T : TypeTable} (h : T.Reachable) : TypeTable.initial.Grows T := by
  induction h with
  | initial => exact .refl _
  | pointer _ _ ih => exact ih.trans (grows_enter _ _)
  | function _ _ _ ih => exact ih.trans (grows_enter _ _)

theorem index_lt_of_mem_parts {T : TypeTable} (h : T.Reachable) {t u : TypeId} {s : TypeShape}
    (ht : T.shape? t = some s) (hu : u ∈ s.parts) : u.index < t.index := by
  induction h with
  | initial =>
    obtain ⟨q, _, rfl⟩ := shape?_initial ht
    exact absurd hu List.not_mem_nil
  | pointer _ hb ih =>
    rcases shape?_enter_cases ht with ⟨he, rfl⟩ | ht
    · obtain rfl := List.eq_of_mem_singleton hu
      omega
    · exact ih ht
  | function _ hb hr ih =>
    rcases shape?_enter_cases ht with ⟨he, rfl⟩ | ht
    · rcases List.mem_append.mp hu with hu | hu
      · have := hb u hu
        omega
      · obtain rfl := List.eq_of_mem_singleton hu
        omega
    · exact ih ht

end Reachable

end TypeTable

end FrontEnd
