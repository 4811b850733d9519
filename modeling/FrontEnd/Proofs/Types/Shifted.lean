import FrontEnd.Proofs.Types.Growth

/-! Tables that differ by types entered in between: from some index on, the types of one table stand
further behind in the other. A type looks the same in both. -/

namespace FrontEnd

/-- From the index `old` on, a type stands `added` places further behind. -/
def TypeId.shift (old added : Nat) (t : TypeId) : TypeId :=
  if t.index < old then t else ⟨t.index + added⟩

theorem TypeId.shift_of_lt {old added : Nat} {t : TypeId} (h : t.index < old) :
    t.shift old added = t := if_pos h

@[simp] theorem TypeId.shift_zero (old : Nat) (t : TypeId) : t.shift old 0 = t := by
  simp [shift]

theorem TypeId.shift_primitive {old : Nat} (h : 4 ≤ old) (added : Nat) (p : Primitive) :
    (TypeTable.primitive p).shift old added = TypeTable.primitive p := by
  refine shift_of_lt (Nat.lt_of_lt_of_le ?_ h)
  cases p <;> decide

namespace TypeShape

def map (f : TypeId → TypeId) : TypeShape → TypeShape
  | primitive p => primitive p
  | pointer target => pointer (f target)
  | function arguments result => function (arguments.map f) (f result)

theorem map_eq_self {f : TypeId → TypeId} {s : TypeShape} (h : ∀ t ∈ s.parts, f t = t) :
    s.map f = s := by
  cases s with
  | primitive p => rfl
  | pointer target => rw [map, h target (List.mem_singleton_self _)]
  | function arguments result =>
    have hresult : f result = result := h result (by simp [parts])
    have harguments : arguments.map f = arguments :=
      (List.map_congr_left fun t ht => h t (List.mem_append_left _ ht)).trans (List.map_id _)
    rw [map, hresult, harguments]

end TypeShape

namespace TypeTable

theorem Reachable.four_le_size {T : TypeTable} (h : T.Reachable) : 4 ≤ T.size :=
  lt_size_of_shape? (h.shape?_primitive .unit)

theorem shownWithin_eq {T : TypeTable} (hT : T.Reachable) {n m : Nat} {t : TypeId}
    (hn : t.index < n) (hm : t.index < m) : T.shownWithin n t = T.shownWithin m t := by
  induction n generalizing m t with
  | zero => omega
  | succ n ih =>
    obtain ⟨m, rfl⟩ : ∃ k, m = k + 1 := ⟨m - 1, by omega⟩
    cases hs : T.shape? t with
    | none => simp only [shownWithin, hs]
    | some s =>
      have hpart : ∀ u ∈ s.parts, T.shownWithin n u = T.shownWithin m u := by
        intro u hu
        have hlt := hT.index_lt_of_mem_parts hs hu
        exact ih (by omega) (by omega)
      cases s with
      | primitive p => simp only [shownWithin, hs]
      | pointer target => simp only [shownWithin, hs, hpart target (List.mem_singleton_self _)]
      | function arguments result =>
        have harguments := List.map_congr_left fun u hu => hpart u (List.mem_append_left _ hu)
        simp only [shownWithin, hs, harguments, hpart result (by simp [TypeShape.parts])]

/-- The second table has all that the first one has, from the index `old` on moved by `added`. -/
structure Shifted (old added : Nat) (T T' : TypeTable) : Prop where
  reachable : T.Reachable
  primitives : 4 ≤ old
  old_le : old ≤ T.size
  size : T'.size = T.size + added
  shape? (t : TypeId) :
    T'.shape? (t.shift old added) = (T.shape? t).map (TypeShape.map (TypeId.shift old added))

theorem Shifted.of_grows {T T' : TypeTable} (hT : T.Reachable) (h : T.Grows T') :
    T.Shifted T.size (T'.size - T.size) T' := by
  have hsize : T.size ≤ T'.size := List.IsPrefix.length_le h
  refine ⟨hT, hT.four_le_size, Nat.le_refl _, by omega, fun t => ?_⟩
  by_cases ht : t.index < T.size
  · obtain ⟨s, hs⟩ : ∃ s, T.shape? t = some s := ⟨_, Array.getElem?_eq_getElem ht⟩
    have hparts : ∀ u ∈ s.parts, u.shift T.size (T'.size - T.size) = u := fun u hu =>
      TypeId.shift_of_lt (Nat.lt_trans (hT.index_lt_of_mem_parts hs hu) ht)
    rw [TypeId.shift_of_lt ht, h.shape? hs, hs, Option.map_some, TypeShape.map_eq_self hparts]
  · have hnone : T.shape? t = none := Array.getElem?_eq_none (Nat.le_of_not_lt ht)
    have hlast : T'.size ≤ (t.shift T.size (T'.size - T.size)).index := by
      simp only [TypeId.shift, if_neg ht]
      omega
    rw [hnone]
    exact Array.getElem?_eq_none hlast

theorem Shifted.eq_of_zero {old : Nat} {T T' : TypeTable} (h : T.Shifted old 0 T') : T' = T := by
  obtain ⟨shapes⟩ := T
  obtain ⟨shapes'⟩ := T'
  refine congrArg TypeTable.mk (Array.ext_getElem? fun i => ?_)
  have hi := h.shape? ⟨i⟩
  have hid (s : TypeShape) : s.map (TypeId.shift old 0) = s :=
    TypeShape.map_eq_self fun t _ => TypeId.shift_zero old t
  simp only [TypeId.shift_zero, funext hid, Option.map_id'] at hi
  exact hi

namespace Shifted

variable {old added : Nat} {T T' : TypeTable} (h : T.Shifted old added T')
include h

theorem enter_fst (s s' : TypeShape) : (T'.enter s').1 = (T.enter s).1.shift old added := by
  have hold := h.old_le
  have hnew : ¬ T.size < old := Nat.not_lt.mpr hold
  simp only [TypeTable.enter, TypeId.shift, h.size, hnew, if_false]

theorem enter {s : TypeShape} (hs : (T.enter s).2.Reachable) :
    (T.enter s).2.Shifted old added (T'.enter (s.map (TypeId.shift old added))).2 := by
  have hsize := h.size
  have hold := h.old_le
  refine ⟨hs, h.primitives, ?_, ?_, fun t => ?_⟩
  · rw [size_enter]
    omega
  · rw [size_enter, size_enter]
    omega
  · by_cases ht : t = (T.enter s).1
    · rw [ht, ← h.enter_fst s (s.map (TypeId.shift old added)), shape?_enter_self,
        shape?_enter_self]
      rfl
    · have hne : t.index ≠ T.size := fun he => ht (congrArg TypeId.mk he)
      by_cases hlt : t.index < T.size
      · have hlt' : (t.shift old added).index < T'.size := by
          unfold TypeId.shift
          split
          · omega
          · show t.index + added < T'.size
            omega
        rw [shape?_enter_of_lt _ hlt', shape?_enter_of_lt _ hlt, h.shape?]
      · have hshift : (t.shift old added).index = t.index + added := by
          simp only [TypeId.shift, if_neg (show ¬ t.index < old by omega)]
        have hnone : (T.enter s).2.shape? t = none := by
          refine Array.getElem?_eq_none (show (T.enter s).2.size ≤ t.index from ?_)
          rw [size_enter]
          omega
        rw [hnone]
        refine Array.getElem?_eq_none (show (T'.enter _).2.size ≤ _ from ?_)
        rw [size_enter, hshift]
        omega

theorem function? (t : TypeId) : T'.function? (t.shift old added) =
    (T.function? t).map fun f => (f.1.map (TypeId.shift old added), f.2.shift old added) := by
  unfold TypeTable.function?
  rw [h.shape?]
  rcases T.shape? t with _ | _ | _ | _ <;> rfl

theorem shownWithin (n : Nat) (t : TypeId) :
    T'.shownWithin n (t.shift old added) = T.shownWithin n t := by
  induction n generalizing t with
  | zero => rfl
  | succ n ih =>
    simp only [TypeTable.shownWithin, h.shape? t]
    rcases T.shape? t with _ | _ | _ | ⟨as, r⟩
    · rfl
    · rfl
    · simp only [Option.map_some, TypeShape.map, ih]
    · simp only [Option.map_some, TypeShape.map, List.map_map, Function.comp_def, ih]

theorem shown (t : TypeId) : T'.shown (t.shift old added) = T.shown t := by
  have hle : t.index ≤ (t.shift old added).index := by
    unfold TypeId.shift
    split <;> simp
  unfold TypeTable.shown
  rw [h.shownWithin]
  exact shownWithin_eq h.reachable (Nat.lt_succ_of_le hle) (Nat.lt_succ_self _)

end Shifted

end TypeTable

end FrontEnd
