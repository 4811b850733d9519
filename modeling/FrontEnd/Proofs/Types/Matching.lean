import FrontEnd.Proofs.Types.Held
import FrontEnd.Proofs.Types.Shifted

/-! Structural equality of types that live in two tables. It is an equivalence over all tables, and
within one table it is the structural equality there. Types that match are shown alike. -/

namespace FrontEnd

namespace TypeShape

variable {R Q P : TypeId → TypeId → Prop} {s s' s'' : TypeShape}

theorem Related.flip (h : s.Related R s') : s'.Related (fun a b => R b a) s := by
  cases h with
  | primitive => exact .primitive
  | pointer h => exact .pointer h
  | function has h => exact .function has.flip h

theorem Related.comp (hP : ∀ a b c, R a b → Q b c → P a c) (h : s.Related R s')
    (h' : s'.Related Q s'') : s.Related P s'' := by
  cases h with
  | primitive =>
    cases h' with
    | primitive => exact .primitive
  | pointer h =>
    cases h' with
    | pointer h' => exact .pointer (hP _ _ _ h h')
  | function has h =>
    cases h' with
    | function hbs h' => exact .function (forall₂_comp hP has hbs) (hP _ _ _ h h')

theorem related_map {f : TypeId → TypeId} (h : ∀ t ∈ s.parts, R t (f t)) :
    s.Related R (s.map f) := by
  cases s with
  | primitive p => exact .primitive
  | pointer t => exact .pointer (h t (List.mem_singleton_self t))
  | function as r =>
    refine .function ?_ (h r (List.mem_append_right _ (List.mem_singleton_self r)))
    rw [List.forall₂_map_right_iff]
    exact List.forall₂_same.mpr fun t ht => h t (List.mem_append_left _ ht)

end TypeShape

namespace TypeTable

/-- The first type is built in the first table as the second one is in the second table. -/
inductive Matches (T U : TypeTable) : TypeId → TypeId → Prop
  | intro {a b : TypeId} {s s' : TypeShape} (ha : T.shape? a = some s)
      (hb : U.shape? b = some s') : s.Related (Matches T U) s' → Matches T U a b

namespace Matches

variable {T U U' : TypeTable} {a b : TypeId}

theorem mono (hT : T.Reachable) (hU : U.Grows U') (h : T.Matches U a b) : T.Matches U' a b := by
  generalize hn : a.index = n
  induction n using Nat.strongRecOn generalizing a b with
  | ind n ih =>
    cases h with
    | intro ha hb hrel =>
      refine .intro ha (hU.shape? hb) (hrel.mono fun x hx y hxy => ?_)
      exact ih x.index (hn ▸ hT.index_lt_of_mem_parts ha hx) hxy rfl

theorem sameWithin (hT : T.Reachable) (hU : T.Grows U) (h : T.Matches U a b) {n : Nat}
    (hn : a.index < n) : U.sameWithin n a b = true := by
  induction n generalizing a b with
  | zero => omega
  | succ n ih =>
    cases h with
    | intro ha hb hrel =>
      refine sameWithin_succ.mpr (.inr ⟨_, _, hU.shape? ha, hb, hrel.mono fun x hx y hxy => ?_⟩)
      have hlt := hT.index_lt_of_mem_parts ha hx
      exact ih hxy (by omega)

theorem same (hT : T.Reachable) (hU : T.Grows U) (h : T.Matches U a b) : U.same a b = true :=
  h.sameWithin hT hU (Nat.lt_succ_self _)

theorem function? (h : T.Matches U a b) {as : List TypeId} {r : TypeId}
    (ha : T.function? a = some (as, r)) :
    ∃ bs q, U.function? b = some (bs, q) ∧ bs.length = as.length := by
  cases h with
  | intro ha' hb hrel =>
    obtain rfl := Option.some.inj (ha'.symm.trans (function?_eq_some.mp ha))
    cases hrel with
    | function has hr => exact ⟨_, _, function?_eq_some.mpr hb, has.length_eq.symm⟩

theorem shownWithin_eq (h : T.Matches U a b) (n : Nat) : T.shownWithin n a = U.shownWithin n b := by
  induction n generalizing a b with
  | zero => rfl
  | succ n ih =>
    cases h with
    | intro ha hb hrel =>
      cases hrel with
      | primitive => simp only [shownWithin, ha, hb]
      | pointer h => simp only [shownWithin, ha, hb, ih h]
      | @function as bs x y has h =>
        have hmap : bs.map (U.shownWithin n) = as.map (T.shownWithin n) :=
          map_eq_map_of_forall₂ has fun _ _ _ hxy => (ih hxy).symm
        simp only [shownWithin, ha, hb, hmap, ih h]

theorem shown_eq (hT : T.Reachable) (hU : U.Reachable) (h : T.Matches U a b) :
    T.shown a = U.shown b := by
  have ha : a.index < a.index + b.index + 1 := by omega
  have hb : b.index < a.index + b.index + 1 := by omega
  calc T.shown a = T.shownWithin (a.index + b.index + 1) a :=
        TypeTable.shownWithin_eq hT (Nat.lt_succ_self _) ha
    _ = U.shownWithin (a.index + b.index + 1) b := h.shownWithin_eq _
    _ = U.shown b := TypeTable.shownWithin_eq hU hb (Nat.lt_succ_self _)

theorem rel_function? (h : T.Matches U a b) :
    Option.Rel (fun f f' => List.Forall₂ (T.Matches U) f.1 f'.1 ∧ T.Matches U f.2 f'.2)
      (T.function? a) (U.function? b) := by
  cases h with
  | intro ha hb hrel =>
    unfold TypeTable.function?
    rw [ha, hb]
    cases hrel with
    | primitive => exact .none
    | pointer _ => exact .none
    | function has h => exact .some ⟨has, h⟩

theorem symm (hT : T.Reachable) (h : T.Matches U a b) : U.Matches T b a := by
  generalize hn : a.index = n
  induction n using Nat.strongRecOn generalizing a b with
  | ind n ih =>
    cases h with
    | @intro _ _ s s' ha hb hrel =>
      have hparts : s.Related (fun x y => U.Matches T y x) s' := hrel.mono fun x hx y hxy =>
        ih x.index (hn ▸ hT.index_lt_of_mem_parts ha hx) hxy rfl
      exact .intro hb ha hparts.flip

theorem trans {V : TypeTable} {c : TypeId} (hT : T.Reachable) (h : T.Matches U a b)
    (h' : U.Matches V b c) : T.Matches V a c := by
  generalize hn : a.index = n
  induction n using Nat.strongRecOn generalizing a b c with
  | ind n ih =>
    cases h with
    | @intro _ _ s s' ha hb hrel =>
      cases h' with
      | intro hb' hc hrel' =>
        obtain rfl := Option.some.inj (hb.symm.trans hb')
        have hparts : s.Related (fun x y => ∀ z, U.Matches V y z → T.Matches V x z) s' :=
          hrel.mono fun x hx y hxy z hyz =>
            ih x.index (hn ▸ hT.index_lt_of_mem_parts ha hx) hxy hyz rfl
        exact .intro ha hc (hparts.comp (fun _ _ z hxy hyz => hxy z hyz) hrel')

end Matches

variable {T U : TypeTable} {a b c d : TypeId}

theorem Reachable.matches_self (hT : T.Reachable) (ha : T.Holds a) : T.Matches T a a := by
  generalize hn : a.index = n
  induction n using Nat.strongRecOn generalizing a with
  | ind n ih =>
    obtain ⟨s, hs⟩ := ha.exists_shape?
    have hparts : ∀ t ∈ s.parts, T.Matches T t t := fun t ht =>
      ih t.index (hn ▸ hT.index_lt_of_mem_parts hs ht) (hT.holds_of_mem_parts hs ht) rfl
    have hmap : s.map (fun t => t) = s := TypeShape.map_eq_self fun _ _ => rfl
    refine .intro hs hs ?_
    have hrelated := TypeShape.related_map (f := fun t => t) hparts
    rwa [hmap] at hrelated

theorem Reachable.matches_of_same (hT : T.Reachable) (ha : T.Holds a) (h : T.same a b = true) :
    T.Matches T a b := by
  generalize hn : a.index = n
  induction n using Nat.strongRecOn generalizing a b with
  | ind n ih =>
    rcases sameWithin_succ.mp h with rfl | ⟨s, s', hs, hs', hrel⟩
    · exact hT.matches_self ha
    · refine .intro hs hs' (hrel.mono fun x hx y hxy => ?_)
      have hlt := hT.index_lt_of_mem_parts hs hx
      exact ih x.index (hn ▸ hlt) (hT.holds_of_mem_parts hs hx)
        ((same_iff_sameWithin hT hlt).mpr hxy) rfl

theorem Matches.holds (h : T.Matches U a b) : T.Holds a := by
  cases h with
  | intro ha _ _ => exact lt_size_of_shape? ha

/-- Whether types are equal does not depend on the table they are looked up in. -/
theorem Matches.same_of_same (hT : T.Reachable) (hU : U.Reachable) (h : T.Matches U a b)
    (h' : T.Matches U c d) (hsame : T.same a c = true) : U.same b d = true := by
  have hac := hT.matches_of_same h.holds hsame
  have hbd := (h.symm hT).trans hU (hac.trans hT h')
  exact hbd.same hU (.refl U)

theorem Matches.same_eq (hT : T.Reachable) (hU : U.Reachable) (h : T.Matches U a b)
    (h' : T.Matches U c d) : T.same a c = U.same b d :=
  Bool.eq_iff_iff.mpr ⟨h.same_of_same hT hU h', (h.symm hT).same_of_same hU hT (h'.symm hT)⟩

theorem Reachable.matches_primitive (hT : T.Reachable) (hU : U.Reachable) (p : Primitive) :
    T.Matches U (primitive p) (primitive p) :=
  .intro (hT.shape?_primitive p) (hU.shape?_primitive p) .primitive

theorem Shifted.matches {old added : Nat} (h : T.Shifted old added U) (ha : T.Holds a) :
    T.Matches U a (a.shift old added) := by
  generalize hn : a.index = n
  induction n using Nat.strongRecOn generalizing a with
  | ind n ih =>
    obtain ⟨s, hs⟩ := ha.exists_shape?
    have hshape := h.shape? a
    rw [hs, Option.map_some] at hshape
    refine .intro hs hshape (TypeShape.related_map fun t ht => ?_)
    exact ih t.index (hn ▸ h.reachable.index_lt_of_mem_parts hs ht)
      (h.reachable.holds_of_mem_parts hs ht) rfl

theorem Grows.matches (h : T.Grows U) (hT : T.Reachable) (ha : T.Holds a) : T.Matches U a a :=
  (hT.matches_self ha).mono hT h

end TypeTable

end FrontEnd
