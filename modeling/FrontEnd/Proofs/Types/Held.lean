import FrontEnd.Proofs.Types.Sameness

/-! What is looked up in a table when types are shown or compared. A lookup behind the end of the
table has no answer; from types that the table holds it never comes to that. -/

namespace FrontEnd.TypeTable

variable {T U : TypeTable} {t u a b : TypeId} {n : Nat}

def Holds (T : TypeTable) (t : TypeId) : Prop := t.index < T.size

instance : Decidable (T.Holds t) := inferInstanceAs (Decidable (t.index < T.size))

theorem Holds.exists_shape? (h : T.Holds t) : ∃ s, T.shape? t = some s :=
  ⟨_, Array.getElem?_eq_getElem h⟩

theorem Reachable.holds_primitive (hT : T.Reachable) (p : Primitive) : T.Holds (primitive p) :=
  lt_size_of_shape? (hT.shape?_primitive p)

theorem Reachable.holds_of_mem_parts (hT : T.Reachable) {s : TypeShape} (ht : T.shape? t = some s)
    (hu : u ∈ s.parts) : T.Holds u :=
  Nat.lt_trans (hT.index_lt_of_mem_parts ht hu) (lt_size_of_shape? ht)

theorem Reachable.holds_of_function? (hT : T.Reachable) {as : List TypeId} {r : TypeId}
    (h : T.function? t = some (as, r)) : (∀ a ∈ as, T.Holds a) ∧ T.Holds r := by
  have hshape := function?_eq_some.mp h
  exact ⟨fun a ha => hT.holds_of_mem_parts hshape (List.mem_append_left _ ha),
    hT.holds_of_mem_parts hshape (List.mem_append_right _ List.mem_cons_self)⟩

/-- Showing `t` looks up nothing that is missing, and its bound reaches the innermost parts. -/
def showsWithin (T : TypeTable) : Nat → TypeId → Bool
  | 0, _ => false
  | n + 1, t =>
    match T.shape? t with
    | none => false
    | some s => s.parts.all (T.showsWithin n)

/-- The same for the comparison of `a` with `b`, whether or not it stops at a difference. -/
def comparesWithin (T : TypeTable) : Nat → TypeId → TypeId → Bool
  | 0, _, _ => false
  | n + 1, a, b =>
    a = b ||
      match T.shape? a, T.shape? b with
      | some s, some s' => (s.parts.zip s'.parts).all fun (x, y) => T.comparesWithin n x y
      | _, _ => false

theorem showsWithin_of_holds (hT : T.Reachable) (ht : T.Holds t) (hn : t.index < n) :
    T.showsWithin n t = true := by
  induction n generalizing t with
  | zero => omega
  | succ n ih =>
    obtain ⟨s, hs⟩ := ht.exists_shape?
    simp only [showsWithin, hs, List.all_eq_true]
    intro u hu
    have hlt := hT.index_lt_of_mem_parts hs hu
    exact ih (hT.holds_of_mem_parts hs hu) (by omega)

theorem comparesWithin_of_holds (hT : T.Reachable) (ha : T.Holds a) (hb : T.Holds b)
    (hn : a.index < n) : T.comparesWithin n a b = true := by
  induction n generalizing a b with
  | zero => omega
  | succ n ih =>
    obtain ⟨s, hs⟩ := ha.exists_shape?
    obtain ⟨s', hs'⟩ := hb.exists_shape?
    simp only [comparesWithin, hs, hs', Bool.or_eq_true, List.all_eq_true]
    refine .inr fun ⟨x, y⟩ hxy => ?_
    obtain ⟨hx, hy⟩ := List.of_mem_zip hxy
    have hlt : x.index < a.index := hT.index_lt_of_mem_parts hs hx
    have hbound : x.index < n := by omega
    exact ih (hT.holds_of_mem_parts hs hx) (hT.holds_of_mem_parts hs' hy) hbound

end FrontEnd.TypeTable
