import FrontEnd.Proofs.Types.Matching

/-! Types as trees. A type of a table unfolds to one tree. Types that unfold to the same tree are
equal, and since the text of a tree can be read in one way only, no other types are shown alike. -/

namespace FrontEnd

inductive TypeTree where
  | primitive (p : Primitive)
  | pointer (target : TypeTree)
  | function (arguments : List TypeTree) (result : TypeTree)

namespace TypeTree

mutual

def shown : TypeTree → String
  | primitive p => p.name
  | pointer x => "*" ++ x.shown
  | function xs x => "[" ++ ", ".intercalate (shownEach xs) ++ "] -> " ++ x.shown

def shownEach : List TypeTree → List String
  | [] => []
  | x :: xs => x.shown :: shownEach xs

end

theorem shownEach_eq_map (xs : List TypeTree) : shownEach xs = xs.map shown := by
  induction xs with
  | nil => rfl
  | cons x xs ih => rw [shownEach, ih, List.map_cons]

theorem toList_shown_pointer (x : TypeTree) :
    (pointer x).shown.toList = '*' :: x.shown.toList := by
  rw [shown, String.toList_append]
  rfl

def listed (xs : List TypeTree) : List Char := (", ".intercalate (shownEach xs)).toList

theorem toList_shown_function (xs : List TypeTree) (x : TypeTree) :
    (function xs x).shown.toList =
      '[' :: (listed xs ++ ']' :: ' ' :: '-' :: '>' :: ' ' :: x.shown.toList) := by
  simp only [shown, String.toList_append, List.append_assoc, listed]
  rfl

theorem listed_singleton (x : TypeTree) : listed [x] = x.shown.toList := by
  simp [listed, shownEach]

theorem listed_cons_cons (x y : TypeTree) (xs : List TypeTree) :
    listed (x :: y :: xs) = x.shown.toList ++ ',' :: ' ' :: listed (y :: xs) := by
  simp only [listed, shownEach, String.toList_intercalate, List.map_cons,
    List.intercalate_cons_cons, List.append_assoc]
  rfl

theorem exists_toList_shown (x : TypeTree) : ∃ c cs, x.shown.toList = c :: cs ∧ c ≠ ']' := by
  cases x with
  | primitive p => cases p <;> exact ⟨_, _, rfl, by decide⟩
  | pointer x => exact ⟨_, _, toList_shown_pointer x, by decide⟩
  | function xs x => exact ⟨_, _, toList_shown_function xs x, by decide⟩

theorem ne_listed_append (x : TypeTree) (xs : List TypeTree) {cs ds : List Char} :
    listed (x :: xs) ++ ']' :: cs ≠ ']' :: ds := by
  obtain ⟨c, rest, hx, hc⟩ := exists_toList_shown x
  intro h
  cases xs with
  | nil =>
    rw [listed_singleton, hx] at h
    exact hc (List.cons.inj h).1
  | cons y xs =>
    rw [listed_cons_cons, hx] at h
    exact hc (List.cons.inj h).1

mutual

theorem append_inj (x y : TypeTree) {cs ds : List Char}
    (h : x.shown.toList ++ cs = y.shown.toList ++ ds) : x = y ∧ cs = ds := by
  cases x with
  | primitive p =>
    cases y with
    | primitive q => cases p <;> cases q <;> simp_all [shown, Primitive.name]
    | pointer y => cases p <;> simp [shown, Primitive.name] at h
    | function ys y => cases p <;> simp [shown, Primitive.name] at h
  | pointer x =>
    rw [toList_shown_pointer] at h
    cases y with
    | primitive q => cases q <;> simp [shown, Primitive.name] at h
    | pointer y =>
      rw [toList_shown_pointer] at h
      obtain ⟨rfl, hrest⟩ := append_inj x y (List.cons.inj h).2
      exact ⟨rfl, hrest⟩
    | function ys y => simp [toList_shown_function] at h
  | function xs x =>
    rw [toList_shown_function] at h
    cases y with
    | primitive q => cases q <;> simp [shown, Primitive.name] at h
    | pointer y => simp [toList_shown_pointer] at h
    | function ys y =>
      rw [toList_shown_function, List.cons_append, List.cons_append, List.append_assoc,
        List.append_assoc] at h
      obtain ⟨rfl, hresult⟩ := listed_inj xs ys (List.cons.inj h).2
      obtain ⟨rfl, hrest⟩ := append_inj x y (by simpa using hresult)
      exact ⟨rfl, hrest⟩

theorem listed_inj (xs ys : List TypeTree) {cs ds : List Char}
    (h : listed xs ++ ']' :: cs = listed ys ++ ']' :: ds) : xs = ys ∧ cs = ds := by
  cases xs with
  | nil =>
    cases ys with
    | nil => exact ⟨rfl, (List.cons.inj h).2⟩
    | cons y ys => exact absurd h (ne_listed_append y ys).symm
  | cons x xs =>
    cases ys with
    | nil => exact absurd h.symm (ne_listed_append x xs).symm
    | cons y ys =>
      cases xs with
      | nil =>
        cases ys with
        | nil =>
          rw [listed_singleton, listed_singleton] at h
          obtain ⟨rfl, hrest⟩ := append_inj x y h
          exact ⟨rfl, (List.cons.inj hrest).2⟩
        | cons y' ys =>
          rw [listed_singleton, listed_cons_cons, List.append_assoc] at h
          obtain ⟨-, hrest⟩ := append_inj x y h
          exact absurd (List.cons.inj hrest).1 (by decide)
      | cons x' xs =>
        cases ys with
        | nil =>
          rw [listed_singleton, listed_cons_cons, List.append_assoc] at h
          obtain ⟨-, hrest⟩ := append_inj x y h
          exact absurd (List.cons.inj hrest).1 (by decide)
        | cons y' ys =>
          rw [listed_cons_cons, listed_cons_cons, List.append_assoc, List.append_assoc] at h
          obtain ⟨rfl, hrest⟩ := append_inj x y h
          obtain ⟨hargs, hrest⟩ := listed_inj (x' :: xs) (y' :: ys) (by simpa using hrest)
          exact ⟨congrArg _ hargs, hrest⟩

end

theorem shown_inj {x y : TypeTree} : x.shown = y.shown ↔ x = y := by
  refine ⟨fun h => ?_, congrArg shown⟩
  have hnil : x.shown.toList ++ [] = y.shown.toList ++ [] := by rw [h]
  exact (append_inj x y hnil).1

end TypeTree

namespace TypeShape

/-- Whether shapes are of one kind and `f` finds their parts alike. -/
def alike (f : TypeId → TypeId → Bool) : TypeShape → TypeShape → Bool
  | primitive p, primitive q => p = q
  | pointer c, pointer d => f c d
  | function cs c, function ds d =>
    cs.length = ds.length && (cs.zip ds).all (fun (x, y) => f x y) && f c d
  | _, _ => false

theorem alike_iff {f : TypeId → TypeId → Bool} {s s' : TypeShape} :
    s.alike f s' = true ↔ s.Related (fun a b => f a b = true) s' := by
  constructor
  · intro h
    unfold alike at h
    split at h
    next =>
      obtain rfl := of_decide_eq_true h
      exact .primitive
    next => exact .pointer h
    next =>
      rw [Bool.and_eq_true, TypeTable.all_zip_iff] at h
      exact .function h.1 h.2
    next => exact nomatch h
  · intro h
    cases h with
    | primitive => exact decide_eq_true rfl
    | pointer h => exact h
    | function has h => exact Bool.and_eq_true_iff.mpr ⟨TypeTable.all_zip_iff.mpr has, h⟩

section Related

variable {R : TypeId → TypeId → Prop} {a b : TypeId} {as bs : List TypeId}

theorem related_pointer : (pointer a).Related R (pointer b) ↔ R a b := by
  refine ⟨fun h => ?_, .pointer⟩
  cases h with
  | pointer h => exact h

theorem related_function :
    (function as a).Related R (function bs b) ↔ List.Forall₂ R as bs ∧ R a b := by
  refine ⟨fun h => ?_, fun h => .function h.1 h.2⟩
  cases h with
  | function has h => exact ⟨has, h⟩

end Related

end TypeShape

namespace TypeTable

variable {T U : TypeTable} {a b t : TypeId} {x y : TypeTree}

/-- The tree that a type unfolds to, part by part. -/
inductive Unfolds (T : TypeTable) : TypeId → TypeTree → Prop
  | primitive {t : TypeId} {p : Primitive} (ht : T.shape? t = some (.primitive p)) :
      Unfolds T t (.primitive p)
  | pointer {t u : TypeId} {x : TypeTree} (ht : T.shape? t = some (.pointer u)) :
      Unfolds T u x → Unfolds T t (.pointer x)
  | function {t r : TypeId} {as : List TypeId} {xs : List TypeTree} {x : TypeTree}
      (ht : T.shape? t = some (.function as r)) : List.Forall₂ (Unfolds T) as xs →
      Unfolds T r x → Unfolds T t (.function xs x)

theorem Unfolds.holds (h : T.Unfolds t x) : T.Holds t := by
  cases h with
  | primitive ht | pointer ht _ | function ht _ _ => exact lt_size_of_shape? ht

theorem Unfolds.of_primitive {p : Primitive} (h : T.Unfolds t x)
    (ht : T.shape? t = some (.primitive p)) : x = .primitive p := by
  cases h with
  | primitive h =>
    cases ht.symm.trans h
    rfl
  | pointer h _ | function h _ _ => cases ht.symm.trans h

theorem Unfolds.of_pointer {u : TypeId} (h : T.Unfolds t x)
    (ht : T.shape? t = some (.pointer u)) : ∃ z, x = .pointer z ∧ T.Unfolds u z := by
  cases h with
  | pointer h hx =>
    cases ht.symm.trans h
    exact ⟨_, rfl, hx⟩
  | primitive h | function h _ _ => cases ht.symm.trans h

theorem Unfolds.of_function {as : List TypeId} {r : TypeId} (h : T.Unfolds t x)
    (ht : T.shape? t = some (.function as r)) :
    ∃ zs z, x = .function zs z ∧ List.Forall₂ T.Unfolds as zs ∧ T.Unfolds r z := by
  cases h with
  | function h hxs hx =>
    cases ht.symm.trans h
    exact ⟨_, _, rfl, hxs, hx⟩
  | primitive h | pointer h _ => cases ht.symm.trans h

theorem exists_forall₂ {α β : Type} {R : α → β → Prop} {as : List α}
    (h : ∀ a ∈ as, ∃ b, R a b) : ∃ bs, List.Forall₂ R as bs := by
  induction as with
  | nil => exact ⟨[], .nil⟩
  | cons a as ih =>
    rw [List.forall_mem_cons] at h
    obtain ⟨⟨b, hb⟩, has⟩ := h
    obtain ⟨bs, hbs⟩ := ih has
    exact ⟨b :: bs, .cons hb hbs⟩

theorem Reachable.exists_unfolds (hT : T.Reachable) (ht : T.Holds t) : ∃ x, T.Unfolds t x := by
  generalize hn : t.index = n
  induction n using Nat.strongRecOn generalizing t with
  | ind n ih =>
    obtain ⟨s, hs⟩ := ht.exists_shape?
    have hpart : ∀ u ∈ s.parts, ∃ x, T.Unfolds u x := fun u hu =>
      ih u.index (hn ▸ hT.index_lt_of_mem_parts hs hu) (hT.holds_of_mem_parts hs hu) rfl
    cases s with
    | primitive p => exact ⟨_, .primitive hs⟩
    | pointer u =>
      obtain ⟨x, hx⟩ := hpart u (List.mem_singleton_self u)
      exact ⟨_, .pointer hs hx⟩
    | function as r =>
      obtain ⟨xs, hxs⟩ := exists_forall₂ fun a ha => hpart a (List.mem_append_left _ ha)
      obtain ⟨x, hx⟩ := hpart r (List.mem_append_right _ (List.mem_singleton_self r))
      exact ⟨_, .function hs hxs hx⟩

theorem Unfolds.shownWithin_eq (hT : T.Reachable) (h : T.Unfolds t x) {n : Nat}
    (hn : t.index < n) : T.shownWithin n t = x.shown := by
  induction n generalizing t x with
  | zero => omega
  | succ n ih =>
    have hpart {s : TypeShape} (hs : T.shape? t = some s) {u : TypeId} {z : TypeTree}
        (hu : u ∈ s.parts) (hz : T.Unfolds u z) : T.shownWithin n u = z.shown := by
      have hlt := hT.index_lt_of_mem_parts hs hu
      exact ih hz (by omega)
    cases h with
    | primitive ht => simp only [shownWithin, ht, TypeTree.shown]
    | pointer ht hx =>
      simp only [shownWithin, ht, TypeTree.shown, hpart ht (List.mem_singleton_self _) hx]
    | @function _ r as xs x ht hxs hx =>
      have harguments : xs.map TypeTree.shown = as.map (T.shownWithin n) :=
        map_eq_map_of_forall₂ hxs fun a ha z hz =>
          (hpart ht (List.mem_append_left _ ha) hz).symm
      have hresult := hpart ht (List.mem_append_right _ (List.mem_singleton_self r)) hx
      simp only [shownWithin, ht, TypeTree.shown, TypeTree.shownEach_eq_map, harguments, hresult]

theorem Unfolds.shown_eq (hT : T.Reachable) (h : T.Unfolds t x) : T.shown t = x.shown :=
  h.shownWithin_eq hT (Nat.lt_succ_self _)

theorem Unfolds.matches (hT : T.Reachable) (ha : T.Unfolds a x) (hb : U.Unfolds b x) :
    T.Matches U a b := by
  generalize hn : a.index = n
  induction n using Nat.strongRecOn generalizing a b x with
  | ind n ih =>
    have hpart {s : TypeShape} (hs : T.shape? a = some s) {c : TypeId} (hc : c ∈ s.parts) :
        c.index < n := hn ▸ hT.index_lt_of_mem_parts hs hc
    cases ha with
    | primitive ha =>
      cases hb with
      | primitive hb => exact .intro ha hb .primitive
    | pointer ha hx =>
      cases hb with
      | pointer hb hy =>
        exact .intro ha hb (.pointer (ih _ (hpart ha (List.mem_singleton_self _)) hx hy rfl))
    | @function _ r as _ _ ha hxs hx =>
      cases hb with
      | function hb hys hy =>
        have hr := hpart ha (List.mem_append_right _ (List.mem_singleton_self r))
        have has := (List.forall₂_and_left _ _).mpr
          ⟨fun c hc => hpart ha (List.mem_append_left _ hc), hxs⟩
        have harguments := forall₂_comp (Q := fun z d => U.Unfolds d z)
          (fun c _ _ hcz hdz => ih c.index hcz.1 hcz.2 hdz rfl) has hys.flip
        exact .intro ha hb (.function harguments (ih _ hr hx hy rfl))

theorem Unfolds.eq_of_matches (hT : T.Reachable) (ha : T.Unfolds a x) (hb : U.Unfolds b y)
    (h : T.Matches U a b) : x = y := by
  generalize hn : a.index = n
  induction n using Nat.strongRecOn generalizing a b x y with
  | ind n ih =>
    cases h with
    | @intro _ _ s s' hs hs' hrelated =>
      -- the trees of the parts of `a` are those of the parts of `b`
      have hparts : s.Related (fun c d => ∀ z w, T.Unfolds c z → U.Unfolds d w → z = w) s' :=
        hrelated.mono fun c hc d hcd z w hz hw =>
          ih c.index (hn ▸ hT.index_lt_of_mem_parts hs hc) hz hw hcd rfl
      cases hparts with
      | primitive => rw [ha.of_primitive hs, hb.of_primitive hs']
      | pointer hcd =>
        obtain ⟨z, rfl, hz⟩ := ha.of_pointer hs
        obtain ⟨w, rfl, hw⟩ := hb.of_pointer hs'
        rw [hcd z w hz hw]
      | function hcds hcd =>
        obtain ⟨zs, z, rfl, hzs, hz⟩ := ha.of_function hs
        obtain ⟨ws, w, rfl, hws, hw⟩ := hb.of_function hs'
        have hzd := forall₂_comp (fun _ c _ hcz hcd w hw => hcd _ w hcz hw) hzs.flip hcds
        have hargs := forall₂_comp (fun _ _ w hzd hw => hzd w hw) hzd hws
        rw [List.forall₂_eq_eq_eq] at hargs
        rw [hargs, hcd z w hz hw]

/-- Types match just if they unfold to the same tree. -/
theorem Unfolds.matches_iff (hT : T.Reachable) (ha : T.Unfolds a x) (hb : U.Unfolds b y) :
    T.Matches U a b ↔ x = y :=
  ⟨ha.eq_of_matches hT hb, fun h => ha.matches hT (h ▸ hb)⟩

theorem Reachable.existsUnique_unfolds (hT : T.Reachable) (ht : T.Holds t) :
    ∃! x, T.Unfolds t x := by
  obtain ⟨x, hx⟩ := hT.exists_unfolds ht
  exact ⟨x, hx, fun y hy => hy.eq_of_matches hT hx (hT.matches_self ht)⟩

theorem Reachable.matches_iff_same (hT : T.Reachable) (ha : T.Holds a) :
    T.Matches T a b ↔ T.same a b = true :=
  ⟨fun h => h.same hT (.refl T), hT.matches_of_same ha⟩

/-- Types are equal just if they unfold to the same tree. -/
theorem Unfolds.same_iff (hT : T.Reachable) (ha : T.Unfolds a x) (hb : T.Unfolds b y) :
    T.same a b = true ↔ x = y :=
  (hT.matches_iff_same ha.holds).symm.trans (ha.matches_iff hT hb)

/-- Types are shown alike just if they unfold to the same tree. -/
theorem Unfolds.shown_iff (hT : T.Reachable) (ha : T.Unfolds a x) (hb : T.Unfolds b y) :
    T.shown a = T.shown b ↔ x = y := by
  rw [ha.shown_eq hT, hb.shown_eq hT, TypeTree.shown_inj]

theorem Reachable.shown_eq_iff (hT : T.Reachable) (ha : T.Holds a) (hb : T.Holds b) :
    T.shown a = T.shown b ↔ T.same a b = true := by
  obtain ⟨x, hx⟩ := hT.exists_unfolds ha
  obtain ⟨y, hy⟩ := hT.exists_unfolds hb
  exact (hx.shown_iff hT hy).trans (hx.same_iff hT hy).symm

/-- The comparison of two types nested at most `n` deep that does not look at their ids first. -/
def alikeWithin (T : TypeTable) : Nat → TypeId → TypeId → Bool
  | 0, _, _ => false
  | n + 1, a, b =>
    match T.shape? a, T.shape? b with
    | some s, some s' => s.alike (T.alikeWithin n) s'
    | _, _ => false

def alike (T : TypeTable) (a b : TypeId) : Bool := T.alikeWithin (a.index + 1) a b

theorem alikeWithin_succ {n : Nat} : T.alikeWithin (n + 1) a b = true ↔
    ∃ s s', T.shape? a = some s ∧ T.shape? b = some s' ∧
      s.Related (fun c d => T.alikeWithin n c d = true) s' := by
  rw [alikeWithin]
  cases T.shape? a <;> cases T.shape? b <;> simp [TypeShape.alike_iff]

theorem matches_of_alikeWithin {n : Nat} (h : T.alikeWithin n a b = true) : T.Matches T a b := by
  induction n generalizing a b with
  | zero => exact nomatch h
  | succ n ih =>
    obtain ⟨s, s', hs, hs', hrel⟩ := alikeWithin_succ.mp h
    exact .intro hs hs' (hrel.mono fun _ _ _ => ih)

theorem Matches.alikeWithin (hT : T.Reachable) (h : T.Matches T a b) {n : Nat}
    (hn : a.index < n) : T.alikeWithin n a b = true := by
  induction n generalizing a b with
  | zero => omega
  | succ n ih =>
    cases h with
    | intro ha hb hrel =>
      refine alikeWithin_succ.mpr ⟨_, _, ha, hb, hrel.mono fun c hc d hcd => ?_⟩
      have hlt := hT.index_lt_of_mem_parts ha hc
      exact ih hcd (by omega)

theorem Reachable.alike_eq_same (hT : T.Reachable) (ha : T.Holds a) :
    T.alike a b = T.same a b := by
  rw [Bool.eq_iff_iff, ← hT.matches_iff_same ha]
  exact ⟨matches_of_alikeWithin, fun h => h.alikeWithin hT (Nat.lt_succ_self _)⟩

theorem Reachable.same_of_shapes (hT : T.Reachable) {s s' : TypeShape} (ha : T.shape? a = some s)
    (hb : T.shape? b = some s') :
    T.same a b = true ↔ s.Related (fun c d => T.same c d = true) s' := by
  have hsame {c d : TypeId} (hc : c ∈ s.parts) : T.Matches T c d ↔ T.same c d = true :=
    hT.matches_iff_same (hT.holds_of_mem_parts ha hc)
  rw [← hT.matches_iff_same (lt_size_of_shape? ha)]
  constructor
  · rintro ⟨ha', hb', hrel⟩
    cases ha.symm.trans ha'
    cases hb.symm.trans hb'
    exact hrel.mono fun c hc d => (hsame hc).mp
  · exact fun hrel => .intro ha hb (hrel.mono fun c hc d => (hsame hc).mpr)

/-- Equality, texts and trees of the types that a table holds say the same. -/
structure EqualityAgrees (T : TypeTable) : Prop where
  unfolds {a : TypeId} : T.Holds a → ∃! x, T.Unfolds a x
  same_iff {a b : TypeId} {x y : TypeTree} : T.Unfolds a x → T.Unfolds b y →
    (T.same a b = true ↔ x = y)
  shown_iff {a b : TypeId} {x y : TypeTree} : T.Unfolds a x → T.Unfolds b y →
    (T.shown a = T.shown b ↔ x = y)
  equivalence : Equivalence fun a b : { t // T.Holds t } => T.same a b = true
  pointers {p q a b : TypeId} : T.shape? p = some (.pointer a) → T.shape? q = some (.pointer b) →
    T.same p q = T.same a b
  functions {f g r q : TypeId} {as bs : List TypeId} : T.shape? f = some (.function as r) →
    T.shape? g = some (.function bs q) → (T.same f g = true ↔
      List.Forall₂ (fun a b => T.same a b = true) as bs ∧ T.same r q = true)
  shortcut {a b : TypeId} : T.Holds a → T.Holds b → T.alike a b = T.same a b

theorem Reachable.equalityAgrees (hT : T.Reachable) : T.EqualityAgrees where
  unfolds := hT.existsUnique_unfolds
  same_iff ha hb := ha.same_iff hT hb
  shown_iff ha hb := ha.shown_iff hT hb
  equivalence := ⟨fun a => same_refl T a, same_symm hT, same_trans hT⟩
  pointers hp hq := by
    rw [Bool.eq_iff_iff, hT.same_of_shapes hp hq, TypeShape.related_pointer]
  functions hf hg := by
    rw [hT.same_of_shapes hf hg, TypeShape.related_function]
  shortcut ha _ := hT.alike_eq_same ha

end TypeTable

end FrontEnd
