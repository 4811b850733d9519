import FrontEnd.Proofs.Types.Growth
import Mathlib.Data.List.Forall2

/-! Structural equality of the types of a table is an equivalence, and it goes down to the parts of
pointer and function types. -/

namespace FrontEnd

/-- Shapes of one kind whose parts are related. -/
inductive TypeShape.Related (R : TypeId → TypeId → Prop) : TypeShape → TypeShape → Prop
  | primitive {p : Primitive} : Related R (primitive p) (primitive p)
  | pointer {a b : TypeId} : R a b → Related R (pointer a) (pointer b)
  | function {as bs : List TypeId} {a b : TypeId} : List.Forall₂ R as bs → R a b →
      Related R (function as a) (function bs b)

theorem forall₂_comp {α β γ : Type} {R : α → β → Prop} {Q : β → γ → Prop} {U : α → γ → Prop}
    (hU : ∀ a b c, R a b → Q b c → U a c) {as : List α} {bs : List β} {cs : List γ}
    (h : List.Forall₂ R as bs) (h' : List.Forall₂ Q bs cs) : List.Forall₂ U as cs := by
  induction h generalizing cs with
  | nil =>
    cases h'
    exact .nil
  | cons hx _ ih =>
    cases h' with
    | cons hy hys => exact .cons (hU _ _ _ hx hy) (ih hys)

theorem exists_mem_of_forall₂ {α β : Type} {R : α → β → Prop} {as : List α} {bs : List β}
    (h : List.Forall₂ R as bs) {a : α} (ha : a ∈ as) : ∃ b ∈ bs, R a b := by
  induction h with
  | nil => exact nomatch ha
  | @cons _ b _ _ h _ ih =>
    rcases List.mem_cons.mp ha with rfl | ha
    · exact ⟨b, List.mem_cons_self, h⟩
    · obtain ⟨b, hb, h⟩ := ih ha
      exact ⟨b, List.mem_cons_of_mem _ hb, h⟩

theorem exists_of_mem_forall₂ {α β : Type} {R : α → β → Prop} {as : List α} {bs : List β}
    (h : List.Forall₂ R as bs) {a : α} (ha : a ∈ as) : ∃ b, R a b :=
  (exists_mem_of_forall₂ h ha).imp fun _ hb => hb.2

theorem map_eq_map_of_forall₂ {α β γ : Type} {P : α → β → Prop} {f : β → γ} {g : α → γ}
    {as : List α} {bs : List β} (h : List.Forall₂ P as bs)
    (hg : ∀ a ∈ as, ∀ b, P a b → f b = g a) : bs.map f = as.map g := by
  induction h with
  | nil => rfl
  | @cons a b as bs hab _ ih =>
    obtain ⟨ha, has⟩ := List.forall_mem_cons.mp hg
    rw [List.map_cons, List.map_cons, ha b hab, ih has]

namespace TypeShape.Related

variable {R R' : TypeId → TypeId → Prop} {s s' s'' : TypeShape}

theorem mono (hR : ∀ a ∈ s.parts, ∀ b, R a b → R' a b) (h : s.Related R s') :
    s.Related R' s' := by
  cases h with
  | primitive => exact .primitive
  | pointer h => exact .pointer (hR _ (List.mem_singleton_self _) _ h)
  | @function as bs a b has h =>
    refine .function ?_ (hR a (List.mem_append_right _ (List.mem_singleton_self a)) b h)
    have hmem : ∀ x ∈ as, ∀ y, R x y → R' x y := fun x hx => hR x (List.mem_append_left _ hx)
    clear hR
    induction has with
    | nil => exact .nil
    | cons hx _ ih =>
      rw [List.forall_mem_cons] at hmem
      exact .cons (hmem.1 _ hx) (ih hmem.2)

theorem symm (hR : ∀ a b, R a b → R b a) (h : s.Related R s') : s'.Related R s := by
  cases h with
  | primitive => exact .primitive
  | pointer h => exact .pointer (hR _ _ h)
  | function has h => exact .function ((has.imp fun a b => hR a b).flip) (hR _ _ h)

theorem trans (hR : ∀ a b c, R a b → R b c → R a c) (h : s.Related R s')
    (h' : s'.Related R s'') : s.Related R s'' := by
  cases h with
  | primitive => exact h'
  | pointer h =>
    cases h' with
    | pointer h' => exact .pointer (hR _ _ _ h h')
  | function has h =>
    cases h' with
    | function hbs h' => exact .function (forall₂_comp hR has hbs) (hR _ _ _ h h')

end TypeShape.Related

namespace TypeTable

variable {T : TypeTable} {a b c : TypeId} {n m : Nat}

theorem all_zip_iff {f : TypeId → TypeId → Bool} {as bs : List TypeId} :
    (as.length = bs.length && (as.zip bs).all fun (x, y) => f x y) = true ↔
      List.Forall₂ (fun x y => f x y = true) as bs := by
  rw [List.forall₂_iff_zip]
  simp

theorem sameWithin_succ : T.sameWithin (n + 1) a b = true ↔
    a = b ∨ ∃ s s', T.shape? a = some s ∧ T.shape? b = some s' ∧
      s.Related (fun x y => T.sameWithin n x y = true) s' := by
  rw [sameWithin, Bool.or_eq_true, decide_eq_true_iff]
  refine or_congr_right ⟨fun h => ?_, fun ⟨s, s', hs, hs', h⟩ => ?_⟩
  · split at h
    next p q hs hs' =>
      obtain rfl := of_decide_eq_true h
      exact ⟨_, _, hs, hs', .primitive⟩
    next x y hs hs' => exact ⟨_, _, hs, hs', .pointer h⟩
    next as x bs y hs hs' =>
      rw [Bool.and_eq_true, all_zip_iff] at h
      exact ⟨_, _, hs, hs', .function h.1 h.2⟩
    next => exact nomatch h
  · rw [hs, hs']
    cases h with
    | primitive => simp
    | pointer h => exact h
    | function has h => exact Bool.and_eq_true_iff.mpr ⟨all_zip_iff.mpr has, h⟩

theorem sameWithin_refl (n : Nat) (a : TypeId) : T.sameWithin n a a = true := by
  cases n with
  | zero => simp [sameWithin]
  | succ n => exact sameWithin_succ.mpr (.inl rfl)

theorem sameWithin_symm (h : T.sameWithin n a b = true) : T.sameWithin n b a = true := by
  induction n generalizing a b with
  | zero => simpa [sameWithin, eq_comm] using h
  | succ n ih =>
    rw [sameWithin_succ] at h ⊢
    rcases h with rfl | ⟨s, s', hs, hs', h⟩
    · exact .inl rfl
    · exact .inr ⟨s', s, hs', hs, h.symm fun _ _ => ih⟩

theorem sameWithin_trans (h : T.sameWithin n a b = true) (h' : T.sameWithin n b c = true) :
    T.sameWithin n a c = true := by
  induction n generalizing a b c with
  | zero =>
    obtain rfl := of_decide_eq_true h
    exact h'
  | succ n ih =>
    rw [sameWithin_succ] at h h' ⊢
    rcases h with rfl | ⟨s, s', hs, hs', h⟩
    · exact h'
    · rcases h' with rfl | ⟨t, s'', ht, hs'', h'⟩
      · exact .inr ⟨s, s', hs, hs', h⟩
      · obtain rfl := Option.some.inj (hs'.symm.trans ht)
        exact .inr ⟨s, s'', hs, hs'', h.trans (fun _ _ _ => ih) h'⟩

/-- Any bound above the index of a type reaches all of its parts. -/
theorem sameWithin_of_sameWithin (hT : T.Reachable) (hn : a.index < n) (hm : a.index < m)
    (h : T.sameWithin n a b = true) : T.sameWithin m a b = true := by
  induction n generalizing m a b with
  | zero => omega
  | succ n ih =>
    obtain ⟨m, rfl⟩ : ∃ k, m = k + 1 := ⟨m - 1, by omega⟩
    rw [sameWithin_succ] at h ⊢
    rcases h with rfl | ⟨s, s', hs, hs', h⟩
    · exact .inl rfl
    · refine .inr ⟨s, s', hs, hs', h.mono fun x hx y hxy => ?_⟩
      have hlt := hT.index_lt_of_mem_parts hs hx
      exact ih (by omega) (by omega) hxy

theorem same_iff_sameWithin (hT : T.Reachable) (hn : a.index < n) :
    T.same a b = true ↔ T.sameWithin n a b = true :=
  ⟨sameWithin_of_sameWithin hT (Nat.lt_succ_self _) hn,
    sameWithin_of_sameWithin hT hn (Nat.lt_succ_self _)⟩

theorem same_refl (T : TypeTable) (a : TypeId) : T.same a a = true := sameWithin_refl _ a

theorem same_symm (hT : T.Reachable) (h : T.same a b = true) : T.same b a = true := by
  have hn := (same_iff_sameWithin hT (n := a.index + b.index + 1) (by omega)).mp h
  exact (same_iff_sameWithin hT (by omega)).mpr (sameWithin_symm hn)

theorem same_trans (hT : T.Reachable) (h : T.same a b = true) (h' : T.same b c = true) :
    T.same a c = true := by
  have hn := (same_iff_sameWithin hT (n := a.index + b.index + 1) (by omega)).mp h
  have hn' := (same_iff_sameWithin hT (n := a.index + b.index + 1) (by omega)).mp h'
  exact (same_iff_sameWithin hT (by omega)).mpr (sameWithin_trans hn hn')

theorem function?_of_same (hT : T.Reachable) (h : T.same a b = true) {as : List TypeId}
    {r : TypeId} (ha : T.function? a = some (as, r)) :
    ∃ bs q, T.function? b = some (bs, q) ∧
      List.Forall₂ (fun x y => T.same x y = true) as bs ∧ T.same r q = true := by
  rcases sameWithin_succ.mp h with rfl | ⟨s, s', hs, hs', hrel⟩
  · exact ⟨as, r, ha, List.forall₂_same.mpr fun x _ => same_refl T x, same_refl T r⟩
  · obtain rfl := Option.some.inj (hs.symm.trans (function?_eq_some.mp ha))
    have hrel := hrel.mono fun x hx y hxy =>
      (same_iff_sameWithin hT (hT.index_lt_of_mem_parts hs hx)).mpr hxy
    cases hrel with
    | function has hr => exact ⟨_, _, function?_eq_some.mpr hs', has, hr⟩

end TypeTable

end FrontEnd
