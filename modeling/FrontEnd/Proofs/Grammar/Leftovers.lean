import Mathlib.Logic.Relation
import FrontEnd.Proofs.Grammar.Entering

/-! The types that reading leaves in the table. A program enters types only where it reads
signatures, and a signature is built from primitive types and from types that were entered for it.
What a broken signature leaves behind is therefore used by no other type. -/

namespace FrontEnd

namespace TypeTable

variable {T U : TypeTable} {m n : Nat} {t : TypeId}

def FreshFrom (m : Nat) (t : TypeId) : Prop := (∃ p, t = primitive p) ∨ m ≤ t.index

/-- The types from number `m` on have only primitive parts and such that stand there too. -/
structure Apart (m : Nat) (T : TypeTable) : Prop where
  le : m ≤ T.size
  parts {t : TypeId} {s : TypeShape} : T.shape? t = some s → m ≤ t.index →
    ∀ u ∈ s.parts, FreshFrom m u

/-- Reading a signature, to its end or not, turns the table `T` into `U`. -/
def ReadsSignature (T U : TypeTable) : Prop :=
  ∃ s : ParserState, s.types = T ∧ (Rule.type .full s).next.types = U

theorem apart_size (T : TypeTable) : T.Apart T.size where
  le := Nat.le_refl _
  parts ht hle := absurd (lt_size_of_shape? ht) (Nat.not_lt.mpr hle)

theorem Apart.enter {s : TypeShape} (h : T.Apart m) (hs : ∀ u ∈ s.parts, FreshFrom m u) :
    (T.enter s).2.Apart m where
  le := by
    rw [size_enter]
    exact Nat.le_succ_of_le h.le
  parts ht hle := by
    rcases shape?_enter_cases ht with ⟨-, rfl⟩ | ht
    · exact hs
    · exact h.parts ht hle

end TypeTable

namespace Rule

open TypeTable (FreshFrom ReadsSignature)

variable {α β : Type} {m : Nat} {P : α → Prop} {Q : β → Prop} {r : Rule α}

/-- The rule keeps the types from number `m` on apart from the others, and comes to a result as
described. -/
def KeepsApart (m : Nat) (P : α → Prop) (r : Rule α) : Prop :=
  ∀ s, s.types.Apart m → (r s).next.types.Apart m ∧ ∀ a t, r s = .done a t → P a

namespace KeepsApart

theorem pure {a : α} (ha : P a) : (Pure.pure a : Rule α).KeepsApart m P := by
  intro s hs
  refine ⟨hs, fun b t h => ?_⟩
  cases h
  exact ha

theorem bind {f : α → Rule β} (h : r.KeepsApart m P) (hf : ∀ a, P a → (f a).KeepsApart m Q) :
    (r >>= f).KeepsApart m Q := by
  intro s hs
  obtain ⟨hnext, hresult⟩ := h s hs
  cases hr : r s with
  | done a t =>
    rw [bind_done f hr]
    rw [hr] at hnext
    exact hf a (hresult a t hr) t hnext
  | failed d t =>
    rw [bind_failed f hr]
    rw [hr] at hnext
    exact ⟨hnext, fun _ _ h => nomatch h⟩

theorem compositional (m : Nat) : Compositional fun α r => r.KeepsApart m fun _ : α => True where
  pure _ := .pure trivial
  bind h hf := h.bind fun a _ => hf a
  look h s hs := by
    obtain ⟨r', hr', he⟩ := h s
    exact ⟨he ▸ (hr' s hs).1, fun _ _ _ => trivial⟩
  refuse _ _ hs := ⟨hs, fun _ _ _ => trivial⟩
  fail _ _ hs := ⟨hs, fun _ _ _ => trivial⟩
  advance _ hs := ⟨hs, fun _ _ _ => trivial⟩

theorem expect (k : TokenKind) : (Rule.expect k).KeepsApart m fun _ => True :=
  (compositional m).expect k

theorem commaSeparated (h : r.KeepsApart m P) (n : Nat) :
    (Rule.commaSeparated r n).KeepsApart m fun as => ∀ a ∈ as, P a := by
  induction n with
  | zero => exact h.bind fun a ha => .pure (List.forall_mem_singleton.mpr ha)
  | succ n ih =>
    refine h.bind fun a ha => ((compositional m).advanceIf .comma).bind fun b _ => ?_
    split
    · exact ih.bind fun as has => .pure (List.forall_mem_cons.mpr ⟨ha, has⟩)
    · exact .pure (List.forall_mem_singleton.mpr ha)

theorem itemsBefore (h : r.KeepsApart m P) (close : TokenKind) :
    (Rule.itemsBefore close r).KeepsApart m fun as => ∀ a ∈ as, P a := by
  intro s hs
  unfold Rule.itemsBefore
  split
  · refine ⟨hs, fun as t h => ?_⟩
    cases h
    exact fun _ ha => nomatch ha
  · exact h.commaSeparated _ s hs

theorem enterType {s : TypeShape} (h : ∀ u ∈ s.parts, FreshFrom m u) :
    (Rule.enterType s).KeepsApart m (FreshFrom m) := by
  intro t ht
  refine ⟨ht.enter h, fun a u hu => ?_⟩
  cases hu
  exact .inr ht.le

theorem primitiveType : Rule.primitiveType.KeepsApart m (FreshFrom m) := by
  intro s hs
  refine ⟨((compositional m).primitiveType s hs).1, fun a t h => ?_⟩
  unfold Rule.primitiveType at h
  split at h
  next p _ =>
    cases h
    exact .inl ⟨p, rfl⟩
  next => exact nomatch h

theorem typeOfForm {part : Rule TypeId} (h : part.KeepsApart m (FreshFrom m)) (form : TypeForm) :
    (Rule.typeOfForm part form).KeepsApart m (FreshFrom m) := by
  cases form with
  | primitive => exact primitiveType
  | pointer =>
    refine (expect _).bind fun _ _ => h.bind fun target ht => .enterType ?_
    exact List.forall_mem_singleton.mpr ht
  | function =>
    refine (expect _).bind fun _ _ => (h.itemsBefore _).bind fun as has =>
      (expect _).bind fun _ _ => (expect _).bind fun _ _ => h.bind fun result hresult =>
        .enterType ?_
    exact List.forall_mem_append.mpr ⟨has, List.forall_mem_singleton.mpr hresult⟩

theorem refuseType : (refuse (α := TypeId) .noType).KeepsApart m (FreshFrom m) :=
  fun _ hs => ⟨hs, fun _ _ h => nomatch h⟩

theorem typeWithin (v : Vocabulary) (n : Nat) :
    (Rule.typeWithin v n).KeepsApart m (FreshFrom m) := by
  induction n with
  | zero => exact refuseType
  | succ n ih =>
    intro s hs
    unfold Rule.typeWithin
    split
    next form _ => exact ih.typeOfForm form s hs
    next => exact refuseType s hs

end KeepsApart

/-- All that the rule enters into the table, it enters by reading signatures. -/
def EntersBySignatures (r : Rule α) : Prop :=
  ∀ s, Relation.ReflTransGen ReadsSignature s.types (r s).next.types

namespace EntersBySignatures

theorem compositional : Compositional fun _ r => r.EntersBySignatures where
  pure _ _ := .refl
  bind {α β r f} hr hf s := by
    have hnext := hr s
    cases hreply : r s with
    | done a t =>
      rw [bind_done f hreply]
      rw [hreply] at hnext
      exact hnext.trans (hf a t)
    | failed d t =>
      rw [bind_failed f hreply]
      rwa [hreply] at hnext
  look h s := by
    obtain ⟨r', hr', he⟩ := h s
    exact he ▸ hr' s
  refuse _ _ := .refl
  fail _ _ := .refl
  advance _ := .refl

theorem type (v : Vocabulary) : (Rule.type v).EntersBySignatures := by
  intro s
  cases v with
  | bare =>
    have hrefuse : Rule.type .bare s = refuse .noType s := by
      unfold Rule.type
      cases s.tokens.length <;> rfl
    rw [hrefuse]
    exact .refl
  | full => exact .single ⟨s, rfl, rfl⟩

theorem itemsWithin {item : Rule Stmt} (hi : item.EntersBySignatures) (n : Nat) :
    (Rule.itemsWithin item n).EntersBySignatures := by
  have hmap {α β : Type} {T : TypeTable} {x : Reply α} (f : α → β)
      (hx : Relation.ReflTransGen ReadsSignature T x.next.types) :
      Relation.ReflTransGen ReadsSignature T (x.map f).next.types := by cases x <;> exact hx
  induction n with
  | zero => exact compositional.refuse fun _ => .of_bare rfl rfl
  | succ n ih =>
    intro s
    have hitem := hi s
    unfold Rule.itemsWithin
    split
    · exact .refl
    · exact .refl
    · split
      next st t he =>
        rw [he] at hitem
        exact hitem.trans (hmap _ (ih t))
      next d t he =>
        -- what the broken item entered stays, and reading goes on behind it
        rw [he] at hitem
        exact hitem.trans (hmap _ (ih (t.report d).synchronize))

theorem pervasive : Pervasive fun _ r => r.EntersBySignatures where
  toCompositional := compositional
  type := type
  block hi := by
    refine compositional.bind (compositional.expect _) fun brace s => ?_
    have hitems := itemsWithin hi s.tokens.length s.enterBlock
    split
    all_goals
      next he =>
        rw [he] at hitems
        exact hitems

end EntersBySignatures

theorem readsSignatures_declarationsWithin (v : Vocabulary) (n : Nat) (s : ParserState) :
    Relation.ReflTransGen ReadsSignature s.types (declarationsWithin v n s).2.types := by
  induction n generalizing s with
  | zero => exact .refl
  | succ n ih =>
    have htop := EntersBySignatures.pervasive.topLevel v s
    unfold declarationsWithin
    split
    · split
      next d t he =>
        rw [he] at htop
        exact htop.trans (ih t)
      next d t he =>
        rw [he] at htop
        exact htop.trans (ih (t.report d).synchronize)
    · exact .refl

end Rule

theorem Program.readsSignatures_of_parse (source : String) (T : TypeTable) :
    Relation.ReflTransGen TypeTable.ReadsSignature T (parse source T).2 := by
  have h := Rule.readsSignatures_declarationsWithin .full
    (ParserState.ofSource source T).tokens.length (.ofSource source T)
  unfold parse ofState
  dsimp only
  split <;> exact h

namespace TypeTable

variable {T U V : TypeTable} {m : Nat}

theorem ReadsSignature.apart (h : T.ReadsSignature U) (hT : T.Apart m) : U.Apart m := by
  obtain ⟨s, rfl, rfl⟩ := h
  exact (Rule.KeepsApart.typeWithin .full s.tokens.length s hT).1

theorem ReadsSignature.grows (h : T.ReadsSignature U) : T.Grows U := by
  obtain ⟨s, rfl, rfl⟩ := h
  exact (Rule.Steady.typeWithin .full s.tokens.length s).next.types

theorem ReadsSignature.reachable (h : T.ReadsSignature U) (hT : T.Reachable) : U.Reachable := by
  obtain ⟨s, rfl, rfl⟩ := h
  exact Rule.Entering.typeWithin .full s.tokens.length s hT

theorem kept_of_readings {P : TypeTable → Prop} (hP : ∀ U V, U.ReadsSignature V → P U → P V)
    (h : Relation.ReflTransGen ReadsSignature T U) (hT : P T) : P U := by
  induction h with
  | refl => exact hT
  | tail _ hstep ih => exact hP _ _ hstep ih

theorem apart_of_readings (h : Relation.ReflTransGen ReadsSignature T U) (hT : T.Apart m) :
    U.Apart m :=
  kept_of_readings (fun _ _ hstep => hstep.apart) h hT

theorem grows_of_readings (h : Relation.ReflTransGen ReadsSignature T U) : T.Grows U :=
  kept_of_readings (P := T.Grows) (fun _ _ hstep hU => hU.trans hstep.grows) h (.refl T)

theorem reachable_of_readings (h : Relation.ReflTransGen ReadsSignature T U) (hT : T.Reachable) :
    U.Reachable :=
  kept_of_readings (fun _ _ hstep => hstep.reachable) h hT

/-- What one reading entered is part of nothing that was there before or is read afterwards, except
of what the same reading entered. -/
theorem within_of_readings (hT : T.Reachable) (h : T.ReadsSignature U)
    (hV : Relation.ReflTransGen ReadsSignature U V) {t u : TypeId} {s : TypeShape}
    (ht : V.shape? t = some s) (hu : u ∈ s.parts) (hle : T.size ≤ u.index)
    (hlt : u.index < U.size) : T.size ≤ t.index ∧ t.index < U.size := by
  have hV' := reachable_of_readings hV (h.reachable hT)
  have hbelow := hV'.index_lt_of_mem_parts ht hu
  refine ⟨by omega, Nat.lt_of_not_le fun hge => ?_⟩
  -- a type entered later has no parts among those
  rcases (apart_of_readings hV U.apart_size).parts ht hge u hu with ⟨p, rfl⟩ | hge'
  · have hprimitive := lt_size_of_shape? (hT.shape?_primitive p)
    omega
  · omega

end TypeTable

end FrontEnd
