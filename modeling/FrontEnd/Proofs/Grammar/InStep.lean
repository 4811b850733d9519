import FrontEnd.Proofs.Grammar.Abreast
import FrontEnd.Proofs.Grammar.Accepting

/-! Rules that keep two runs in step. A bound on what a rule may read can differ between the runs,
as long as it allows for all tokens compared. -/

namespace FrontEnd

/-- Replies that leave both runs abreast. Of the tokens `w` at least `k` were read by a success, and
what is left of them fulfils `E`. -/
inductive Reply.Abreast {α β : Type} (F : Frame) (T : TypeTable) (b : Nat) (E : List Token → Prop)
    (k : Nat) (R : TypeTable → α → β → Prop) (w : List Token) : Reply α → Reply β → Prop
  | done {a : α} {a' : β} {t t' : ParserState} {v v' : List Token} : R t.types a a' →
      t.Abreast F T b v v' t' → v <:+ w → v.length + k ≤ w.length → E v →
      Abreast F T b E k R w (.done a t) (.done a' t')
  | failed {d d' : Diagnostic} {t t' : ParserState} {v v' : List Token} : d.Like F.place d' →
      t.Abreast F T b v v' t' → v <:+ w → F.Ahead b v →
      Abreast F T b E k R w (.failed d t) (.failed d' t')

namespace Reply.Abreast

variable {α β γ δ : Type} {F : Frame} {T T' : TypeTable} {b k l : Nat} {E : List Token → Prop}
  {R : TypeTable → α → β → Prop} {Q : TypeTable → γ → δ → Prop} {v w : List Token}
  {x : Reply α} {x' : Reply β}

theorem of_le (h : Abreast F T b E k R w x x') (hl : l ≤ k) : Abreast F T b E l R w x x' := by
  cases h with
  | done ha ht hv hk hE => exact .done ha ht hv (by omega) hE
  | failed hd ht hv hw => exact .failed hd ht hv hw

theorem of_suffix (h : Abreast F T' b E l R v x x') (hT : T.Grows T') (hv : v <:+ w)
    (hk : v.length + k ≤ w.length) : Abreast F T b E (k + l) R w x x' := by
  cases h with
  | done ha ht hu hl hE => exact .done ha (ht.mono hT) (hu.trans hv) (by omega) hE
  | failed hd ht hu hw => exact .failed hd (ht.mono hT) (hu.trans hv) hw

theorem map {f : α → γ} {f' : β → δ} (h : Abreast F T b E k R w x x')
    (hf : ∀ T a a', R T a a' → Q T (f a) (f' a')) :
    Abreast F T b E k Q w (x.map f) (x'.map f') := by
  cases h with
  | done ha ht hv hk hE => exact .done (hf _ _ _ ha) ht hv hk hE
  | failed hd ht hv hw => exact .failed hd ht hv hw

end Reply.Abreast

namespace Rule

variable {α β γ δ : Type}

/-- The rules keep in step before at most `n` tokens compared, and a success reads at least `k`. The
types known at the start are those of `T` and maybe more. -/
def InStepFrom (F : Frame) (T : TypeTable) (E : Nat → List Token → Prop) (n k : Nat)
    (R : TypeTable → α → β → Prop) (r : Rule α) (r' : Rule β) : Prop :=
  ∀ ⦃b w w' s s'⦄, s.Abreast F T b w w' s' → F.Ahead b w → w.length ≤ n →
    (r s).Abreast F T b (E b) k R w (r' s')

def InStep (F : Frame) (E : Nat → List Token → Prop) (n k : Nat) (R : α → β → Prop) (r : Rule α)
    (r' : Rule β) : Prop :=
  ∀ T, InStepFrom F T E n k (fun _ => R) r r'

variable {F : Frame} {T : TypeTable} {b n m k l : Nat} {E : Nat → List Token → Prop}
  {R : TypeTable → α → β → Prop} {Q : TypeTable → γ → δ → Prop} {r : Rule α} {r' : Rule β}
  {f : α → Rule γ} {f' : β → Rule δ}

theorem InStepFrom.of_le (h : InStepFrom F T E n k R r r') (hl : l ≤ k) :
    InStepFrom F T E n l R r r' :=
  fun _ _ _ _ _ hs hw hn => (h hs hw hn).of_le hl

theorem InStepFrom.bind_add (h : InStepFrom F T F.Ahead n k R r r') (hm : n ≤ m + k)
    (hf : ∀ T' a a', T.Grows T' → R T' a a' → InStepFrom F T' E m l Q (f a) (f' a')) :
    InStepFrom F T E n (k + l) Q (r >>= f) (r' >>= f') := by
  intro b w w' s s' hs hw hn
  have hr := h hs hw hn
  rw [bind_apply, bind_apply]
  generalize r s = x, r' s' = x' at hr
  cases hr with
  | failed hd ht hv hw => exact .failed hd ht hv hw
  | done ha ht hv hk hw =>
    exact (hf _ _ _ ht.grows ha ht.self hw (by omega)).of_suffix ht.grows hv hk

/-- The rule that follows may be bounded more narrowly if the first one reads something. -/
theorem InStepFrom.bind_of_le (h : InStepFrom F T F.Ahead n k R r r') (hm : n ≤ m + k)
    (hf : ∀ T' a a', T.Grows T' → R T' a a' → InStepFrom F T' E m 0 Q (f a) (f' a')) :
    InStepFrom F T E n k Q (r >>= f) (r' >>= f') := h.bind_add hm hf

theorem InStepFrom.bind (h : InStepFrom F T F.Ahead n k R r r')
    (hf : ∀ T' a a', T.Grows T' → R T' a a' → InStepFrom F T' E n l Q (f a) (f' a')) :
    InStepFrom F T E n l Q (r >>= f) (r' >>= f') :=
  (h.bind_add (Nat.le_add_right n k) hf).of_le (Nat.le_add_left l k)

theorem InStepFrom.pure {a : α} {a' : β} (h : ∀ T', T.Grows T' → R T' a a') :
    InStepFrom F T F.Ahead n 0 R (Pure.pure a) (Pure.pure a') :=
  fun _ _ _ _ _ hs hw _ => .done (h _ hs.grows) hs List.suffix_rfl (Nat.le_refl _) hw

theorem InStepFrom.bind_pure {g : α → γ} {g' : β → δ} (h : InStepFrom F T E n k R r r')
    (hg : ∀ T' a a', T.Grows T' → R T' a a' → Q T' (g a) (g' a')) :
    InStepFrom F T E n k Q (r >>= fun a => Pure.pure (g a)) (r' >>= fun a => Pure.pure (g' a)) := by
  intro b w w' s s' hs hw hn
  have hr := h hs hw hn
  rw [bind_apply, bind_apply]
  generalize r s = x, r' s' = x' at hr
  cases hr with
  | failed hd ht hv hw => exact .failed hd ht hv hw
  | done ha ht hv hk hE => exact .done (hg _ _ _ ht.grows ha) ht hv hk hE

theorem InStepFrom.ite {c c' : Bool} {q : Rule α} {q' : Rule β} (hc : c = c')
    (h : InStepFrom F T E n k R r r') (h' : InStepFrom F T E n k R q q') :
    InStepFrom F T E n k R (if c then r else q) (if c' then r' else q') := by
  subst hc
  cases c
  · exact h'
  · exact h

theorem InStepFrom.refuse {g : String → Fault} :
    InStepFrom F T E n k R (Rule.refuse g : Rule α) (Rule.refuse g : Rule β) :=
  fun _ _ _ _ _ hs hw _ => .failed (hs.unexpected hw g) hs List.suffix_rfl hw

/-- Kinds that neither open nor close a block, nor end a statement. -/
def IsPlain (k : TokenKind) : Prop :=
  k ≠ .eof ∧ k ∉ [TokenKind.openCurly, .closeCurly, .semicolon]

instance (k : TokenKind) : Decidable (IsPlain k) := inferInstanceAs (Decidable (_ ∧ _))


theorem ahead_of_plain {t : Token} {v : List Token} (hw : F.Ahead b (t :: v))
    (ht : IsPlain t.kind) : F.Ahead b v := by
  intro d rest rest' hspan
  obtain ⟨hd, hclosed⟩ := hw d rest rest' hspan
  exact ⟨hd, hclosed.plain ht.2⟩

theorem behind_of_semicolon {t : Token} {v : List Token} (hw : F.Ahead b (t :: v))
    (ht : t.kind = .semicolon) : F.Behind b v := by
  intro d rest rest' hspan
  obtain ⟨hd, hclosed⟩ := hw d rest rest' hspan
  by_cases he : d = b
  · rw [he, Nat.sub_self] at hclosed
    exact .inl ⟨he, hclosed.semicolon_zero ht⟩
  · exact .inr ⟨by omega, hclosed.semicolon_pos ht (by omega)⟩

section States

variable {w w' : List Token} {s s' : ParserState}

theorem advance_abreast (hs : s.Abreast F T b w w' s') (hw : F.Ahead b w) (hk : IsPlain s.kind) :
    (advance s).Abreast F T b (F.Ahead b) 1 (fun _ => Token.Like F.place) w (advance s') := by
  obtain ⟨t, v, t', v', rfl, rfl, hkind, hc, hc', ht, hrest⟩ := hs.exists_cons hw hk.1
  refine .done ?_ hrest (List.suffix_cons t v) (Nat.le_refl _) (ahead_of_plain hw (hkind ▸ hk))
  rwa [hc, hc']

theorem advance_bind_abreast {f : Token → Rule γ} {f' : Token → Rule δ}
    (hs : s.Abreast F T b w w' s') (hw : F.Ahead b w) (hn : w.length ≤ n + 1)
    (hk : IsPlain s.kind)
    (hf : ∀ T t t', t.Like F.place t' → InStepFrom F T E n 0 Q (f t) (f' t')) :
    ((advance >>= f) s).Abreast F T b (E b) 1 Q w ((advance >>= f') s') := by
  have hr := advance_abreast hs hw hk
  rw [bind_apply, bind_apply]
  generalize advance s = x, advance s' = x' at hr
  cases hr with
  | failed hd ht hv hw => exact .failed hd ht hv hw
  | done ha ht hv hk hw =>
    exact (hf _ _ _ ha ht.self hw (by omega)).of_suffix ht.grows hv hk

end States

theorem expect_inStep {k : TokenKind} (hk : IsPlain k) :
    InStep F F.Ahead n 1 (Token.Like F.place) (expect k) (expect k) := by
  intro T b w w' s s' hs hw hn
  unfold expect expectOr
  rw [hs.kind hw]
  by_cases he : s.kind = k
  · rw [if_pos he, if_pos he]
    exact advance_abreast hs hw (he ▸ hk)
  · rw [if_neg he, if_neg he]
    exact InStepFrom.refuse hs hw hn

theorem expect_semicolon_inStep :
    InStep F F.Behind n 0 (Token.Like F.place) (expect .semicolon) (expect .semicolon) := by
  intro T b w w' s s' hs hw hn
  unfold expect expectOr
  rw [hs.kind hw]
  by_cases he : s.kind = .semicolon
  · rw [if_pos he, if_pos he]
    obtain ⟨t, v, t', v', rfl, rfl, hkind, hc, hc', ht, hrest⟩ :=
      hs.exists_cons hw (he ▸ by decide)
    refine .done ?_ hrest (List.suffix_cons t v) (Nat.le_succ _)
      (behind_of_semicolon hw (hkind ▸ he))
    rwa [hc, hc']
  · rw [if_neg he, if_neg he]
    exact InStepFrom.refuse hs hw hn

theorem advanceIf_inStep {k : TokenKind} (hk : IsPlain k) :
    InStep F F.Ahead n 0 (· = ·) (advanceIf k) (advanceIf k) := by
  intro T b w w' s s' hs hw hn
  unfold advanceIf
  rw [hs.kind hw]
  by_cases he : s.kind = k
  · rw [if_pos he, if_pos he]
    obtain ⟨t, v, t', v', rfl, rfl, hkind, _, _, _, hrest⟩ := hs.exists_cons hw (he ▸ hk.1)
    exact .done rfl hrest (List.suffix_cons t v) (Nat.le_succ _)
      (ahead_of_plain hw (hkind ▸ he ▸ hk))
  · rw [if_neg he, if_neg he]
    exact .done rfl hs List.suffix_rfl (Nat.le_refl _) hw

theorem current_inStep : InStep F F.Ahead n 0 (Token.Like F.place) current current :=
  fun _ _ _ _ _ _ hs hw _ => .done (hs.current hw) hs List.suffix_rfl (Nat.le_refl _) hw

section Constant

variable {R : α → β → Prop} {Q : γ → δ → Prop}

theorem InStep.of_le (h : InStep F E n k R r r') (hl : l ≤ k) : InStep F E n l R r r' :=
  fun T => (h T).of_le hl

theorem InStep.bind_of_le (h : InStep F F.Ahead n k R r r') (hm : n ≤ m + k)
    (hf : ∀ a a', R a a' → InStep F E m 0 Q (f a) (f' a')) :
    InStep F E n k Q (r >>= f) (r' >>= f') :=
  fun T => (h T).bind_of_le hm fun T' a a' _ ha => hf a a' ha T'

theorem InStep.bind (h : InStep F F.Ahead n k R r r')
    (hf : ∀ a a', R a a' → InStep F E n l Q (f a) (f' a')) :
    InStep F E n l Q (r >>= f) (r' >>= f') :=
  fun T => (h T).bind fun T' a a' _ ha => hf a a' ha T'

theorem InStep.pure {a : α} {a' : β} (h : R a a') :
    InStep F F.Ahead n 0 R (Pure.pure a) (Pure.pure a') :=
  fun _ => .pure fun _ _ => h

theorem InStep.bind_pure {g : α → γ} {g' : β → δ} (h : InStep F E n k R r r')
    (hg : ∀ a a', R a a' → Q (g a) (g' a')) :
    InStep F E n k Q (r >>= fun a => Pure.pure (g a)) (r' >>= fun a => Pure.pure (g' a)) :=
  fun T => (h T).bind_pure fun _ a a' _ ha => hg a a' ha

theorem InStep.ite {c c' : Bool} {q : Rule α} {q' : Rule β} (hc : c = c')
    (h : InStep F E n k R r r') (h' : InStep F E n k R q q') :
    InStep F E n k R (if c then r else q) (if c' then r' else q') :=
  fun T => .ite hc (h T) (h' T)

theorem InStep.refuse {g : String → Fault} :
    InStep F E n k R (Rule.refuse g : Rule α) (Rule.refuse g : Rule β) := fun _ => .refuse

theorem InStep.fail {d d' : Diagnostic} (hd : d.Like F.place d') :
    InStep F E n k R (Rule.fail d : Rule α) (Rule.fail d' : Rule β) :=
  fun _ _ _ _ _ _ hs hw _ => .failed hd hs List.suffix_rfl hw

end Constant

section Lists

variable {item : Rule α} {item' : Rule β}
  (hR : ∀ T T' a a', T.Grows T' → R T a a' → R T' a a')
  (h : ∀ T, InStepFrom F T F.Ahead n 1 R item item')
include hR h

theorem commaSeparated_inStep {i j : Nat} (hm : m ≤ n) (hi : m ≤ i) (hj : m ≤ j) :
    InStepFrom F T F.Ahead m 1 (fun T => List.Forall₂ (R T)) (commaSeparated item i)
      (commaSeparated item' j) := by
  induction m generalizing T i j with
  | zero =>
    -- an item takes a token, so there is none
    intro b w w' s s' hs hw hn
    obtain ⟨g, hg⟩ : ∃ g, commaSeparated item i = item >>= g := by cases i <;> exact ⟨_, rfl⟩
    obtain ⟨g', hg'⟩ : ∃ g, commaSeparated item' j = item' >>= g := by cases j <;> exact ⟨_, rfl⟩
    have hr := h T hs hw (by omega)
    rw [hg, hg', bind_apply, bind_apply]
    generalize item s = x, item' s' = x' at hr
    cases hr with
    | failed hd ht hv hw => exact .failed hd ht hv hw
    | done _ _ _ hk _ => omega
  | succ m ih =>
    obtain ⟨i, rfl⟩ : ∃ k, i = k + 1 := ⟨i - 1, by omega⟩
    obtain ⟨j, rfl⟩ : ∃ k, j = k + 1 := ⟨j - 1, by omega⟩
    have hitem : InStepFrom F T F.Ahead (m + 1) 1 R item item' :=
      fun _ _ _ _ _ hs hw hn => h T hs hw (by omega)
    refine hitem.bind_of_le (Nat.le_refl _) fun T₁ a a' _ ha =>
      (advanceIf_inStep (by decide) T₁).bind fun T₂ c c' hT₂ hc => .ite hc ?_ ?_
    · refine ((ih (by omega) (by omega) (by omega)).of_le (Nat.zero_le 1)).bind_pure
        fun T₃ as as' hT₃ has => .cons (hR _ _ _ _ (hT₂.trans hT₃) ha) has
    · exact .pure fun T₃ hT₃ => .cons (hR _ _ _ _ (hT₂.trans hT₃) ha) .nil

theorem itemsBefore_inStep (close : TokenKind) :
    InStepFrom F T F.Ahead n 0 (fun T => List.Forall₂ (R T)) (itemsBefore close item)
      (itemsBefore close item') := by
  intro b w w' s s' hs hw hn
  unfold itemsBefore
  rw [hs.kind hw]
  by_cases hk : s.kind = close
  · rw [if_pos hk, if_pos hk]
    exact .done .nil hs List.suffix_rfl (Nat.le_refl _) hw
  · rw [if_neg hk, if_neg hk]
    exact (commaSeparated_inStep hR h hn hs.length_le hs.length_le' hs hw
      (Nat.le_refl _)).of_le (Nat.zero_le 1)

end Lists

/-- Corresponding types, of which the first one is known. -/
def KnownType (F : Frame) (T : TypeTable) (t t' : TypeId) : Prop :=
  F.type t t' ∧ t.index < T.size

theorem KnownType.mono {T T' : TypeTable} {t t' : TypeId} (hT : T.Grows T')
    (h : KnownType F T t t') : KnownType F T' t t' :=
  ⟨h.1, Nat.lt_of_lt_of_le h.2 hT.length_le⟩

theorem primitiveType_inStep :
    InStepFrom F T F.Ahead n 1 (KnownType F) primitiveType primitiveType := by
  intro b w w' s s' hs hw hn
  unfold primitiveType
  rw [hs.kind hw]
  cases hp : s.kind.primitive? with
  | none => exact InStepFrom.refuse hs hw hn
  | some p =>
    have hplain : IsPlain s.kind := by
      revert hp
      cases s.kind <;> cases p <;> decide
    have hr := advance_abreast hs hw hplain
    unfold advance at hr
    cases hr with
    | done ha ht hv hk hw =>
      refine .done ⟨(TypeId.shift_primitive ht.types.primitives _ p).symm, ?_⟩ ht hv hk hw
      exact TypeTable.lt_size_of_shape? (ht.types.reachable.shape?_primitive p)

theorem enterType_inStep {shape : TypeShape}
    (h : ∀ T', T.Grows T' → T'.Reachable → (T'.enter shape).2.Reachable) :
    InStepFrom F T F.Ahead n 0 (KnownType F) (enterType shape)
      (enterType (shape.map (TypeId.shift F.old F.added))) := by
  intro b w w' s s' hs hw hn
  refine .done ⟨?_, ?_⟩ { hs with grows := ?_, types := ?_ } List.suffix_rfl (Nat.le_refl _) hw
  · exact hs.types.enter_fst shape (shape.map (TypeId.shift F.old F.added))
  · show s.types.size < (s.types.enter shape).2.size
    rw [TypeTable.size_enter]
    exact Nat.lt_succ_self _
  · exact hs.grows.trans (TypeTable.grows_enter _ _)
  · exact hs.types.enter (h _ hs.grows hs.types.reachable)

theorem forall₂_knownType {as as' : List TypeId} (h : List.Forall₂ (KnownType F T) as as') :
    as' = as.map (TypeId.shift F.old F.added) ∧ ∀ a ∈ as, a.index < T.size := by
  induction h with
  | nil => exact ⟨rfl, by simp⟩
  | cons ha _ ih => exact ⟨congrArg₂ List.cons ha.1 ih.1, List.forall_mem_cons.mpr ⟨ha.2, ih.2⟩⟩

section Types

variable {part part' : Rule TypeId}
  (h : ∀ T, InStepFrom F T F.Ahead n 1 (KnownType F) part part')
include h

theorem pointerType_inStep : InStepFrom F T F.Ahead (n + 1) 1 (KnownType F) (pointerType part)
    (pointerType part') := by
  refine (expect_inStep (by decide) T).bind_of_le (Nat.le_refl _) fun T₁ _ _ _ _ =>
    (h T₁).bind fun T₂ t t' _ ht => ?_
  obtain ⟨rfl, hlt⟩ := ht
  exact enterType_inStep fun T' hT' hr => .pointer hr (Nat.lt_of_lt_of_le hlt hT'.length_le)

theorem functionType_inStep : InStepFrom F T F.Ahead (n + 1) 1 (KnownType F) (functionType part)
    (functionType part') := by
  refine (expect_inStep (by decide) T).bind_of_le (Nat.le_refl _) fun T₁ _ _ _ _ =>
    (itemsBefore_inStep (R := KnownType F) (fun _ _ _ _ => KnownType.mono) h _).bind
      fun T₂ as as' _ has =>
    (expect_inStep (by decide) T₂).bind fun T₃ _ _ hT₃ _ =>
    (expect_inStep (by decide) T₃).bind fun T₄ _ _ hT₄ _ =>
    (h T₄).bind fun T₅ t t' hT₅ ht => ?_
  obtain ⟨rfl, hknown⟩ := forall₂_knownType has
  obtain ⟨rfl, hlt⟩ := ht
  refine enterType_inStep fun T' hT' hr => .function hr (fun a ha => ?_)
    (Nat.lt_of_lt_of_le hlt hT'.length_le)
  exact Nat.lt_of_lt_of_le (hknown a ha) (((hT₃.trans hT₄).trans hT₅).trans hT').length_le

end Types

theorem typeWithin_inStep {i j : Nat} (hi : n ≤ i) (hj : n ≤ j) :
    InStepFrom F T F.Ahead n 1 (KnownType F) (typeWithin .full i) (typeWithin .full j) := by
  induction n generalizing T i j with
  | zero =>
    intro b w w' s s' hs hw hn
    obtain rfl : w = [] := List.eq_nil_of_length_eq_zero (by omega)
    have heof : s.kind = .eof := congrArg Token.kind (hs.nil hw).2.2.1
    have hrefuse {i : Nat} {u : ParserState} (hu : u.kind = .eof) :
        typeWithin .full i u = refuse .noType u := by
      cases i with
      | zero => rfl
      | succ i => simp only [typeWithin, hu, Vocabulary.typeForm?]
    rw [hrefuse heof, hrefuse (hs.kind hw ▸ heof)]
    exact InStepFrom.refuse hs hw hn
  | succ n ih =>
    obtain ⟨i, rfl⟩ : ∃ k, i = k + 1 := ⟨i - 1, by omega⟩
    obtain ⟨j, rfl⟩ : ∃ k, j = k + 1 := ⟨j - 1, by omega⟩
    have hpart (T : TypeTable) :=
      ih (T := T) (Nat.le_of_succ_le_succ hi) (Nat.le_of_succ_le_succ hj)
    intro b w w' s s' hs hw hn
    unfold typeWithin
    rw [hs.kind hw]
    split
    next form _ =>
      cases form with
      | primitive => exact primitiveType_inStep hs hw hn
      | pointer => exact pointerType_inStep hpart hs hw hn
      | function => exact functionType_inStep hpart hs hw hn
    next => exact InStepFrom.refuse hs hw hn

theorem signature?_inStep :
    InStep F F.Ahead n 0 (Option.Rel F.type) (signature? .full) (signature? .full) := by
  refine (advanceIf_inStep (by decide)).bind fun c c' hc => .ite hc ?_ (.pure .none)
  refine fun T => InStepFrom.bind_pure (R := KnownType F) ?_ fun _ t t' _ ht => .some ht.1
  intro b w w' s s' hs hw hn
  exact (typeWithin_inStep hs.length_le hs.length_le' hs hw (Nat.le_refl _)).of_le (Nat.zero_le 1)

theorem fitSignature_inStep {name name' : Token} {params params' : List Token}
    {g g' : Option TypeId} (hname : name.Like F.place name')
    (hparams : List.Forall₂ (Token.Like F.place) params params') (hg : Option.Rel F.type g g') :
    InStep F F.Ahead n 0 (fun _ _ => True) (fitSignature name params g)
      (fitSignature name' params' g') := by
  intro T b w w' s s' hs hw hn
  cases hg with
  | none => exact .done trivial hs List.suffix_rfl (Nat.le_refl _) hw
  | @some t t' ht =>
    obtain rfl : t' = t.shift F.old F.added := ht
    unfold fitSignature
    dsimp only
    rw [hs.types.function?, hs.types.shown, ← hname.text, ← hparams.length_eq]
    cases s.types.function? t with
    | none => exact .failed ⟨rfl, hname.place⟩ hs List.suffix_rfl hw
    | some f =>
      simp only [Option.map_some, List.length_map]
      split
      · exact .done trivial hs List.suffix_rfl (Nat.le_refl _) hw
      · exact .failed ⟨rfl, hname.place⟩ hs List.suffix_rfl hw

end Rule

end FrontEnd
