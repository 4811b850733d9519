import Mathlib
import FrontEnd.Proofs.Grammar.Rebuilding
import FrontEnd.Proofs.Grammar.Recursion
import FrontEnd.Proofs.Grammar.Unsigned
import FrontEnd.Proofs.Syntax.Signing

/-! Two runs of the grammar, one of which finds a signature in front of a variable that has none in
the other. Where the run without it succeeds, the other one succeeds with the tree in which the
variable is signed. -/

namespace FrontEnd

/-- The signature `type` of the table is put in front of the word that stands at `start`. -/
structure Insertion where
  place : Position → Position → Prop
  start : Position
  table : TypeTable
  type : TypeId
  reachable : table.Reachable
  held : table.Holds type

/-- Types that match, whatever is entered into their tables later. -/
def TypeTable.Matching (T U : TypeTable) (x y : TypeId) : Prop :=
  ∀ T' U', T.Grows T' → U.Grows U' → T'.Matches U' x y

namespace TypeTable

variable {T T' U U' : TypeTable} {x y : TypeId}

theorem Matching.mono (hT : T.Grows T') (hU : U.Grows U') (h : T.Matching U x y) :
    T'.Matching U' x y := fun _ _ hT' hU' => h _ _ (hT.trans hT') (hU.trans hU')

theorem Matching.matches (h : T.Matching U x y) : T.Matches U x y := h _ _ (.refl T) (.refl U)

theorem Matching.intro {s s' : TypeShape} (hx : T.shape? x = some s) (hy : U.shape? y = some s')
    (h : s.Related (T.Matching U) s') : T.Matching U x y := fun T' U' hT hU =>
  .intro (hT.shape? hx) (hU.shape? hy) (h.mono fun _ _ _ hparts => hparts T' U' hT hU)

end TypeTable

namespace Insertion

variable (I : Insertion)

/-- The same token in both texts, other than the word that the signature is put in front of. -/
structure Same (t t' : Token) : Prop extends Token.Like I.place t t' where
  apart : t.place ≠ I.start

/-- The tokens `w'` are `w` with the signature put in. -/
inductive Splits : List Token → List Token → Prop
  | nil : Splits [] []
  | cons {t t' : Token} {w w' : List Token} : I.Same t t' → Splits w w' →
      Splits (t :: w) (t' :: w')
  | here {k o k' : Token} {ws w w' : List Token} (hk : k.kind = .kwVar) (hstart : k.place = I.start)
      (ho : o.kind = .kwOf) (hplace : I.place k.place o.place)
      (hws : ws.map Token.letter = I.table.letters I.type) (hk' : k'.kind = .kwVar) :
      Splits w w' → Splits (k :: w) (o :: (ws ++ k' :: w'))

/-- What comes behind a type is not the word that the signature is put in front of. -/
def Parted (w : List Token) : Prop :=
  ∀ u l k v, w = u ++ l :: k :: v → l.kind ∈ TokenKind.primitives → k.place ≠ I.start

/-- Corresponding types; what is put in stands for itself. -/
def Types (T U : TypeTable) (x y : TypeId) : Prop :=
  T.Matching U x y ∨ x = I.type ∧ I.table.Matches U x y

/-- The second tree is the first one with the signature put in. -/
def Like (T U : TypeTable) (a a' : Node) : Prop :=
  (a.sign I.start I.type).Like I.place (I.Types T U) a'

def Likes {α : Type} (f : α → Node) (T U : TypeTable) (a a' : α) : Prop := I.Like T U (f a) (f a')

/-- Both runs have come equally far, and nothing went wrong in the second one. -/
structure Signs (s s' : ParserState) : Prop where
  tokens : I.Splits s.tokens s'.tokens
  parted : I.Parted s.tokens
  types : TypeTable.initial.Grows s.types
  types' : TypeTable.initial.Grows s'.types
  silent : s'.reported = []

/-- Both runs go on, the first one to `t` and the second one to `t'`. -/
structure Advances (s s' t t' : ParserState) : Prop where
  signs : I.Signs t t'
  tokens : t.tokens <:+ s.tokens
  grows : s.types.Grows t.types
  grows' : s'.types.Grows t'.types

/-- If the first reply is a success, so is the second. -/
def Followed {α β : Type} (s s' : ParserState) (P : TypeTable → TypeTable → α → β → Prop)
    (x : Reply α) (x' : Reply β) : Prop :=
  ∀ a t, x = .done a t →
    ∃ a' t', x' = .done a' t' ∧ I.Advances s s' t t' ∧ P t.types t'.types a a'

variable {I} {T T' U U' : TypeTable} {s s' t t' u u' : ParserState}

theorem Types.mono (hT : T.Grows T') (hU : U.Grows U') {x y : TypeId} (h : I.Types T U x y) :
    I.Types T' U' x y :=
  h.imp (.mono hT hU) fun ⟨hx, hm⟩ => ⟨hx, hm.mono I.reachable hU⟩

theorem Like.mono (hT : T.Grows T') (hU : U.Grows U') {a a' : Node} (h : I.Like T U a a') :
    I.Like T' U' a a' :=
  Node.Like.mono (fun _ _ hx => hx.mono hT hU) h

theorem Like.exprs {es es' : List Expr} (h : List.Forall₂ (I.Likes .expr T U) es es') :
    I.Like T U (.exprs es) (.exprs es') := by
  induction h with
  | nil => exact .noExpr
  | cons he _ ih => exact .moreExprs he ih

theorem Parted.of_suffix {w v : List Token} (h : I.Parted w) (hv : v <:+ w) : I.Parted v := by
  obtain ⟨x, rfl⟩ := hv
  intro u l k z hz
  exact h (x ++ u) l k z (by rw [hz, List.append_assoc])

theorem Advances.refl (h : I.Signs s s') : I.Advances s s' s s' :=
  ⟨h, List.suffix_rfl, .refl _, .refl _⟩

theorem Advances.trans (h : I.Advances s s' t t') (h' : I.Advances t t' u u') :
    I.Advances s s' u u' :=
  ⟨h'.signs, h'.tokens.trans h.tokens, h.grows.trans h'.grows, h.grows'.trans h'.grows'⟩

theorem Advances.length_le (h : I.Advances s s' t t') : t.tokens.length ≤ s.tokens.length :=
  h.tokens.length_le

namespace Signs

/-- The kinds of the next tokens differ only in front of what is put in. -/
theorem kind_cases (h : I.Signs s s') :
    s'.kind = s.kind ∨ s.kind = .kwVar ∧ s'.kind = .kwOf ∧ s.current.place = I.start := by
  have htokens := h.tokens
  unfold ParserState.kind ParserState.current
  generalize s.tokens = w, s'.tokens = w' at htokens
  cases htokens with
  | nil => exact .inl rfl
  | cons ht _ => exact .inl ht.kind.symm
  | here hk hstart ho _ _ _ _ => exact .inr ⟨hk, ho, hstart⟩

theorem apply_kind {γ : Type} (h : I.Signs s s') (f : TokenKind → γ) (hf : f .kwVar = f .kwOf) :
    f s'.kind = f s.kind := by
  rcases h.kind_cases with he | ⟨hs, hs', -⟩
  · rw [he]
  · rw [hs, hs', hf]

theorem kind_eq (h : I.Signs s s') (hk : s.kind = .kwVar → s.current.place ≠ I.start) :
    s'.kind = s.kind := by
  rcases h.kind_cases with he | ⟨hs, -, hstart⟩
  · exact he
  · exact absurd hstart (hk hs)

/-- The next tokens are the same, or the signature is put in there. -/
theorem current_cases (h : I.Signs s s') (heof : s.kind ≠ .eof) :
    I.Same s.current s'.current ∨ s.kind = .kwVar ∧ s.current.place = I.start ∧
      s'.kind = .kwOf ∧ I.place s.current.place s'.current.place ∧ ∃ ws k w,
        s'.advance.tokens = ws ++ k :: w ∧ ws.map Token.letter = I.table.letters I.type ∧
          k.kind = .kwVar ∧ I.Splits s.advance.tokens w := by
  have htokens := h.tokens
  have hne := ParserState.tokens_ne_nil heof
  unfold ParserState.kind ParserState.current ParserState.advance
  dsimp only
  generalize s.tokens = w, s'.tokens = w' at htokens hne
  cases htokens with
  | nil => exact absurd rfl hne
  | cons ht _ => exact .inl ht
  | here hk hstart ho hplace hws hk' hw =>
    exact .inr ⟨hk, hstart, ho, hplace, _, _, _, rfl, hws, hk', hw⟩

/-- Apart from what is put in, both runs step over the same token. -/
theorem advance (h : I.Signs s s') (heof : s.kind ≠ .eof)
    (hk : s.kind = .kwVar → s.current.place ≠ I.start) :
    I.Same s.current s'.current ∧ I.Advances s s' s.advance s'.advance ∧
      s.advance.tokens.length < s.tokens.length := by
  obtain ⟨t, t', htokens, htokens', ht, hrest⟩ : ∃ t t', s.tokens = t :: s.advance.tokens ∧
      s'.tokens = t' :: s'.advance.tokens ∧ I.Same t t' ∧
        I.Splits s.advance.tokens s'.advance.tokens := by
    have htokens := h.tokens
    have hne := ParserState.tokens_ne_nil heof
    unfold ParserState.kind ParserState.current at hk
    unfold ParserState.advance
    dsimp only
    generalize s.tokens = w, s'.tokens = w' at htokens hne hk
    cases htokens with
    | nil => exact absurd rfl hne
    | cons ht hrest => exact ⟨_, _, rfl, rfl, ht, hrest⟩
    | here hkind hstart _ _ _ _ _ => exact absurd hstart (hk hkind)
  have hsuffix : s.advance.tokens <:+ s.tokens := List.tail_suffix _
  have hcurrent : s.current = t := by simp [ParserState.current, htokens]
  have hcurrent' : s'.current = t' := by simp [ParserState.current, htokens']
  refine ⟨by rwa [hcurrent, hcurrent'], ⟨?_, hsuffix, .refl _, .refl _⟩, ?_⟩
  · exact ⟨hrest, h.parted.of_suffix hsuffix, h.types, h.types', h.silent⟩
  · exact (ParserState.consumes_advance (ParserState.tokens_ne_nil heof)).length_lt

end Signs

end Insertion

namespace Rule

variable {α β γ δ : Type}

/-- In front of fewer than `n` tokens the second rule succeeds with what corresponds wherever the
first one does. The types known at the start are those of `T` and `U` and maybe more. -/
def FollowsFrom (I : Insertion) (T U : TypeTable) (n : Nat)
    (P : TypeTable → TypeTable → α → β → Prop) (r : Rule α) (r' : Rule β) : Prop :=
  ∀ ⦃s s'⦄, I.Signs s s' → T.Grows s.types → U.Grows s'.types → s.tokens.length < n →
    I.Followed s s' P (r s) (r' s')

def Follows (I : Insertion) (n : Nat) (P : TypeTable → TypeTable → α → β → Prop) (r : Rule α)
    (r' : Rule β) : Prop :=
  ∀ T U, FollowsFrom I T U n P r r'

variable {I : Insertion} {T U : TypeTable} {n m : Nat} {P : TypeTable → TypeTable → α → β → Prop}
  {Q : TypeTable → TypeTable → γ → δ → Prop} {r : Rule α} {r' : Rule β} {f : α → Rule γ}
  {f' : β → Rule δ} {s s' : ParserState}

section Combinators

theorem FollowsFrom.of_le (h : FollowsFrom I T U n P r r') (hm : m ≤ n) :
    FollowsFrom I T U m P r r' :=
  fun _ _ hs hT hU hn => h hs hT hU (Nat.lt_of_lt_of_le hn hm)

theorem FollowsFrom.pure {b : γ} {b' : δ}
    (h : ∀ T' U', T.Grows T' → U.Grows U' → Q T' U' b b') :
    FollowsFrom I T U n Q (Pure.pure b) (Pure.pure b') := by
  intro s s' hs hT hU _ a t ha
  obtain ⟨rfl, rfl⟩ := of_pure_done ha
  exact ⟨b', s', rfl, .refl hs, h _ _ hT hU⟩

theorem FollowsFrom.fail {d : Diagnostic} : FollowsFrom I T U n P (Rule.fail d) r' := by
  intro s s' _ _ _ _ a t ha
  cases ha

theorem FollowsFrom.bind (h : FollowsFrom I T U n P r r')
    (hf : ∀ T' U' a a', T.Grows T' → U.Grows U' → P T' U' a a' →
      FollowsFrom I T' U' n Q (f a) (f' a')) : FollowsFrom I T U n Q (r >>= f) (r' >>= f') := by
  intro s s' hs hT hU hn b u hb
  obtain ⟨a, t, ha, hb⟩ := of_bind_done hb
  obtain ⟨a', t', ha', hadvances, hP⟩ := h hs hT hU hn a t ha
  obtain ⟨b', u', hb', hadvances', hQ⟩ := hf _ _ a a' (hT.trans hadvances.grows)
    (hU.trans hadvances.grows') hP hadvances.signs (.refl _) (.refl _)
    (Nat.lt_of_le_of_lt hadvances.length_le hn) b u hb
  exact ⟨b', u', by rw [bind_done f' ha', hb'], hadvances.trans hadvances', hQ⟩

theorem followed_advance_bind {f : Token → Rule γ} {g : Token → Rule δ} (hs : I.Signs s s')
    (heof : s.kind ≠ .eof) (hk : s.kind = .kwVar → s.current.place ≠ I.start)
    (hn : s.tokens.length < n + 1)
    (hf : ∀ t t', I.Same t t' → FollowsFrom I s.types s'.types n Q (f t) (g t')) :
    I.Followed s s' Q ((advance >>= f) s) ((advance >>= g) s') := by
  obtain ⟨ht, hadvances, hlt⟩ := hs.advance heof hk
  intro b u hb
  obtain ⟨b', u', hb', hadvances', hQ⟩ :=
    hf _ _ ht hadvances.signs (.refl _) (.refl _) (by omega) b u hb
  exact ⟨b', u', hb', hadvances.trans hadvances', hQ⟩

/-- Kinds that the next tokens do not have in front of what is put in. -/
def IsApart (k : TokenKind) : Prop := k ≠ .eof ∧ k ≠ .kwVar ∧ k ≠ .kwOf

instance (k : TokenKind) : Decidable (IsApart k) := inferInstanceAs (Decidable (_ ∧ _))

theorem IsApart.place_ne {k : TokenKind} (hk : IsApart k) (he : s.kind = k) :
    s.kind = .kwVar → s.current.place ≠ I.start :=
  fun h => absurd (he.symm.trans h) hk.2.1

theorem FollowsFrom.expect_bind {k : TokenKind} {f : Token → Rule γ} {f' : Token → Rule δ}
    (hk : IsApart k) (hm : n ≤ m + 1)
    (hf : ∀ t t', I.Same t t' → FollowsFrom I T U m Q (f t) (f' t')) :
    FollowsFrom I T U n Q (expect k >>= f) (expect k >>= f') := by
  intro s s' hs hT hU hn
  by_cases he : s.kind = k
  · have hstep := followed_advance_bind (f := f) (g := f') (Q := Q) hs (he ▸ hk.1)
      (hk.place_ne he) (Nat.lt_of_lt_of_le hn hm)
      fun t t' ht _ _ hs hT' hU' hn => hf t t' ht hs (hT.trans hT') (hU.trans hU') hn
    rwa [bind_done f (expect_done he),
      bind_done f' (expect_done ((hs.kind_eq (hk.place_ne he)).trans he))]
  · intro b u hb
    rw [bind_failed f (expect_failed he)] at hb
    cases hb

theorem FollowsFrom.advanceIf_bind {k : TokenKind} {f : Bool → Rule γ} {f' : Bool → Rule δ}
    (hk : IsApart k) (hm : n ≤ m + 1) (hmore : FollowsFrom I T U m Q (f true) (f' true))
    (hstop : FollowsFrom I T U n Q (f false) (f' false)) :
    FollowsFrom I T U n Q (advanceIf k >>= f) (advanceIf k >>= f') := by
  intro s s' hs hT hU hn
  by_cases he : s.kind = k
  · obtain ⟨-, hadvances, hlt⟩ := hs.advance (he ▸ hk.1) (hk.place_ne he)
    rw [bind_done f (advanceIf_done_true he),
      bind_done f' (advanceIf_done_true ((hs.kind_eq (hk.place_ne he)).trans he))]
    intro b u hb
    obtain ⟨b', u', hb', hadvances', hQ⟩ := hmore hadvances.signs hT hU (by omega) b u hb
    exact ⟨b', u', hb', hadvances.trans hadvances', hQ⟩
  · have he' : s'.kind ≠ k := by
      rcases hs.kind_cases with hkind | ⟨-, hkind, -⟩
      · rwa [hkind]
      · exact hkind ▸ hk.2.2.symm
    rw [bind_done f (advanceIf_done_false he), bind_done f' (advanceIf_done_false he')]
    exact hstop hs hT hU hn

theorem expect_follows {k : TokenKind} (hk : IsApart k) :
    Follows I n (fun _ _ => I.Same) (expect k) (expect k) := by
  intro T U s s' hs hT hU hn a t ha
  by_cases he : s.kind = k
  · obtain ⟨ht, hadvances, -⟩ := hs.advance (he ▸ hk.1) (hk.place_ne he)
    rw [expect_done he] at ha
    obtain ⟨rfl, rfl⟩ := Reply.done.inj ha
    exact ⟨_, _, expect_done ((hs.kind_eq (hk.place_ne he)).trans he), hadvances, ht⟩
  · rw [expect_failed he] at ha
    cases ha

end Combinators

end Rule

end FrontEnd
