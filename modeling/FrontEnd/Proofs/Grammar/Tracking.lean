import FrontEnd.Proofs.Grammar.Contract
import FrontEnd.Proofs.Grammar.Recursion
import FrontEnd.Proofs.Grammar.Sentences

/-! Rules that keep track of a language. Ahead of such a rule stands some word of the language, as
far as can be told from the tokens read; a success leaves the words that may follow, and the first
fault that is told refuses the first token with which no word goes on. -/

namespace FrontEnd

/-- The faults that a token is refused with. -/
def Fault.refusesToken : Fault → Bool
  | unrecognised _ | unterminatedString | numberTooLarge _ | noExpression _ | unexpectedToken _ _
  | noType _ | noDeclaration _ => true
  | _ => false

namespace ParserState

/-- From `s` on the tokens `w` were stepped over, and nothing was told. -/
structure Passes (s : ParserState) (w : List Token) (t : ParserState) : Prop where
  tokens : s.tokens = w ++ t.tokens
  finish : t.finish = s.finish
  reported : t.reported = s.reported

variable {s t u : ParserState} {w x : List Token} {k : TokenKind} {v : List TokenKind}

theorem Passes.refl (s : ParserState) : s.Passes [] s := ⟨rfl, rfl, rfl⟩

theorem Passes.trans (h : s.Passes w t) (h' : t.Passes x u) : s.Passes (w ++ x) u :=
  ⟨by rw [h.tokens, h'.tokens, List.append_assoc], h'.finish.trans h.finish,
    h'.reported.trans h.reported⟩

theorem Passes.exitBlock (h : s.Passes w t) : s.Passes w t.exitBlock :=
  ⟨h.tokens, h.finish, h.reported⟩

theorem Passes.of_enterBlock (h : s.enterBlock.Passes w t) : s.Passes w t :=
  ⟨h.tokens, h.finish, h.reported⟩

theorem Passes.length_le (h : s.Passes w t) : t.tokens.length ≤ s.tokens.length := by
  rw [h.tokens, List.length_append]
  exact Nat.le_add_left _ _

theorem passes_advance (h : s.kind ≠ .eof) : s.Passes [s.current] s.advance := by
  have hs := stretch_advance h
  exact ⟨hs.tokens, hs.finish, hs.reported⟩

/-- The word begins as the tokens ahead do; the end of the word is the end of the text. -/
def Faces (s : ParserState) (v : List TokenKind) : Prop := v.headD .eof = s.kind

theorem Passes.faces (h : s.Passes w t) (hv : t.Faces v) : s.Faces (w.map Token.kind ++ v) := by
  cases w with
  | nil =>
    have hkind : s.kind = t.kind := by rw [kind, kind, current, current, h.tokens, h.finish]; rfl
    exact hv.trans hkind.symm
  | cons a w => simp [Faces, kind, current, h.tokens]

/-- The diagnostic refuses the first token that no word of the language goes on with. -/
def Offends (s : ParserState) (A : Language TokenKind) (d : Diagnostic) : Prop :=
  ∃ w t f, s.Passes w t ∧ d = t.unexpected f ∧ (∃ v, w.map Token.kind ++ v ∈ A) ∧
    ∀ v, t.Faces v → w.map Token.kind ++ v ∉ A

theorem Offends.of_passes {A M : Language TokenKind} {d : Diagnostic} (h : t.Offends M d)
    (hw : s.Passes w t) (hsound : ∀ v ∈ M, w.map Token.kind ++ v ∈ A)
    (hfull : ∀ v, t.Faces v → w.map Token.kind ++ v ∈ A → v ∈ M) : s.Offends A d := by
  obtain ⟨x, u, f, hx, hd, ⟨v, hv⟩, hnone⟩ := h
  refine ⟨w ++ x, u, f, hw.trans hx, hd, ⟨v, ?_⟩, fun v hv hA => ?_⟩
  · rw [List.map_append, List.append_assoc]
    exact hsound _ hv
  · rw [List.map_append, List.append_assoc] at hA
    exact hnone v hv (hfull _ (hx.faces hv) hA)

end ParserState

/-- Ahead of `s` stood a word of `A`; behind what was read stands one of `B`. -/
def Reply.Tracks {α : Type} (s : ParserState) (A B : Language TokenKind) : Reply α → Prop
  | .done _ t => ∃ w, s.Passes w t ∧ (∀ v ∈ B, w.map Token.kind ++ v ∈ A) ∧
      ∀ v, t.Faces v → w.map Token.kind ++ v ∈ A → v ∈ B
  | .failed d t => ∃ e es, t.reported ++ [d] = s.reported ++ e :: es ∧
      (e.fault.refusesToken = true → s.Offends A e)

namespace Reply

variable {α β : Type} {s t : ParserState} {A A' B M : Language TokenKind} {r : Reply α}
  {r' : Reply β} {a : α}

theorem tracks_done (a : α) (s : ParserState) (A : Language TokenKind) :
    (Reply.done a s).Tracks s A A :=
  ⟨[], .refl s, fun _ h => h, fun _ _ h => h⟩

/-- What was read to end with `M` and from `M` on is read as a whole. -/
theorem Tracks.of_done (h : (Reply.done a t).Tracks s A M) (h' : r'.Tracks t M B) :
    r'.Tracks s A B := by
  obtain ⟨w, hw, hsound, hfull⟩ := h
  cases r' with
  | done b u =>
    obtain ⟨x, hx, hsound', hfull'⟩ := h'
    refine ⟨w ++ x, hw.trans hx, fun v hv => ?_, fun v hv hA => ?_⟩
    · rw [List.map_append, List.append_assoc]
      exact hsound _ (hsound' v hv)
    · rw [List.map_append, List.append_assoc] at hA
      exact hfull' v hv (hfull _ (hx.faces hv) hA)
  | failed d u =>
    obtain ⟨e, es, hes, hoffends⟩ := h'
    exact ⟨e, es, by rw [hes, hw.reported], fun he => (hoffends he).of_passes hw hsound hfull⟩

theorem Tracks.widen (h : r.Tracks s A' B) (hle : A' ≤ A)
    (hfaces : ∀ v, s.Faces v → v ∈ A → v ∈ A') : r.Tracks s A B := by
  cases r with
  | done a t =>
    obtain ⟨w, hw, hsound, hfull⟩ := h
    exact ⟨w, hw, fun v hv => hle (hsound v hv),
      fun v hv hA => hfull v hv (hfaces _ (hw.faces hv) hA)⟩
  | failed d t =>
    obtain ⟨e, es, hes, hoffends⟩ := h
    exact ⟨e, es, hes, fun he => (hoffends he).of_passes (.refl s) hle hfaces⟩

/-- The next token is known, and so is how the words that begin with it go on. -/
theorem Tracks.of_kind {k : TokenKind} (h : r.Tracks s (k.alone * M) B) (hs : s.kind = k)
    (hk : k ≠ .eof) (hA : ∀ v, k :: v ∈ A ↔ v ∈ M) : r.Tracks s A B := by
  refine h.widen (fun w hw => ?_) fun w hw hwA => ?_
  · obtain ⟨v, hv, rfl⟩ := TokenKind.mem_alone_mul.mp hw
    exact (hA v).mpr hv
  · cases w with
    | nil => exact absurd (hw.trans hs).symm hk
    | cons l v =>
      obtain rfl : l = k := hw.trans hs
      exact TokenKind.cons_mem_alone_mul.mpr ⟨rfl, (hA v).mp hwA⟩

theorem Tracks.of_enterBlock (h : r.Tracks s.enterBlock A B) : r.Tracks s A B := by
  cases r with
  | done a t =>
    obtain ⟨w, hw, hsound, hfull⟩ := h
    exact ⟨w, hw.of_enterBlock, hsound, hfull⟩
  | failed d t =>
    obtain ⟨e, es, hes, hoffends⟩ := h
    refine ⟨e, es, hes, fun he => ?_⟩
    obtain ⟨w, t', f, hw, hrest⟩ := hoffends he
    exact ⟨w, t', f, hw.of_enterBlock, hrest⟩

theorem Tracks.map (f : α → β) (h : r.Tracks s A B) : (r.map f).Tracks s A B := by
  cases r <;> exact h

end Reply

namespace Rule

variable {α β : Type} {A B M : Language TokenKind} {n m : Nat} {s : ParserState}

theorem refuse_tracks {f : String → Fault} [hA : HasWord A] (hnone : ∀ v, s.Faces v → v ∉ A) :
    (refuse f s : Reply α).Tracks s A B := by
  refine ⟨s.unexpected (f s.current.shown), [], rfl, fun _ => ?_⟩
  exact ⟨[], s, _, .refl s, rfl, hA.exists_mem, hnone⟩

theorem fail_tracks {d : Diagnostic} (hd : d.fault.refusesToken = false) :
    (Reply.failed d s : Reply α).Tracks s A B :=
  ⟨d, [], rfl, fun h => nomatch hd.symm.trans h⟩

theorem bind_tracks {r : Rule α} {f : α → Rule β} (hr : (r s).Tracks s A M)
    (hf : ∀ a t, r s = .done a t → (f a t).Tracks t M B) : ((r >>= f) s).Tracks s A B := by
  rw [bind_apply]
  cases hreply : r s with
  | done a t =>
    rw [hreply] at hr
    exact hr.of_done (hf a t hreply)
  | failed d t =>
    rw [hreply] at hr
    exact hr

/-- The rule keeps track in front of fewer than `n` tokens. -/
def TracksBelow (n : Nat) (r : Rule α) (A B : Language TokenKind) : Prop :=
  ∀ s : ParserState, s.tokens.length < n → (r s).Tracks s A B

namespace TracksBelow

variable {r : Rule α} {f : α → Rule β}

theorem mono (h : r.TracksBelow n A B) (hm : m ≤ n) : r.TracksBelow m A B :=
  fun s hs => h s (Nat.lt_of_lt_of_le hs hm)

theorem pure (a : α) : TracksBelow n (Pure.pure a : Rule α) A A :=
  fun s _ => Reply.tracks_done a s A

theorem bind (hr : r.TracksBelow n A M) (hf : ∀ a, (f a).TracksBelow n M B) :
    (r >>= f).TracksBelow n A B := by
  refine fun s hs => bind_tracks (hr s hs) fun a t ha => hf a t ?_
  obtain ⟨w, hw, _⟩ := ha ▸ hr s hs
  exact Nat.lt_of_le_of_lt hw.length_le hs

/-- A rule that takes a token leaves fewer of them to the next one. -/
theorem bind_consuming (hr : r.TracksBelow (n + 1) A M) (hc : Consuming r)
    (hf : ∀ a, (f a).TracksBelow n M B) : (r >>= f).TracksBelow (n + 1) A B :=
  fun s hs => bind_tracks (hr s hs) fun a t ha =>
    hf a t (Nat.lt_of_lt_of_le (hc ha).length_lt (Nat.le_of_lt_succ hs))

end TracksBelow

theorem advance_tracks {k : TokenKind} (hs : s.kind = k) (hk : k ≠ .eof) :
    (advance s).Tracks s (k.alone * M) M := by
  have hcurrent : [s.current].map Token.kind = [k] := congrArg (fun k => [k]) hs
  refine ⟨[s.current], ParserState.passes_advance (hs ▸ hk), fun v hv => ?_, fun v _ hv => ?_⟩
  · rw [hcurrent]
    exact TokenKind.cons_mem_alone_mul.mpr ⟨rfl, hv⟩
  · rw [hcurrent] at hv
    exact (TokenKind.cons_mem_alone_mul.mp hv).2

theorem advance_bind_tracks {f : Token → Rule α} (hf : ∀ t, (f t).TracksBelow n M B)
    (hlt : s.tokens.length < n + 1) (hs : s.kind ≠ .eof) :
    ((advance >>= f) s).Tracks s (s.kind.alone * M) B := by
  refine bind_tracks (advance_tracks rfl hs) fun k t ht => hf k t ?_
  have hshorter := (ParserState.consumes_advance (ParserState.tokens_ne_nil hs)).length_lt
  injection ht with _ ht
  rw [← ht]
  omega

theorem expect_tracks {k : TokenKind} [HasWord M] (hk : k ≠ .eof) :
    TracksBelow n (expect k) (k.alone * M) M := by
  intro s _
  by_cases hs : s.kind = k
  · rw [expect_done hs]
    exact advance_tracks hs hk
  · unfold expect expectOr
    rw [if_neg hs]
    refine refuse_tracks fun v hv hA => hs ?_
    obtain ⟨x, _, rfl⟩ := TokenKind.mem_alone_mul.mp hA
    exact hv.symm

namespace TracksBelow

variable {r : Rule α} {f : α → Rule β} {g : Token → Rule β} {h : Bool → Rule β} {k : TokenKind}

theorem expect_bind [HasWord M] (hg : ∀ t, (g t).TracksBelow n M B)
    (hk : k ≠ .eof := by decide) : (expect k >>= g).TracksBelow n (k.alone * M) B :=
  (expect_tracks hk).bind hg

theorem expect_first [HasWord M] (hg : ∀ t, (g t).TracksBelow n M B)
    (hk : k ≠ .eof := by decide) : (expect k >>= g).TracksBelow (n + 1) (k.alone * M) B :=
  (expect_tracks hk).bind_consuming (.expect hk) hg

/-- With the token at its head a word goes on in one way; without it the word is another one. -/
theorem advanceIf_bind {M' : Language TokenKind} (htrue : (h true).TracksBelow m M' B)
    (hfalse : (h false).TracksBelow n M B) (hM : ∀ v, k :: v ∈ M → v ∈ M') (hn : n ≤ m + 1)
    (hk : k ≠ .eof := by decide) :
    (advanceIf k >>= h).TracksBelow n (M + k.alone * M') B := by
  intro s hs
  by_cases hkind : s.kind = k
  · rw [bind_done h (advanceIf_done_true hkind)]
    have hadvance : (Reply.done true s.advance).Tracks s (k.alone * M') M' :=
      advance_tracks hkind hk
    have hlt := (ParserState.consumes_advance (ParserState.tokens_ne_nil (hkind ▸ hk))).length_lt
    refine (hadvance.of_done (htrue s.advance (by omega))).of_kind hkind hk fun v => ?_
    rw [Language.mem_add, TokenKind.cons_mem_alone_mul]
    exact ⟨fun hv => hv.elim (hM v) And.right, fun hv => .inr ⟨rfl, hv⟩⟩
  · rw [bind_done h (advanceIf_done_false hkind)]
    refine (hfalse s hs).widen (fun v hv => .inl hv) fun v hv hA => hA.resolve_right fun hA => ?_
    obtain ⟨x, _, rfl⟩ := TokenKind.mem_alone_mul.mp hA
    exact hkind hv.symm

end TracksBelow

section Lists

open Category

variable {item : Rule α} {c : Category} {K : Language TokenKind} {close : TokenKind}

theorem list_tracks (hs : item.Steady)
    (hi : ∀ K, Following K → item.TracksBelow n (c.words * K) K) (hK : Following K)
    (hcomma : ∀ v, .comma :: v ∉ K) : (Rule.list item).TracksBelow n (c.list.words * K) K := by
  induction n with
  | zero => exact fun s hs => nomatch hs
  | succ n ih =>
    have := hK.hasWord
    have hsplit : c.list.words * K =
        c.words * (K + TokenKind.comma.alone * (c.list.words * K)) := by
      nth_rewrite 1 [words_list]
      rw [add_mul, mul_assoc, mul_assoc, mul_add]
    rw [list_eq hs, hsplit]
    refine (hi _ (hK.add (.alone_mul rfl (by decide)))).bind fun x => ?_
    refine .advanceIf_bind ?_ (.pure _) (fun v hv => absurd hv (hcomma v)) (Nat.le_refl _)
    exact (ih fun K hK => (hi K hK).mono (Nat.le_succ n)).bind fun _ => .pure _

theorem itemsBefore_tracks [HasWord M] (hs : item.Steady)
    (hi : ∀ K, Following K → item.TracksBelow n (c.words * K) K)
    (hitem : ∀ K v, v ∈ c.words * K → v.headD .eof ≠ close)
    (hclose : Vocabulary.tailForm? close = none) (helse : close ≠ .kwElse)
    (hcomma : close ≠ .comma) :
    (itemsBefore close item).TracksBelow n (c.items.words * (close.alone * M))
      (close.alone * M) := by
  have hA : c.items.words * (close.alone * M) =
      close.alone * M + c.list.words * (close.alone * M) := by
    rw [words_items, add_mul, one_mul]
  intro s hlt
  rw [hA]
  unfold itemsBefore
  by_cases hkind : s.kind = close
  · rw [if_pos hkind]
    refine (Reply.tracks_done [] s _).widen (fun v hv => .inl hv) fun v hv hvA => ?_
    refine hvA.resolve_right fun hlist => ?_
    rw [words_list, add_mul, mul_assoc] at hlist
    have hhead : v.headD .eof ≠ close := hlist.elim (hitem _ v) (hitem _ v)
    exact hhead (hv.trans hkind)
  · rw [if_neg hkind]
    have hlist := list_tracks hs hi (.alone_mul (M := M) hclose helse)
      (fun v hv => hcomma (TokenKind.cons_mem_alone_mul.mp hv).1.symm)
    refine (hlist s hlt).widen (fun v hv => .inr hv) fun v hv hvA => hvA.resolve_left fun hv' => ?_
    obtain ⟨x, _, rfl⟩ := TokenKind.mem_alone_mul.mp hv'
    exact hkind hv.symm

end Lists

section Types

open TokenKind
open Category (words)

variable {K : Language TokenKind}

theorem enterType_tracks (shape : TypeShape) : (enterType shape).TracksBelow n K K :=
  fun _ _ => ⟨[], ⟨rfl, rfl, rfl⟩, fun _ h => h, fun _ _ h => h⟩

theorem headD_ne_of_mem_type_mul {k : TokenKind} (hk : Vocabulary.full.typeForm? k = none)
    {v : List TokenKind} (h : v ∈ words .type * K) : v.headD .eof ≠ k := by
  cases v with
  | nil => exact absurd h Category.nil_notMem_type_mul
  | cons l v =>
    obtain ⟨form, hl, _⟩ := Category.cons_mem_type_mul.mp h
    rintro rfl
    exact nomatch hk.symm.trans hl

theorem typeOfForm_tracks [HasWord K] {part : Rule TypeId} (hs : part.Steady)
    (hpart : ∀ K [HasWord K], part.TracksBelow n (words .type * K) K) {form : TypeForm}
    (hlt : s.tokens.length < n + 1) (hform : Vocabulary.full.typeForm? s.kind = some form) :
    (typeOfForm part form s).Tracks s (s.kind.alone * (form.rest * K)) K := by
  have hk := Vocabulary.typeForm?_eq_some.mp hform
  cases form with
  | primitive =>
    have hne : s.kind ≠ .eof := fun he => absurd (he ▸ hk) (by decide)
    obtain ⟨p, hp⟩ : ∃ p, s.kind.primitive? = some p := Option.isSome_iff_exists.mp
      ((by decide : ∀ k ∈ TypeForm.primitive.kinds, k.primitive?.isSome = true) s.kind hk)
    simp only [typeOfForm, primitiveType, hp, TypeForm.rest, one_mul]
    exact advance_tracks rfl hne
  | pointer =>
    rw [List.eq_of_mem_singleton hk]
    have hpointer : (pointerType part).TracksBelow (n + 1) (star.alone * (words .type * K)) K :=
      .expect_first fun _ => (hpart K).bind fun _ => enterType_tracks _
    exact hpointer s hlt
  | function =>
    rw [List.eq_of_mem_singleton hk]
    simp only [TypeForm.rest, mul_assoc]
    have hpart' (K : Language TokenKind) (hK : Following K) :
        part.TracksBelow n (words .type * K) K :=
      have := hK.hasWord
      hpart K
    have hfunction : (functionType part).TracksBelow (n + 1) (openBracket.alone *
        (words (.items .type) * (closeBracket.alone * (arrow.alone * (words .type * K))))) K :=
      .expect_first fun _ => (itemsBefore_tracks hs hpart'
        (fun _ _ => headD_ne_of_mem_type_mul rfl) rfl (by decide) (by decide)).bind fun _ =>
          .expect_bind fun _ => .expect_bind fun _ => (hpart K).bind fun _ => enterType_tracks _
    exact hfunction s hlt

theorem type_tracks [HasWord K] : (type .full).TracksBelow n (words .type * K) K := by
  induction n generalizing K with
  | zero => exact fun _ hs => nomatch hs
  | succ n ih =>
    intro s hlt
    rw [type_eq]
    unfold typeFrom
    cases hform : Vocabulary.full.typeForm? s.kind with
    | none => exact refuse_tracks fun v hv hA => headD_ne_of_mem_type_mul hform hA hv
    | some form =>
      have hne : s.kind ≠ .eof := fun he => nomatch he ▸ hform
      refine (typeOfForm_tracks (.type .full) (fun K _ => ih) hlt hform).of_kind rfl hne fun v => ?_
      rw [Category.cons_mem_type_mul]
      constructor
      · rintro ⟨form', hform', hv⟩
        obtain rfl := Option.some.inj (hform.symm.trans hform')
        exact hv
      · exact fun hv => ⟨form, hform, hv⟩

end Types

end Rule

end FrontEnd
