import FrontEnd.Grammar.Program
import FrontEnd.Proofs.Grammar.Continuation
import FrontEnd.Proofs.Grammar.Reading
import FrontEnd.Proofs.Token.Places

/-! A rule that succeeds has read what it stands for. It steps over the tokens of a phrase, enters
the types of its signatures, and leaves the rest of the state as it was. -/

namespace FrontEnd

/-- From `s` to `t` the tokens `w` were read and nothing was reported. -/
structure ParserState.Stretch (s : ParserState) (w : List Token) (t : ParserState) : Prop where
  tokens : s.tokens = w ++ t.tokens
  finish : t.finish = s.finish
  openBlocks : t.openBlocks = s.openBlocks
  reported : t.reported = s.reported
  types : s.types.Grows t.types
  reachable : s.types.Reachable → t.types.Reachable

namespace ParserState

theorem Stretch.refl (s : ParserState) : s.Stretch [] s :=
  ⟨rfl, rfl, rfl, rfl, .refl _, id⟩

theorem Stretch.trans {s t u : ParserState} {w v : List Token} (h : s.Stretch w t)
    (h' : t.Stretch v u) : s.Stretch (w ++ v) u :=
  ⟨by rw [h.tokens, h'.tokens, List.append_assoc], h'.finish.trans h.finish,
    h'.openBlocks.trans h.openBlocks, h'.reported.trans h.reported, h.types.trans h'.types,
    h'.reachable ∘ h.reachable⟩

theorem Stretch.of_eq {s t : ParserState} {w v : List Token} (h : s.Stretch w t) (he : w = v) :
    s.Stretch v t := he ▸ h

theorem Stretch.current_eq {s t : ParserState} {w v : List Token} {k : Token}
    (h : s.Stretch (w ++ k :: v) t) : s.current = w.headD k := by
  unfold current
  rw [h.tokens]
  cases w <;> rfl

theorem stretch_advance {s : ParserState} (h : s.kind ≠ .eof) :
    s.Stretch [s.current] s.advance := by
  refine ⟨?_, rfl, rfl, rfl, .refl _, id⟩
  cases hs : s.tokens with
  | nil => simp [kind, current, hs] at h
  | cons t ts => simp [current, advance, hs]

theorem stretch_enter (s : ParserState) (shape : TypeShape)
    (h : s.types.Reachable → (s.types.enter shape).2.Reachable) :
    s.Stretch [] { s with types := (s.types.enter shape).2 } :=
  ⟨rfl, rfl, rfl, rfl, TypeTable.grows_enter _ _, h⟩

theorem Stretch.exitBlock {s t : ParserState} {w : List Token} (h : s.enterBlock.Stretch w t) :
    s.Stretch w t.exitBlock :=
  ⟨h.tokens, h.finish, by simp [ParserState.exitBlock, h.openBlocks, enterBlock], h.reported,
    h.types, h.reachable⟩

end ParserState

namespace Rule

variable {α β : Type}

/-- Whatever the rule reads is related by `P` to the tokens that it steps over. -/
def Yields (r : Rule α) (P : TypeTable → List Token → α → Prop) : Prop :=
  ∀ ⦃s a t⦄, r s = .done a t → ∃ w, s.Stretch w t ∧ P t.types w a

/-- What the types of a table make true stays true when the table grows. -/
def Persistent (P : TypeTable → List Token → α → Prop) : Prop :=
  ∀ ⦃T T' w a⦄, T.Grows T' → P T w a → P T' w a

theorem persistent_reads (f : α → Node) : Persistent fun T w a => Reads T w (f a) :=
  fun _ _ _ _ hT h => h.mono hT

theorem of_bind_done {r : Rule α} {f : α → Rule β} {s u : ParserState} {b : β}
    (h : (r >>= f) s = .done b u) : ∃ a t, r s = .done a t ∧ f a t = .done b u := by
  rw [bind_apply] at h
  cases hr : r s with
  | done a t => rw [hr] at h; exact ⟨a, t, rfl, h⟩
  | failed d t => rw [hr] at h; exact nomatch h

theorem of_pure_done {a b : α} {s t : ParserState}
    (h : (Pure.pure a : Rule α) s = .done b t) : b = a ∧ t = s := by
  rw [pure_apply] at h
  injection h with ha hs
  exact ⟨ha.symm, hs.symm⟩

theorem of_advance_done {s u : ParserState} {t : Token} (hs : s.kind ≠ .eof)
    (h : advance s = .done t u) : t.kind = s.kind ∧ s.Stretch [t] u := by
  injection h with ht hu
  subst ht hu
  exact ⟨rfl, ParserState.stretch_advance hs⟩

theorem of_expect_done {k : TokenKind} {s u : ParserState} {t : Token} (hk : k ≠ .eof)
    (h : expect k s = .done t u) : t.kind = k ∧ s.Stretch [t] u := by
  unfold expect expectOr at h
  split at h
  next he =>
    rw [← he]
    exact of_advance_done (he ▸ hk) h
  next => exact nomatch h

theorem of_yields_bind {r : Rule α} {P : TypeTable → List Token → α → Prop} {f : α → Rule β}
    {s u : ParserState} {b : β} (hr : r.Yields P) (h : (r >>= f) s = .done b u) :
    ∃ a t w, s.Stretch w t ∧ P t.types w a ∧ f a t = .done b u := by
  obtain ⟨a, t, ha, hf⟩ := of_bind_done h
  obtain ⟨w, hw, hP⟩ := hr ha
  exact ⟨a, t, w, hw, hP, hf⟩

theorem of_expect_bind {k : TokenKind} {f : Token → Rule β} {s u : ParserState} {b : β}
    (hk : k ≠ .eof) (h : (expect k >>= f) s = .done b u) :
    ∃ t s', t.kind = k ∧ s.Stretch [t] s' ∧ f t s' = .done b u := by
  obtain ⟨t, s', ht, hf⟩ := of_bind_done h
  obtain ⟨ht, hs⟩ := of_expect_done hk ht
  exact ⟨t, s', ht, hs, hf⟩

theorem of_advanceIf_bind {k : TokenKind} {f : Bool → Rule β} {s u : ParserState} {b : β}
    (hk : k ≠ .eof) (h : (advanceIf k >>= f) s = .done b u) :
    f false s = .done b u ∨ ∃ t s', t.kind = k ∧ s.Stretch [t] s' ∧ f true s' = .done b u := by
  obtain ⟨more, s', hm, hf⟩ := of_bind_done h
  unfold advanceIf at hm
  split at hm
  next he =>
    injection hm with hb hs
    subst hb hs
    exact .inr ⟨s.current, s.advance, he, ParserState.stretch_advance (he ▸ hk), hf⟩
  next =>
    injection hm with hb hs
    subst hb hs
    exact .inl hf

theorem commaSeparated_yields {item : Rule α} {P : TypeTable → List Token → α → Prop}
    (hP : Persistent P) (h : item.Yields P) (n : Nat) :
    (commaSeparated item n).Yields fun T w as => ReadList (P T) w as ∧ as ≠ [] := by
  induction n with
  | zero =>
    intro s as u hs
    obtain ⟨a, t, w, hw, ha, ht⟩ := of_yields_bind h hs
    obtain ⟨rfl, rfl⟩ := of_pure_done ht
    exact ⟨w, hw, .singleton ha, by simp⟩
  | succ n ih =>
    intro s as u hs
    obtain ⟨a, s₁, w, hw, ha, hs₁⟩ := of_yields_bind h hs
    rcases of_advanceIf_bind (by decide) hs₁ with hs₂ | ⟨k, s₂, hk, hk', hs₂⟩
    · obtain ⟨rfl, rfl⟩ := of_pure_done hs₂
      exact ⟨w, hw, .singleton ha, by simp⟩
    · obtain ⟨bs, s₃, ws, hws, ⟨hl, hne⟩, hs₃⟩ := of_yields_bind ih hs₂
      obtain ⟨rfl, rfl⟩ := of_pure_done hs₃
      obtain ⟨b, cs, rfl⟩ := List.exists_cons_of_ne_nil hne
      refine ⟨w ++ k :: ws, ((hw.trans hk').trans hws).of_eq (by simp), ?_, by simp⟩
      exact .cons hk (hP (hk'.types.trans hws.types) ha) hl

theorem itemsBefore_yields {item : Rule α} {P : TypeTable → List Token → α → Prop}
    (hP : Persistent P) (h : item.Yields P) (close : TokenKind) :
    (itemsBefore close item).Yields fun T w as => ReadList (P T) w as := by
  intro s as t hs
  unfold itemsBefore at hs
  split at hs
  next =>
    injection hs with ha ht
    subst ha ht
    exact ⟨[], .refl s, .nil⟩
  next =>
    obtain ⟨w, hw, hl, _⟩ := commaSeparated_yields hP h _ hs
    exact ⟨w, hw, hl⟩

theorem primitiveType_yields : primitiveType.Yields fun T w t => Reads T w (.type t) := by
  intro s t u hs
  unfold primitiveType at hs
  split at hs
  next p hp =>
    injection hs with ht hu
    subst ht hu
    refine ⟨[s.current], ParserState.stretch_advance ?_, .primitive hp⟩
    intro he
    rw [he] at hp
    exact nomatch hp
  next => exact nomatch hs

theorem pointerType_yields {part : Rule TypeId} (h : part.Yields fun T w t => Reads T w (.type t)) :
    (pointerType part).Yields fun T w t => Reads T w (.type t) := by
  intro s t u hs
  obtain ⟨k, s₁, hk, h₁, hs₁⟩ := of_expect_bind (by decide) hs
  obtain ⟨target, s₂, w, h₂, hw, hs₂⟩ := of_yields_bind h hs₁
  injection hs₂ with ht hu
  subst ht hu
  have henter := ParserState.stretch_enter s₂ (.pointer target) fun hT =>
    .pointer hT (hw.index_lt hT)
  exact ⟨k :: w, ((h₁.trans h₂).trans henter).of_eq (by simp),
    .pointer hk (TypeTable.shape?_enter_self _ _) (hw.mono henter.types)⟩

theorem functionType_yields {part : Rule TypeId}
    (h : part.Yields fun T w t => Reads T w (.type t)) :
    (functionType part).Yields fun T w t => Reads T w (.type t) := by
  intro s t u hs
  obtain ⟨o, s₁, ho, h₁, hs₁⟩ := of_expect_bind (by decide) hs
  obtain ⟨as, s₂, w, h₂, hw, hs₂⟩ :=
    of_yields_bind (itemsBefore_yields (persistent_reads .type) h _) hs₁
  obtain ⟨c, s₃, hc, h₃, hs₃⟩ := of_expect_bind (by decide) hs₂
  obtain ⟨k, s₄, hk, h₄, hs₄⟩ := of_expect_bind (by decide) hs₃
  obtain ⟨r, s₅, v, h₅, hv, hs₅⟩ := of_yields_bind h hs₄
  injection hs₅ with ht hu
  subst ht hu
  have hgrow := (h₃.trans h₄).trans h₅
  have has := hw.types.mono hgrow.types
  have henter := ParserState.stretch_enter s₅ (.function as r) fun hT =>
    .function hT (has.index_lt_of_types hT) (hv.index_lt hT)
  exact ⟨o :: (w ++ c :: k :: v), (((h₁.trans h₂).trans hgrow).trans henter).of_eq (by simp),
    .function ho hc hk (TypeTable.shape?_enter_self _ _) (has.mono henter.types)
      (hv.mono henter.types)⟩

theorem typeWithin_yields (n : Nat) :
    (typeWithin .full n).Yields fun T w t => Reads T w (.type t) := by
  induction n with
  | zero => exact fun s t u hs => nomatch hs
  | succ n ih =>
    intro s t u hs
    unfold typeWithin at hs
    split at hs
    next form _ =>
      cases form with
      | primitive => exact primitiveType_yields hs
      | pointer => exact pointerType_yields ih hs
      | function => exact functionType_yields ih hs
    next => exact nomatch hs

theorem type_yields : (type .full).Yields fun T w t => Reads T w (.type t) :=
  fun s _ _ hs => typeWithin_yields s.tokens.length hs

theorem signature?_yields : (signature? .full).Yields fun T w g => Reads T w (.signature g) := by
  intro s g u hs
  rcases of_advanceIf_bind (by decide) hs with hs₁ | ⟨k, s₁, hk, h₁, hs₁⟩
  · obtain ⟨rfl, rfl⟩ := of_pure_done hs₁
    exact ⟨[], .refl _, .unsigned⟩
  · obtain ⟨t, s₂, w, h₂, hw, hs₂⟩ := of_yields_bind type_yields hs₁
    obtain ⟨rfl, rfl⟩ := of_pure_done hs₂
    exact ⟨k :: w, h₁.trans h₂, .signed hk hw⟩

theorem of_fitSignature_done {name : Token} {params : List Token} {g : Option TypeId}
    {s u : ParserState} (h : fitSignature name params g s = .done () u) :
    u = s ∧ s.types.Fits g params.length := by
  cases g with
  | none =>
    obtain ⟨_, rfl⟩ := of_pure_done h
    exact ⟨rfl, fun t ht => nomatch ht⟩
  | some t =>
    unfold fitSignature at h
    dsimp only at h
    split at h
    · exact nomatch h
    next as r hf =>
      split at h
      next hlen =>
        injection h with _ hu
        refine ⟨hu.symm, fun t' ht' => ⟨as, r, ?_, hlen⟩⟩
        rwa [← Option.mem_some.mp ht']
      next => exact nomatch h

theorem expect_name_yields : (expect .identifier).Yields fun _ => ReadName := by
  intro s t u hs
  obtain ⟨ht, h⟩ := of_expect_done (by decide) hs
  exact ⟨[t], h, rfl, ht⟩

theorem of_primary_done {s u : ParserState} {e : Expr} (h : primary s = .done e u) :
    s.kind ∈ TokenKind.literals ∧
      e = .leaf (exprSite s.current.place) .literal s.current ∧ u = s.advance := by
  unfold primary at h
  split at h
  case h_6 => exact nomatch h
  all_goals
    injection h with he hu
    exact ⟨by simp_all [TokenKind.literals], he.symm, hu.symm⟩

theorem primary_yields : primary.Yields fun T w e => Reads T w (.expr e) := by
  intro s e u hs
  obtain ⟨hk, rfl, rfl⟩ := of_primary_done hs
  exact ⟨[s.current], ParserState.stretch_advance fun he => absurd (he ▸ hk) (by decide),
    .literal hk⟩

theorem mem_of_lead?_prefixed {k : TokenKind} (h : Vocabulary.full.lead? k = some .prefixed) :
    k ∈ TokenKind.prefixOperators := by
  revert h
  cases k <;> decide

theorem mem_of_tail?_comparison {k : TokenKind} {bp : BindingPower}
    (h : Vocabulary.full.tail? k = some (bp, .comparison)) :
    k ∈ BinaryForm.comparison.operators := by
  revert h
  cases k <;> cases bp <;> decide

theorem mem_of_tail?_arithmetic {k : TokenKind} {bp : BindingPower}
    (h : Vocabulary.full.tail? k = some (bp, .arithmetic)) :
    k ∈ BinaryForm.arithmetic.operators := by
  revert h
  cases k <;> cases bp <;> decide

section Operand

variable {operand : Operand} (h : ∀ bp, (operand bp).Yields fun T w e => Reads T w (.expr e))
include h

theorem statement_yields : (statement operand).Yields fun T w a => Reads T w (.stmt a) := by
  intro s a u hs
  obtain ⟨e, s₁, w, h₁, hw, hs₁⟩ := of_yields_bind (h _) hs
  rcases of_advanceIf_bind (by decide) hs₁ with hs₂ | ⟨k, s₂, hk, h₂, hs₂⟩
  · obtain ⟨c, s₃, hc, h₃, hs₃⟩ := of_expect_bind (by decide) hs₂
    obtain ⟨rfl, rfl⟩ := of_pure_done hs₃
    exact ⟨w ++ [c], h₁.trans h₃, .evaluated hc (hw.mono h₃.types)⟩
  · cases hn : e.name? with
    | none => simp only [hn, if_true] at hs₂; exact nomatch hs₂
    | some n =>
      simp only [hn, if_true] at hs₂
      obtain ⟨value, s₃, v, h₃, hv, hs₃⟩ := of_yields_bind (h _) hs₂
      obtain ⟨c, s₄, hc, h₄, hs₄⟩ := of_expect_bind (by decide) hs₃
      obtain ⟨rfl, rfl⟩ := of_pure_done hs₄
      have hrest := (h₂.trans h₃).trans h₄
      exact ⟨w ++ k :: (v ++ [c]), (h₁.trans hrest).of_eq (by simp),
        .assigned hk hc hn (hw.mono hrest.types) (hv.mono h₄.types)⟩

theorem of_varDecl_done {s u : ParserState} {p : Position} {g : Option TypeId} {d : Decl}
    (hs : varDecl operand p g s = .done d u) :
    ∃ k n a v c e, s.Stretch (k :: n :: a :: (v ++ [c])) u ∧ d = .var (site p) n g e c.place ∧
      k.kind = .kwVar ∧ n.kind = .identifier ∧ a.kind = .assign ∧ c.kind = .semicolon ∧
      Reads u.types v (.expr e) := by
  obtain ⟨k, s₁, hk, h₁, hs₁⟩ := of_expect_bind (by decide) hs
  obtain ⟨n, s₂, hn, h₂, hs₂⟩ := of_expect_bind (by decide) hs₁
  obtain ⟨a, s₃, ha, h₃, hs₃⟩ := of_expect_bind (by decide) hs₂
  obtain ⟨e, s₄, v, h₄, hv, hs₄⟩ := of_yields_bind (h _) hs₃
  obtain ⟨c, s₅, hc, h₅, hs₅⟩ := of_expect_bind (by decide) hs₄
  obtain ⟨rfl, rfl⟩ := of_pure_done hs₅
  exact ⟨k, n, a, v, c, e, ((((h₁.trans h₂).trans h₃).trans h₄).trans h₅).of_eq (by simp), rfl,
    hk, hn, ha, hc, hv.mono h₅.types⟩

theorem of_fnDecl_done {s u : ParserState} {p : Position} {g : Option TypeId} {d : Decl}
    (hs : fnDecl operand p g s = .done d u) :
    ∃ k n o ps y c a v f e, s.Stretch (k :: n :: o :: (y ++ c :: a :: (v ++ [f]))) u ∧
      d = .fn (site p) n g ps e ∧ k.kind = .kwFun ∧ n.kind = .identifier ∧ o.kind = .openParen ∧
      c.kind = .closeParen ∧ a.kind = .assign ∧ f.kind = .semicolon ∧
      u.types.Fits g ps.length ∧ ReadList ReadName y ps ∧ Reads u.types v (.expr e) := by
  obtain ⟨k, s₁, hk, h₁, hs₁⟩ := of_expect_bind (by decide) hs
  obtain ⟨n, s₂, hn, h₂, hs₂⟩ := of_expect_bind (by decide) hs₁
  obtain ⟨o, s₃, ho, h₃, hs₃⟩ := of_expect_bind (by decide) hs₂
  obtain ⟨ps, s₄, y, h₄, hy, hs₄⟩ :=
    of_yields_bind (itemsBefore_yields (fun _ _ _ _ _ h => h) expect_name_yields _) hs₃
  obtain ⟨c, s₅, hc, h₅, hs₅⟩ := of_expect_bind (by decide) hs₄
  obtain ⟨_, s₆, hfit, hs₆⟩ := of_bind_done hs₅
  obtain ⟨rfl, hg⟩ := of_fitSignature_done hfit
  obtain ⟨a, s₇, ha, h₇, hs₇⟩ := of_expect_bind (by decide) hs₆
  obtain ⟨e, s₈, v, h₈, hv, hs₈⟩ := of_yields_bind (h _) hs₇
  obtain ⟨f, s₉, hf, h₉, hs₉⟩ := of_expect_bind (by decide) hs₈
  obtain ⟨rfl, rfl⟩ := of_pure_done hs₉
  have hhead := (((h₁.trans h₂).trans h₃).trans h₄).trans h₅
  have htail := (h₇.trans h₈).trans h₉
  exact ⟨k, n, o, ps, y, c, a, v, f, e, (hhead.trans htail).of_eq (by simp), rfl, hk, hn, ho, hc,
    ha, hf, hg.mono htail.types, hy, hv.mono h₉.types⟩

theorem declaration_yields :
    (declaration .full operand).Yields fun T w d => Reads T w (.decl d) := by
  intro s d u hs
  obtain ⟨g, s₂, w, h₂, hw, hs₂⟩ := of_yields_bind signature?_yields hs
  obtain ⟨t, s₃, ht, hs₃⟩ := of_bind_done hs₂
  injection ht with ht hs₀
  subst ht hs₀
  obtain ⟨r, hr, hs₄⟩ : ∃ r : Rule Decl, r = _ ∧ r s₂ = .done d u := ⟨_, rfl, hs₃⟩
  split at hr <;> subst hr
  next =>
    obtain ⟨k, n, a, v, c, e, h₃, rfl, hk, hn, ha, hc, hv⟩ := of_varDecl_done h hs₄
    have hall := h₂.trans h₃
    rw [hall.current_eq]
    exact ⟨_, hall, .var hk hn ha hc (hw.mono h₃.types) hv⟩
  next =>
    obtain ⟨k, n, o, ps, y, c, a, v, f, e, h₃, rfl, hk, hn, ho, hc, ha, hf, hg, hy, hv⟩ :=
      of_fnDecl_done h hs₄
    have hall := h₂.trans h₃
    rw [hall.current_eq]
    exact ⟨_, hall, .fn hk hn ho hc ha hf hg (hw.mono h₃.types) hy hv⟩
  next => exact nomatch hs₄

theorem blockItem_yields : (blockItem .full operand).Yields fun T w a => Reads T w (.stmt a) := by
  intro s a u hs
  unfold blockItem at hs
  split at hs
  next =>
    cases hd : declaration .full operand s with
    | failed _ _ => rw [hd] at hs; exact nomatch hs
    | done d t =>
      rw [hd] at hs
      injection hs with ha hu
      subst ha hu
      obtain ⟨w, hw, hr⟩ := declaration_yields h hd
      exact ⟨w, hw, .declared hr⟩
  next => exact statement_yields h hs

omit h in
theorem of_itemsWithin_done {item : Rule Stmt}
    (hi : item.Yields fun T w a => Reads T w (.stmt a)) {n : Nat} {s t : ParserState}
    {ss : List Stmt} (hs : itemsWithin item n s = .done (ss, false) t) :
    ∃ w c, s.Stretch (w ++ [c]) t ∧ c.kind = .closeCurly ∧ Reads t.types w (.stmts ss) := by
  induction n generalizing s ss with
  | zero => exact nomatch hs
  | succ n ih =>
    unfold itemsWithin at hs
    split at hs
    next hk =>
      injection hs with hss ht
      injection hss with hss _
      subst hss ht
      exact ⟨[], s.current, ParserState.stretch_advance (by simp [hk]), hk, .noStmt⟩
    next => cases hs
    next =>
      split at hs
      next a s₁ ha =>
        cases hr : itemsWithin item n s₁ with
        | failed _ _ => rw [hr] at hs; cases hs
        | done r t₁ =>
          obtain ⟨as, failed⟩ := r
          rw [hr] at hs
          injection hs with hss ht
          injection hss with hss hfailed
          subst hss ht hfailed
          obtain ⟨w, hw, ha⟩ := hi ha
          obtain ⟨v, c, hv, hc, has⟩ := ih hr
          exact ⟨w ++ v, c, (hw.trans hv).of_eq (by simp), hc, .moreStmts (ha.mono hv.types) has⟩
      next d s₁ _ =>
        cases hr : itemsWithin item n (s₁.report d).synchronize with
        | failed _ _ => rw [hr] at hs; cases hs
        | done r t₁ =>
          rw [hr] at hs
          injection hs with hss _
          injection hss with _ hfailed
          cases hfailed

theorem block_yields :
    (block .full operand).Yields fun T w b => ∃ o v c, w = o :: (v ++ [c]) ∧
      o.kind = .openCurly ∧ c.kind = .closeCurly ∧ b.2 = o.place ∧ Reads T v (.stmts b.1) := by
  intro s b u hs
  obtain ⟨o, s₁, ho, h₁, hs₁⟩ := of_expect_bind (by decide) hs
  split at hs₁
  next => exact nomatch hs₁
  next => exact nomatch hs₁
  next ss t ht =>
    injection hs₁ with hb hu
    subst hb hu
    obtain ⟨v, c, hv, hc, hr⟩ := of_itemsWithin_done (blockItem_yields h) ht
    exact ⟨_, h₁.trans hv.exitBlock, o, v, c, rfl, ho, hc, rfl, hr⟩

theorem exprOfLead_yields {s u : ParserState} {form : LeadForm} {e : Expr}
    (hform : Vocabulary.full.lead? s.kind = some form)
    (hs : exprOfLead .full operand form s = .done e u) :
    ∃ w, s.Stretch w u ∧ Reads u.types w (.expr e) := by
  cases form with
  | primary => exact primary_yields hs
  | prefixed =>
    have hk : s.kind ∈ TokenKind.prefixOperators := mem_of_lead?_prefixed hform
    obtain ⟨k, s₁, hk₁, hs₁⟩ := of_bind_done hs
    obtain ⟨hk₁, h₁⟩ := of_advance_done (fun he => absurd (he ▸ hk) (by decide)) hk₁
    obtain ⟨e, s₂, w, h₂, hw, hs₂⟩ := of_yields_bind (h _) hs₁
    obtain ⟨rfl, rfl⟩ := of_pure_done hs₂
    exact ⟨k :: w, h₁.trans h₂, .prefixed (hk₁ ▸ hk) hw⟩
  | grouping =>
    obtain ⟨o, s₁, ho, h₁, hs₁⟩ := of_expect_bind (by decide) hs
    obtain ⟨e, s₂, w, h₂, hw, hs₂⟩ := of_yields_bind (h _) hs₁
    obtain ⟨c, s₃, hc, h₃, hs₃⟩ := of_expect_bind (by decide) hs₂
    obtain ⟨rfl, rfl⟩ := of_pure_done hs₃
    exact ⟨o :: (w ++ [c]), ((h₁.trans h₂).trans h₃).of_eq (by simp),
      .group ho hc (hw.mono h₃.types)⟩
  | block =>
    obtain ⟨b, s₁, w, h₁, ⟨o, v, c, rfl, ho, hc, hp, hv⟩, hs₁⟩ :=
      of_yields_bind (block_yields h) hs
    obtain ⟨rfl, rfl⟩ := of_pure_done hs₁
    rw [hp]
    exact ⟨_, h₁, .block ho hc hv⟩
  | conditional =>
    obtain ⟨i, s₁, hi, h₁, hs₁⟩ := of_expect_bind (by decide) hs
    obtain ⟨c, s₂, w, h₂, hw, hs₂⟩ := of_yields_bind (h _) hs₁
    obtain ⟨k, s₃, hk, h₃, hs₃⟩ := of_expect_bind (by decide) hs₂
    obtain ⟨t, s₄, v, h₄, hv, hs₄⟩ := of_yields_bind (h _) hs₃
    have hthen := h₃.trans h₄
    rcases of_advanceIf_bind (by decide) hs₄ with hs₅ | ⟨l, s₅, hl, h₅, hs₅⟩
    · obtain ⟨rfl, rfl⟩ := of_pure_done hs₅
      exact ⟨i :: (w ++ k :: v), ((h₁.trans h₂).trans hthen).of_eq (by simp),
        .ifThen hi hk (hw.mono hthen.types) hv⟩
    · obtain ⟨e, s₆, x, h₆, hx, hs₆⟩ := of_yields_bind (h _) hs₅
      obtain ⟨rfl, rfl⟩ := of_pure_done hs₆
      have helse := h₅.trans h₆
      exact ⟨i :: (w ++ k :: (v ++ l :: x)),
        (((h₁.trans h₂).trans hthen).trans helse).of_eq (by simp),
        .ifElse hi hk hl (hw.mono (hthen.trans helse).types) (hv.mono helse.types) hx⟩
  | returned =>
    obtain ⟨k, s₁, hk, h₁, hs₁⟩ := of_expect_bind (by decide) hs
    obtain ⟨e, s₂, w, h₂, hw, hs₂⟩ := of_yields_bind (h _) hs₁
    obtain ⟨rfl, rfl⟩ := of_pure_done hs₂
    exact ⟨k :: w, h₁.trans h₂, .returned hk hw⟩
  | yielded =>
    obtain ⟨k, s₁, hk, h₁, hs₁⟩ := of_expect_bind (by decide) hs
    obtain ⟨e, s₂, w, h₂, hw, hs₂⟩ := of_yields_bind (h _) hs₁
    obtain ⟨rfl, rfl⟩ := of_pure_done hs₂
    exact ⟨k :: w, h₁.trans h₂, .yielded hk hw⟩

theorem binaryTail_yields {s u : ParserState} {form : BinaryForm} {l e : Expr} {bp : BindingPower}
    {w : List Token} (hk : s.kind ∈ form.operators) (hl : Reads s.types w (.expr l))
    (hs : binaryTail operand form l bp s = .done e u) :
    ∃ v, s.Stretch v u ∧ Reads u.types (w ++ v) (.expr e) := by
  obtain ⟨k, s₁, hk₁, hs₁⟩ := of_bind_done hs
  have heof : s.kind ≠ .eof := by
    intro he
    rw [he] at hk
    cases form <;> exact absurd hk (by decide)
  obtain ⟨hk₁, h₁⟩ := of_advance_done heof hk₁
  obtain ⟨r, s₂, v, h₂, hv, hs₂⟩ := of_yields_bind (h _) hs₁
  obtain ⟨rfl, rfl⟩ := of_pure_done hs₂
  have hall := h₁.trans h₂
  exact ⟨k :: v, hall, .binary (hk₁ ▸ hk) (hl.mono hall.types) hv⟩

theorem exprOfTail_yields {s u : ParserState} {form : TailForm} {l e : Expr}
    {bp : BindingPower} {w : List Token} (hform : Vocabulary.full.tail? s.kind = some (bp, form))
    (hl : Reads s.types w (.expr l)) (hs : exprOfTail operand l bp form s = .done e u) :
    ∃ v, s.Stretch v u ∧ Reads u.types (w ++ v) (.expr e) := by
  cases form with
  | comparison => exact binaryTail_yields h (mem_of_tail?_comparison hform) hl hs
  | arithmetic => exact binaryTail_yields h (mem_of_tail?_arithmetic hform) hl hs
  | call =>
    obtain ⟨o, s₁, ho, h₁, hs₁⟩ := of_expect_bind (by decide) hs
    obtain ⟨as, s₂, v, h₂, hv, hs₂⟩ :=
      of_yields_bind (itemsBefore_yields (persistent_reads .expr) (h _) _) hs₁
    obtain ⟨c, s₃, hc, h₃, hs₃⟩ := of_expect_bind (by decide) hs₂
    obtain ⟨rfl, rfl⟩ := of_pure_done hs₃
    have hall := (h₁.trans h₂).trans h₃
    exact ⟨o :: (v ++ [c]), hall.of_eq (by simp),
      .call ho hc (hl.mono hall.types) (hv.exprs.mono h₃.types)⟩

theorem tailsWithin_yields {n : Nat} {bp : BindingPower} {s u : ParserState} {l e : Expr}
    {w : List Token} (hl : Reads s.types w (.expr l))
    (hs : tailsWithin .full operand bp n l s = .done e u) :
    ∃ v, s.Stretch v u ∧ Reads u.types (w ++ v) (.expr e) := by
  induction n generalizing s l w with
  | zero =>
    obtain ⟨rfl, rfl⟩ := of_pure_done hs
    exact ⟨[], .refl _, by simpa using hl⟩
  | succ n ih =>
    have hstop (h : Reply.done l s = .done e u) :
        ∃ v, s.Stretch v u ∧ Reads u.types (w ++ v) (.expr e) := by
      injection h with he hu
      subst he hu
      exact ⟨[], .refl _, by simpa using hl⟩
    unfold tailsWithin at hs
    split at hs
    next p form hform =>
      split at hs
      next =>
        obtain ⟨l', s₁, hl', hs₁⟩ := of_bind_done hs
        obtain ⟨v, hv, hr⟩ := exprOfTail_yields h hform hl hl'
        obtain ⟨v', hv', hr'⟩ := ih hr hs₁
        exact ⟨v ++ v', hv.trans hv', by simpa using hr'⟩
      next => exact hstop hs
    next => exact hstop hs

end Operand

theorem exprWithin_yields (n : Nat) (bp : BindingPower) :
    (exprWithin .full n bp).Yields fun T w e => Reads T w (.expr e) := by
  induction n generalizing bp with
  | zero => exact fun s e u hs => nomatch hs
  | succ n ih =>
    intro s e u hs
    unfold exprWithin at hs
    split at hs
    next form hform =>
      obtain ⟨l, s₁, hl, hs₁⟩ := of_bind_done hs
      obtain ⟨w, hw, hr⟩ := exprOfLead_yields ih hform hl
      obtain ⟨v, hv, hr'⟩ := tailsWithin_yields ih hr hs₁
      exact ⟨w ++ v, hw.trans hv, hr'⟩
    next => exact nomatch hs

theorem expr_yields (bp : BindingPower) :
    (expr .full bp).Yields fun T w e => Reads T w (.expr e) :=
  fun s _ _ hs => exprWithin_yields s.tokens.length bp hs

theorem topLevel_yields : (topLevel .full).Yields fun T w d => Reads T w (.decl d) := by
  intro s d u hs
  unfold topLevel at hs
  split at hs
  next => exact declaration_yields expr_yields hs
  next => exact nomatch hs

theorem of_declarationsWithin {n : Nat} {s t : ParserState} {ds : List Decl}
    (hs : declarationsWithin .full n s = (ds, t)) (ht : t.reported = []) :
    ∃ w, s.Stretch w t ∧ Reads t.types w (.decls ds) ∧
      (s.tokens.length ≤ n → (∀ k ∈ s.tokens, k.kind ≠ .eof) → t.tokens = []) := by
  induction n generalizing s ds with
  | zero =>
    injection hs with hds hst
    subst hds hst
    exact ⟨[], .refl s, .noDecl, fun hn _ => List.eq_nil_of_length_eq_zero (by omega)⟩
  | succ n ih =>
    unfold declarationsWithin at hs
    split at hs
    next =>
      split at hs
      next d s₁ hd =>
        obtain ⟨w, hw, hr⟩ := topLevel_yields hd
        injection hs with hds hst
        subst hds
        obtain ⟨v, hv, hr', hend⟩ := ih (Prod.ext rfl hst)
        refine ⟨w ++ v, hw.trans hv, .moreDecls (hr.mono hv.types) hr', fun hn heof => ?_⟩
        have hlen := congrArg List.length hw.tokens
        have hpos := List.length_pos_iff.mpr hr.decl_ne_nil
        rw [List.length_append] at hlen
        exact hend (by omega) fun k hk => heof k (by simp [hw.tokens, hk])
      next d s₁ hd =>
        -- what was reported stays reported
        obtain ⟨ds, hds, _⟩ :=
          (continues_declarationsWithin .full n (s₁.report d).synchronize).reported
        rw [hs] at hds
        simp [ht, ParserState.synchronize, ParserState.report] at hds
    next heof =>
      injection hs with hds hst
      subst hds hst
      refine ⟨[], .refl s, .noDecl, fun _ hk => ?_⟩
      cases hts : s.tokens with
      | nil => rfl
      | cons k ks =>
        have : k.kind ≠ .eof := hk k (by simp [hts])
        simp [ParserState.hasTokens, ParserState.kind, ParserState.current, hts, this] at heof

end Rule

namespace Program

theorem reads_of_parse {source : String} {T T' : TypeTable} {p : Program}
    (h : parse source T = (.ok p, T')) :
    p.scope = none ∧ Reads T' (tokenize source).dropLast (.decls p.decls) ∧ T.Grows T' ∧
      (T.Reachable → T'.Reachable) := by
  unfold parse ofState at h
  obtain ⟨⟨ds, t⟩, hdt⟩ : ∃ r, Rule.declarations .full (.ofSource source T) = r := ⟨_, rfl⟩
  rw [hdt] at h
  dsimp only at h
  split at h
  next ht =>
    injection h with hp hT
    injection hp with hp
    subst hp hT
    obtain ⟨w, hw, hr, hend⟩ := Rule.of_declarationsWithin hdt ht
    have hnil := hend (Nat.le_refl _) fun k hk => kind_ne_eof_of_mem_tokenize hk
    have htokens := hw.tokens
    rw [hnil, List.append_nil] at htokens
    rw [← htokens] at hr
    exact ⟨rfl, hr, hw.types, hw.reachable⟩
  next => exact nomatch congrArg Prod.fst h

end Program

end FrontEnd
