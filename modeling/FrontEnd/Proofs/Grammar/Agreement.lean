import FrontEnd.Proofs.Grammar.Accepting
import FrontEnd.Proofs.Grammar.Chunk
import FrontEnd.Proofs.Grammar.Procedure

/-! Rules that do the same on what is left of a text. A rule that has read a token calls others only
in front of what is left, so what they do elsewhere does not matter to it. -/

namespace FrontEnd

variable {α β : Type} {ts us : List Token}

theorem tail_suffix_tail {ts us : List α} (h : us <:+ ts) : us.tail <:+ ts.tail := by
  obtain ⟨w, rfl⟩ := h
  cases w with
  | nil => exact List.suffix_rfl
  | cons k w => exact (List.tail_suffix us).trans (List.suffix_append w us)

namespace ParserState

variable {s t : ParserState}

/-- From `s` to `t` at least one token was consumed. -/
def Consumes (s t : ParserState) : Prop := ∃ w, w ≠ [] ∧ s.tokens = w ++ t.tokens

theorem tokens_ne_nil (h : s.kind ≠ .eof) : s.tokens ≠ [] := by
  intro hs
  exact h (by simp [kind, current, hs])

theorem ne_nil_of_kind (hs : s.tokens <:+ ts) (h : s.kind ≠ .eof) : ts ≠ [] := by
  rintro rfl
  exact tokens_ne_nil h (List.suffix_nil.mp hs)

theorem Consumes.suffix_tail (h : s.Consumes t) : t.tokens <:+ s.tokens.tail := by
  obtain ⟨w, hw, hs⟩ := h
  obtain ⟨k, v, rfl⟩ := List.exists_cons_of_ne_nil hw
  exact ⟨v, by rw [hs]; rfl⟩

theorem Consumes.tokens_ne_nil (h : s.Consumes t) : s.tokens ≠ [] := by
  obtain ⟨w, hw, hs⟩ := h
  rw [hs]
  exact List.append_ne_nil_of_left_ne_nil hw _

theorem Consumes.length_lt (h : s.Consumes t) : t.tokens.length < s.tokens.length := by
  obtain ⟨w, hw, hs⟩ := h
  have hpos := List.length_pos_iff.mpr hw
  rw [hs, List.length_append]
  omega

theorem consumes_of_suffix (h : t.tokens <:+ s.tokens)
    (hlt : t.tokens.length < s.tokens.length) : s.Consumes t := by
  obtain ⟨w, hw⟩ := h
  refine ⟨w, ?_, hw.symm⟩
  rintro rfl
  rw [← hw] at hlt
  exact Nat.lt_irrefl _ hlt

theorem consumes_advance (h : s.tokens ≠ []) : s.Consumes s.advance := by
  obtain ⟨k, w, hs⟩ := List.exists_cons_of_ne_nil h
  exact ⟨[k], List.cons_ne_nil _ _, by simp [advance, hs]⟩

theorem Consumes.continues {u : ParserState} (h : s.Consumes t) (h' : t.Continues u) :
    s.Consumes u := by
  obtain ⟨w, hw, hs⟩ := h
  obtain ⟨v, hv⟩ := h'.tokens
  exact ⟨w ++ v, List.append_ne_nil_of_left_ne_nil hw _, by rw [hs, ← hv, List.append_assoc]⟩

theorem Continues.consumes {u : ParserState} (h : s.Continues t) (h' : t.Consumes u) :
    s.Consumes u := by
  obtain ⟨w, hw⟩ := h.tokens
  obtain ⟨v, hv, ht⟩ := h'
  exact ⟨w ++ v, List.append_ne_nil_of_right_ne_nil _ hv, by rw [← hw, ht, List.append_assoc]⟩

theorem advance_suffix (h : s.tokens <:+ ts) : s.advance.tokens <:+ ts.tail := tail_suffix_tail h

end ParserState

theorem Reply.of_map_done {g : α → β} {x : Reply α} {b : β} {t : ParserState}
    (h : x.map g = .done b t) : ∃ a, x = .done a t := by
  cases x with
  | done a u => exact ⟨a, by rw [(Reply.done.inj h).2]⟩
  | failed d u => exact nomatch h

open ParserState

namespace Rule

theorem Steady.listBefore {items : Rule (List α)} (h : items.Steady) (close : TokenKind) :
    (Rule.listBefore close items).Steady := by
  intro s
  unfold Rule.listBefore
  split
  · exact .refl s
  · exact h s

section Consuming

/-- What the rule reads has a token at least. -/
def Consuming (r : Rule α) : Prop := ∀ ⦃s a t⦄, r s = .done a t → s.Consumes t

namespace Consuming

variable {r : Rule α} {f : α → Rule β} {operand : Operand}

theorem expect {k : TokenKind} (hk : k ≠ .eof) : Consuming (Rule.expect k) := by
  intro s a t h
  by_cases hs : s.kind = k
  · rw [expect_done hs] at h
    obtain ⟨rfl, rfl⟩ := Reply.done.inj h
    exact consumes_advance (ParserState.tokens_ne_nil (hs ▸ hk))
  · rw [expect_failed hs] at h
    exact nomatch h

theorem bind (hr : Consuming r) (hf : ∀ a, (f a).Steady) : Consuming (r >>= f) := by
  intro s b u h
  obtain ⟨a, t, ha, hb⟩ := of_bind_done h
  have hcontinues := hf a t
  rw [hb] at hcontinues
  exact (hr ha).continues hcontinues

theorem bind_right (hr : r.Steady) (hf : ∀ a, Consuming (f a)) : Consuming (r >>= f) := by
  intro s b u h
  obtain ⟨a, t, ha, hb⟩ := of_bind_done h
  have hcontinues := hr s
  rw [ha] at hcontinues
  exact hcontinues.consumes (hf a hb)

theorem semicolon (a : α) : Consuming (Rule.expect .semicolon >>= fun _ => Pure.pure a) :=
  (expect (by decide)).bind fun _ => .pure a

theorem statement (h : ∀ bp, (operand bp).Steady) : Consuming (Rule.statement operand) := by
  refine bind_right (h _) fun e => bind_right (.advanceIf _) fun assigned => ?_
  cases assigned with
  | false => exact semicolon _
  | true =>
    cases hname : e.name? with
    | none => exact fun s a t ht => nomatch ht
    | some n => exact bind_right (h _) fun _ => semicolon _

theorem varDecl (h : ∀ bp, (operand bp).Steady) (p : Position) (g : Option TypeId) :
    Consuming (Rule.varDecl operand p g) :=
  bind_right (.expect _) fun _ => bind_right (.expect _) fun _ => bind_right (.expect _) fun _ =>
    bind_right (h _) fun _ => (expect (by decide)).bind fun _ => .pure _

theorem fnDecl (h : ∀ bp, (operand bp).Steady) (p : Position) (g : Option TypeId) :
    Consuming (Rule.fnDecl operand p g) :=
  bind_right (.expect _) fun _ => bind_right (.expect _) fun _ => bind_right (.expect _) fun _ =>
    bind_right ((Steady.expect _).itemsBefore _) fun _ => bind_right (.expect _) fun _ =>
    bind_right (.fitSignature _ _ _) fun _ => bind_right (.expect _) fun _ =>
    bind_right (h _) fun _ => semicolon _

theorem declaration {v : Vocabulary} (h : ∀ bp, (operand bp).Steady) :
    Consuming (Rule.declaration v operand) := by
  refine bind_right .current fun start => bind_right (.signature? v) fun g =>
    bind_right .current fun t => ?_
  cases t.kind
  case kwVar => exact varDecl h _ _
  case kwFun => exact fnDecl h _ _
  all_goals exact fun s a u hu => nomatch hu

theorem blockItem {v : Vocabulary} (h : ∀ bp, (operand bp).Steady) :
    Consuming (Rule.blockItem v operand) := by
  intro s a t ha
  by_cases hs : v.declares s.kind
  · rw [Rule.blockItem, if_pos hs] at ha
    obtain ⟨d, hd⟩ := Reply.of_map_done ha
    exact declaration h hd
  · rw [Rule.blockItem, if_neg hs] at ha
    exact statement h ha

theorem topLevel (v : Vocabulary) : Consuming (Rule.topLevel v) := by
  intro s a t ha
  by_cases hs : v.declares s.kind
  · rw [Rule.topLevel, if_pos hs] at ha
    exact declaration (.expr v) ha
  · rw [Rule.topLevel, if_neg hs] at ha
    exact nomatch ha

theorem exprOfTail (h : ∀ bp, (operand bp).Steady) {form : TailForm} {bp : BindingPower}
    {left e : Expr} {s t : ParserState} (hs : s.kind ≠ .eof)
    (ht : Rule.exprOfTail operand left bp form s = .done e t) : s.Consumes t := by
  have hadvance := consumes_advance (ParserState.tokens_ne_nil hs)
  have hbinary {form : BinaryForm} (ht : binaryTail operand form left bp s = .done e t) :
      s.Consumes t := by
    have hrest := (h bp).bind (fun right => Steady.pure
      (Expr.binary (exprSite s.current.place) form s.current left right)) s.advance
    change (operand bp >>= _) s.advance = .done e t at ht
    rw [ht] at hrest
    exact hadvance.continues hrest
  cases form with
  | comparison => exact hbinary ht
  | arithmetic => exact hbinary ht
  | call =>
    have hcall : Consuming (callTail operand left) := (expect (by decide)).bind fun _ =>
      ((h _).itemsBefore _).bind fun _ => (Steady.expect _).bind fun _ => .pure _
    exact hcall ht

end Consuming

/-- A round of a loop that is not left consumes a token, even if it fails. -/
theorem Consuming.round {r : Rule α} {s : ParserState} (h : Consuming r) (hr : r.Steady)
    (hs : s.kind ≠ .eof) (hc : s.kind ≠ .closeCurly ∨ s.openBlocks = 0) :
    s.Consumes (Rule.round r s) := by
  have hcontinues := hr s
  unfold Rule.round
  cases hreply : r s with
  | done a t => exact h hreply
  | failed d t =>
    rw [hreply] at hcontinues
    obtain ⟨k, w, hw⟩ := List.exists_cons_of_ne_nil (ParserState.tokens_ne_nil hs)
    have hk : s.kind = k.kind := by simp [ParserState.kind, ParserState.current, hw]
    have htokens : (t.report d).synchronize.tokens = recover (0 < s.openBlocks) 0 t.tokens := by
      rw [← hcontinues.1.openBlocks]
      rfl
    have hsuffix := hcontinues.1.tokens
    refine consumes_of_suffix ?_ ?_
    · rw [htokens]
      exact (recover_suffix _ _ _).trans hsuffix
    · rw [hw] at hsuffix
      rw [htokens, hw]
      refine length_recover_lt_of_suffix hsuffix (hk ▸ hs) (hc.imp (hk ▸ ·) fun h0 => ?_)
      simp [h0]

end Consuming

/-- The two rules do the same wherever the tokens that are left are the last ones of `ts`. -/
def AgreeOn (ts : List Token) (r r' : Rule α) : Prop :=
  ∀ s : ParserState, s.tokens <:+ ts → r s = r' s

namespace AgreeOn

variable {r r' : Rule α} {f f' : α → Rule β}

theorem refl (r : Rule α) : AgreeOn ts r r := fun _ _ => rfl

theorem symm (h : AgreeOn ts r r') : AgreeOn ts r' r := fun s hs => (h s hs).symm

theorem trans {r'' : Rule α} (h : AgreeOn ts r r') (h' : AgreeOn ts r' r'') : AgreeOn ts r r'' :=
  fun s hs => (h s hs).trans (h' s hs)

theorem mono (h : AgreeOn ts r r') (hu : us <:+ ts) : AgreeOn us r r' :=
  fun s hs => h s (hs.trans hu)

theorem tail (h : AgreeOn ts r r') : AgreeOn ts.tail r r' := h.mono (List.tail_suffix ts)

theorem bind (h : AgreeOn ts r r') (hr : r'.Steady) (hf : ∀ a, AgreeOn ts (f a) (f' a)) :
    AgreeOn ts (r >>= f) (r' >>= f') := by
  intro s hs
  have hcontinues := hr s
  rw [bind_apply, bind_apply, h s hs]
  cases hreply : r' s with
  | done a t =>
    rw [hreply] at hcontinues
    exact hf a t (hcontinues.tokens.trans hs)
  | failed d t => rfl

theorem behind (hr : r.Steady) (hf : ∀ a, AgreeOn ts (f a) (f' a)) :
    AgreeOn ts (r >>= f) (r >>= f') := (refl r).bind hr hf

theorem advance_bind {f f' : Token → Rule β} (hf : ∀ k, AgreeOn ts.tail (f k) (f' k)) :
    AgreeOn ts (advance >>= f) (advance >>= f') :=
  fun s hs => hf s.current s.advance (advance_suffix hs)

theorem expect_bind {k : TokenKind} {f f' : Token → Rule β} (hk : k ≠ .eof)
    (hf : ts ≠ [] → ∀ t, AgreeOn ts.tail (f t) (f' t)) :
    AgreeOn ts (expect k >>= f) (expect k >>= f') := by
  intro s hs
  by_cases h : s.kind = k
  · have hne := ne_nil_of_kind hs (h ▸ hk)
    rw [bind_done f (expect_done h), bind_done f' (expect_done h)]
    exact hf hne s.current s.advance (advance_suffix hs)
  · rw [bind_failed f (expect_failed h), bind_failed f' (expect_failed h)]

theorem advanceIf_bind {k : TokenKind} {f f' : Bool → Rule β} (hk : k ≠ .eof)
    (ht : ts ≠ [] → AgreeOn ts.tail (f true) (f' true)) (hf : AgreeOn ts (f false) (f' false)) :
    AgreeOn ts (advanceIf k >>= f) (advanceIf k >>= f') := by
  intro s hs
  by_cases h : s.kind = k
  · have hne := ne_nil_of_kind hs (h ▸ hk)
    rw [bind_done f (advanceIf_done_true h), bind_done f' (advanceIf_done_true h)]
    exact ht hne s.advance (advance_suffix hs)
  · rw [bind_done f (advanceIf_done_false h), bind_done f' (advanceIf_done_false h)]
    exact hf s hs

theorem listBefore {items items' : Rule (List α)} (close : TokenKind)
    (h : AgreeOn ts items items') :
    AgreeOn ts (listBefore close items) (Rule.listBefore close items') := by
  intro s hs
  rw [Rule.listBefore, Rule.listBefore, h s hs]

theorem listOf {item item' : Rule α} {more more' : Rule (List α)} (hi : AgreeOn ts item item')
    (hs : item'.Steady) (hm : ts ≠ [] → AgreeOn ts.tail more more')
    (hm' : more'.Steady) : AgreeOn ts (listOf item more) (Rule.listOf item' more') :=
  hi.bind hs fun _ =>
    advanceIf_bind (by decide) (fun hne => (hm hne).bind hm' fun _ => .refl _) (.refl _)

theorem functionTypeOf {as as' : Rule (List TypeId)} {part part' : Rule TypeId}
    (has : ts ≠ [] → AgreeOn ts.tail as as') (hs : as'.Steady)
    (hpart : ts ≠ [] → AgreeOn ts.tail part part') (hs' : part'.Steady) :
    AgreeOn ts (functionTypeOf as part) (Rule.functionTypeOf as' part') :=
  expect_bind (by decide) fun hne _ => ((has hne).listBefore _).bind (hs.listBefore _) fun _ =>
    behind (.expect _) fun _ => behind (.expect _) fun _ => (hpart hne).bind hs' fun _ => .refl _

theorem pointerType {part part' : Rule TypeId} (h : ts ≠ [] → AgreeOn ts.tail part part')
    (hs : part'.Steady) : AgreeOn ts (pointerType part) (Rule.pointerType part') :=
  expect_bind (by decide) fun hne _ => (h hne).bind hs fun _ => .refl _

theorem typeFrom {v : Vocabulary} {of of' : TypeForm → Rule TypeId}
    (h : ts ≠ [] → ∀ form, AgreeOn ts (of form) (of' form)) :
    AgreeOn ts (typeFrom v of) (Rule.typeFrom v of') := by
  intro s hs
  unfold Rule.typeFrom
  cases hform : v.typeForm? s.kind with
  | none => rfl
  | some form =>
    have hkind : s.kind ≠ .eof := by
      intro he
      rw [he] at hform
      cases v <;> exact nomatch hform
    exact h (ne_nil_of_kind hs hkind) form s hs

theorem callOf {as as' : Rule (List Expr)} {callee : Expr}
    (h : ts ≠ [] → AgreeOn ts.tail as as') (hs : as'.Steady) :
    AgreeOn ts (callOf as callee) (Rule.callOf as' callee) :=
  expect_bind (by decide) fun hne _ =>
    ((h hne).listBefore _).bind (hs.listBefore _) fun _ => .refl _

theorem fnDeclOf {ps ps' : Rule (List Token)} {e e' : Rule Expr} {p : Position}
    {g : Option TypeId} (hps : ts ≠ [] → AgreeOn ts.tail ps ps') (hs : ps'.Steady)
    (he : AgreeOn ts.tail e e') (hs' : e'.Steady) :
    AgreeOn ts (fnDeclOf ps e p g) (Rule.fnDeclOf ps' e' p g) :=
  expect_bind (by decide) fun hne _ => behind (.expect _) fun _ => behind (.expect _) fun _ =>
    ((hps hne).listBefore _).bind (hs.listBefore _) fun _ => behind (.expect _) fun _ =>
    behind (.fitSignature _ _ _) fun _ => behind (.expect _) fun _ => he.bind hs' fun _ => .refl _

theorem declarationOf {type type' : Rule TypeId}
    {var var' fn fn' : Position → Option TypeId → Rule Decl}
    (ht : ts ≠ [] → AgreeOn ts.tail type type') (hs : type'.Steady)
    (hvar : ∀ p g, AgreeOn ts (var p g) (var' p g)) (hfn : ∀ p g, AgreeOn ts (fn p g) (fn' p g)) :
    AgreeOn ts (declarationOf type var fn) (Rule.declarationOf type' var' fn') := by
  have hsignature : AgreeOn ts (Rule.signatureOf type) (Rule.signatureOf type') :=
    advanceIf_bind (by decide) (fun hne => (ht hne).bind hs fun _ => .refl _) (.refl _)
  have hsteady : (Rule.signatureOf type').Steady :=
    (Steady.advanceIf _).bind fun _ => .ite (hs.bind fun _ => .pure _) (.pure _)
  refine behind .current fun start => hsignature.bind hsteady fun g => behind .current fun t => ?_
  cases t.kind
  case kwVar => exact hvar _ _
  case kwFun => exact hfn _ _
  all_goals exact .refl _

theorem itemOf {v : Vocabulary} {d d' : Rule Decl} {st st' : Rule Stmt} (hd : AgreeOn ts d d')
    (hst : AgreeOn ts st st') : AgreeOn ts (itemOf v d st) (Rule.itemOf v d' st') := by
  intro s hs
  rw [Rule.itemOf, Rule.itemOf, hd s hs, hst s hs]

theorem itemsFrom {item item' : Rule Stmt} {more more' : Rule (List Stmt × Bool)}
    (hi : AgreeOn ts item item') (hs : item'.Steady) (hc : Consuming item')
    (hm : ts ≠ [] → AgreeOn ts.tail more more') :
    AgreeOn ts (itemsFrom item more) (Rule.itemsFrom item' more') := by
  intro s hts
  have hmore {t : ParserState} (he : s.kind ≠ .eof) (hk : s.kind ≠ .closeCurly)
      (ht : Rule.round item' s = t) : more t = more' t := by
    have hconsumes := hc.round hs he (.inl hk)
    rw [ht] at hconsumes
    have hsuffix := hconsumes.suffix_tail.trans (advance_suffix hts)
    refine hm ?_ t hsuffix
    rintro rfl
    exact hconsumes.tokens_ne_nil (List.suffix_nil.mp hts)
  unfold Rule.itemsFrom
  rw [hi s hts]
  split
  · rfl
  · rfl
  next hk he =>
    unfold Rule.round at hmore
    cases hreply : item' s with
    | done st t =>
      rw [hreply] at hmore
      simp only [hmore he hk rfl]
    | failed d t =>
      rw [hreply] at hmore
      simp only [hmore he hk rfl]

theorem blockOf {items items' : Rule (List Stmt × Bool)}
    (h : ts ≠ [] → AgreeOn ts.tail items items') :
    AgreeOn ts (blockOf items) (Rule.blockOf items') := by
  refine expect_bind (by decide) fun hne brace s hs => ?_
  have hitems : items s.enterBlock = items' s.enterBlock := h hne s.enterBlock hs
  simp only [hitems]

theorem tailsOf {v : Vocabulary} {tail tail' : TailForm → BindingPower → Rule Expr}
    {more more' : Expr → Rule Expr} {bp : BindingPower} {left : Expr}
    (ht : ∀ form next, AgreeOn ts (tail form next) (tail' form next))
    (hc : ∀ form next {s e t}, s.kind ≠ .eof → tail' form next s = .done e t → s.Consumes t)
    (hm : ts ≠ [] → ∀ e, AgreeOn ts.tail (more e) (more' e)) :
    AgreeOn ts (tailsOf v tail more bp left) (Rule.tailsOf v tail' more' bp left) := by
  intro s hs
  unfold Rule.tailsOf
  cases hform : v.tail? s.kind with
  | none => rfl
  | some x =>
    obtain ⟨next, form⟩ := x
    have hkind : s.kind ≠ .eof := by
      intro he
      rw [he] at hform
      cases v <;> exact nomatch hform
    have hne := ne_nil_of_kind hs hkind
    by_cases hbp : bp < next
    · simp only [if_pos hbp]
      rw [bind_apply, bind_apply, ht form next s hs]
      cases hreply : tail' form next s with
      | failed d t => rfl
      | done e t =>
        have hsuffix := (hc form next hkind hreply).suffix_tail.trans (advance_suffix hs)
        exact hm hne e t hsuffix
    · simp only [if_neg hbp]

theorem exprOf {v : Vocabulary} {lead lead' : LeadForm → Rule Expr}
    {tails tails' : Expr → Rule Expr}
    (hl : ts ≠ [] → ∀ form, AgreeOn ts (lead form) (lead' form))
    (hs : ∀ form, (lead' form).Steady) (ht : ts ≠ [] → ∀ e, AgreeOn ts (tails e) (tails' e)) :
    AgreeOn ts (exprOf v lead tails) (Rule.exprOf v lead' tails') := by
  intro s hts
  unfold Rule.exprOf
  cases hform : v.lead? s.kind with
  | none => rfl
  | some form =>
    have hkind : s.kind ≠ .eof := by
      intro he
      rw [he] at hform
      cases v <;> exact nomatch hform
    have hne := ne_nil_of_kind hts hkind
    exact (hl hne form).bind (hs form) (ht hne) s hts

section Operand

variable {operand operand' : Operand} (hs : ∀ bp, (operand' bp).Steady)
include hs

theorem statement (h : ∀ bp, AgreeOn ts (operand bp) (operand' bp)) :
    AgreeOn ts (statement operand) (Rule.statement operand') := by
  refine (h _).bind (hs _) fun e => behind (.advanceIf _) fun assigned => ?_
  cases assigned with
  | false => exact .refl _
  | true =>
    cases hname : e.name? with
    | none => exact .refl _
    | some n => exact (h _).bind (hs _) fun _ => .refl _

variable (h : ∀ bp, AgreeOn ts.tail (operand bp) (operand' bp))
include h

theorem varDecl (p : Position) (g : Option TypeId) :
    AgreeOn ts (varDecl operand p g) (Rule.varDecl operand' p g) :=
  expect_bind (by decide) fun _ _ => behind (.expect _) fun _ => behind (.expect _) fun _ =>
    (h _).bind (hs _) fun _ => .refl _

theorem prefixed : AgreeOn ts (prefixed operand) (Rule.prefixed operand') :=
  advance_bind fun _ => (h _).bind (hs _) fun _ => .refl _

theorem grouping : AgreeOn ts (grouping operand) (Rule.grouping operand') :=
  expect_bind (by decide) fun _ _ => (h _).bind (hs _) fun _ => .refl _

theorem conditional : AgreeOn ts (conditional operand) (Rule.conditional operand') :=
  expect_bind (by decide) fun _ _ => (h _).bind (hs _) fun _ => behind (.expect _) fun _ =>
    (h _).bind (hs _) fun _ => advanceIf_bind (by decide)
      (fun _ => (h _).tail.bind (hs _) fun _ => .refl _) (.refl _)

theorem returned : AgreeOn ts (returned operand) (Rule.returned operand') :=
  expect_bind (by decide) fun _ _ => (h _).bind (hs _) fun _ => .refl _

theorem yielded : AgreeOn ts (yielded operand) (Rule.yielded operand') :=
  expect_bind (by decide) fun _ _ => (h _).bind (hs _) fun _ => .refl _

theorem binaryTail (form : BinaryForm) (left : Expr) (bp : BindingPower) :
    AgreeOn ts (binaryTail operand form left bp) (Rule.binaryTail operand' form left bp) :=
  advance_bind fun _ => (h _).bind (hs _) fun _ => .refl _

end Operand

end AgreeOn

end Rule

end FrontEnd
