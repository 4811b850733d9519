import FrontEnd.Proofs.Grammar.Accepting
import FrontEnd.Proofs.Grammar.Soundness
import FrontEnd.Proofs.Grammar.Spine

/-! No phrase of the language is refused. A rule for expressions may stop inside the phrase or build
another tree than the one derived, but what it leaves is what the rules around it go on with. -/

namespace FrontEnd.Rule

theorem typeWithin_refuses {k : TokenKind} (hk : Vocabulary.full.typeForm? k = none) (n : Nat) :
    (typeWithin .full n).Refuses k := by
  intro s hs t u h
  cases n with
  | zero => exact nomatch h
  | succ n =>
    unfold typeWithin at h
    simp only [hs, hk] at h
    cases h

theorem primitiveType_accepts {k : TokenKind} (hk : k ∈ TokenKind.primitives)
    (rest : List TokenKind) : primitiveType.Accepts [k] rest := by
  intro s hs
  obtain ⟨p, hp⟩ := Option.isSome_iff_exists.mp
    ((by decide : ∀ k ∈ TokenKind.primitives, k.primitive?.isSome) k hk)
  refine ⟨TypeTable.primitive p, s.advance, ?_, ParserState.kinds_advance hs, trivial⟩
  simp only [primitiveType, ParserState.kind_of_kinds_cons hs, hp]

theorem typeWithin_accepts_of_form {n : Nat} {k : TokenKind} {w rest : List TokenKind}
    {Q : TypeId → ParserState → Prop} (form : TypeForm)
    (hk : Vocabulary.full.typeForm? k = some form)
    (h : (typeOfForm (typeWithin .full n) form).AcceptsAs (k :: w) rest Q) :
    (typeWithin .full (n + 1)).AcceptsAs (k :: w) rest Q := by
  intro s hs
  obtain ⟨t, u, ht, hu⟩ := h s hs
  refine ⟨t, u, ?_, hu⟩
  unfold typeWithin
  simp only [ParserState.kind_of_kinds_cons hs, hk, ht]

theorem functionType_accepts {n m : Nat} {w rest : List TokenKind}
    (h : ∀ {w rest}, Phrase.type.Derives w → w.length ≤ n → (typeWithin .full n).Accepts w rest)
    (hw : (Phrase.functionType m).Derives w) (hn : w.length ≤ n + 1) :
    (typeWithin .full (n + 1)).AcceptsAs w rest fun t u => u.types.Fits (some t) m := by
  cases hw with
  | @arrow _ as r has hr =>
    simp only [List.length_cons, List.length_append] at hn
    refine typeWithin_accepts_of_form .function rfl (.expect_bind fun _ =>
      (itemsBefore_accepts (fun hw hl _ => h hw (Nat.le_trans hl (by omega)))
        (typeWithin_refuses rfl n) has (Nat.le_refl _) (by decide)
        (.cons rfl (by decide) _)).bind fun as _ has => .expect_bind fun _ => .expect_bind fun _ =>
          (h hr (by omega)).bind_last fun r _ _ s hs => ⟨_, _, rfl, hs, ?_⟩)
    intro t ht
    obtain rfl := Option.some.inj ht
    exact ⟨as, r, TypeTable.function?_eq_some.mpr (TypeTable.shape?_enter_self _ _), has⟩

theorem typeWithin_accepts {n : Nat} {w rest : List TokenKind} (hw : Phrase.type.Derives w)
    (hn : w.length ≤ n) : (typeWithin .full n).Accepts w rest := by
  induction n generalizing w rest with
  | zero => cases hw with | function hw => cases hw; simp at hn | _ => simp at hn
  | succ n ih =>
    cases hw with
    | @primitive k hk =>
      have hform := (by decide : ∀ k ∈ TokenKind.primitives,
        Vocabulary.full.typeForm? k = some .primitive) k hk
      exact typeWithin_accepts_of_form .primitive hform (primitiveType_accepts hk rest)
    | pointer hw =>
      simp only [List.length_cons] at hn
      exact typeWithin_accepts_of_form .pointer rfl (.expect_bind fun _ =>
        (ih hw (by omega)).bind_last fun _ _ _ _ hs => ⟨_, _, rfl, hs, trivial⟩)
    | function hw => exact (functionType_accepts ih hw hn).mono fun _ _ _ => trivial

theorem signature?_accepts {w rest : List TokenKind} {P : TypeId → ParserState → Prop}
    {Q : Option TypeId → ParserState → Prop}
    (h : (Rule.type .full).AcceptsAs w rest P) (hQ : ∀ t s, P t s → Q (some t) s) :
    (signature? .full).AcceptsAs (.kwOf :: w) rest Q := by
  refine .advanceIf_true fun s hs => ?_
  obtain ⟨t, u, ht, hu, hP⟩ := h s hs
  exact ⟨some t, u, bind_done _ ht, hu, hQ t u hP⟩

theorem varSignature_accepts {w rest : List TokenKind} (hw : Phrase.varSignature.Derives w) :
    (signature? .full).Accepts w (.kwVar :: rest) := by
  cases hw with
  | untypedVar => exact .advanceIf_false (by decide) rfl (.pure fun _ => trivial)
  | typedVar hw =>
    exact signature?_accepts (.of_tokens fun _ hn => typeWithin_accepts hw hn) fun _ _ _ => trivial

theorem fnSignature_accepts {m : Nat} {w rest : List TokenKind}
    (hw : (Phrase.fnSignature m).Derives w) :
    (signature? .full).AcceptsAs w (.kwFun :: rest) fun g t => t.types.Fits g m := by
  cases hw with
  | untypedFn => exact .advanceIf_false (by decide) rfl (.pure fun _ _ hg => nomatch hg)
  | @typedFn _ w hw =>
    refine signature?_accepts (.of_tokens fun n hn => ?_) fun _ _ h => h
    cases n with
    | zero => cases hw; simp at hn
    | succ n => exact functionType_accepts (fun hw hn => typeWithin_accepts hw hn) hw hn

/-- No operator at the beginning of `w` binds tighter than `bp`. -/
def Stops (bp : BindingPower) (w : List TokenKind) : Prop :=
  ∀ k ∈ w.head?, ∀ p form, Vocabulary.full.tail? k = some (p, form) → ¬ bp < p

/-- The operand reads every expression of at most `n` tokens that it can meet. It may leave a part
of it, which then goes on behind an operand, and no operator there is one it should have taken. -/
structure Complete (operand : Operand) (n : Nat) : Prop where
  reads {bp : BindingPower} {m : Nat} {w rest : List TokenKind} (hbp : bp < .call) :
    Phrase.Spine (.operand m) w → w.length ≤ n → Closed rest → (operand bp).Leaves w rest
      fun v => Phrase.Spine (.behind m) v ∧ v.length < w.length ∧ Stops bp v
  target {bp : BindingPower} {w rest : List TokenKind} : Phrase.target.Derives w →
    w.length ≤ n → Closed rest → (operand bp).AcceptsAs w rest fun e _ => e.name?.isSome
  refuses {bp : BindingPower} {k : TokenKind} : Vocabulary.full.lead? k = none →
    (operand bp).Refuses k

theorem tail?_binary {k : TokenKind} (hk : k ∈ TokenKind.binaryOperators) :
    ∃ p form, Vocabulary.full.tail? k = some (p, form) ∧ BindingPower.lowest < p ∧ p < .call ∧
      (form = .comparison ∨ form = .arithmetic) := by
  have h := (by decide : ∀ k ∈ TokenKind.binaryOperators,
    ∃ p ∈ [BindingPower.equality, .relational, .additive, .multiplicative],
      ∃ form ∈ [TailForm.comparison, .arithmetic], Vocabulary.full.tail? k = some (p, form) ∧
        BindingPower.lowest < p ∧ p < .call ∧ (form = .comparison ∨ form = .arithmetic)) k hk
  obtain ⟨p, _, form, _, h⟩ := h
  exact ⟨p, form, h⟩

/-- What stands behind an operand and is left although it may be taken begins with an `else`. -/
theorem of_stops {m : Nat} {v : List TokenKind} (h : Phrase.Spine (.behind m) v)
    (hv : Stops .lowest v) :
    v = [] ∨ ∃ l w, m = l + 1 ∧ v = .kwElse :: w ∧ Phrase.Spine (.operand l) w := by
  cases h with
  | finish => exact .inl rfl
  | binary hk _ =>
    obtain ⟨p, form, htail, hp, _⟩ := tail?_binary hk
    exact absurd hp (hv _ rfl p form htail)
  | call _ _ => exact absurd (by decide) (hv _ rfl .call .call rfl)
  | otherwise h => exact .inr ⟨_, _, rfl, rfl, h⟩

theorem Complete.accepts {operand : Operand} {n : Nat} (h : Complete operand n)
    {w rest : List TokenKind} (hw : Phrase.expr.Derives w) (hn : w.length ≤ n)
    (hrest : Closed rest) : (operand .lowest).Accepts w rest := by
  refine Leaves.accepts ((h.reads (by decide) hw.spine hn hrest).mono fun v hv => ?_)
  obtain ⟨hspine, _, hstops⟩ := hv
  rcases of_stops hspine hstops with rfl | ⟨l, _, hl, _⟩
  · rfl
  · exact nomatch hl

theorem name_accepts {w rest : List TokenKind} (hw : Phrase.name.Derives w) :
    (expect .identifier).Accepts w rest := by
  cases hw
  exact expect_accepts

theorem varDecl_accepts {operand : Operand} {e rest : List TokenKind}
    (he : (operand .lowest).Accepts e (.semicolon :: rest)) (p : Position) (g : Option TypeId) :
    (varDecl operand p g).Accepts
      (.kwVar :: .identifier :: .assign :: (e ++ [.semicolon])) rest :=
  .expect_bind fun _ => .expect_bind fun _ => .expect_bind fun _ =>
    .bind (v := [.semicolon]) he fun _ _ _ => .expect_bind fun _ => .pure fun _ => trivial

theorem fitSignature_done {name : Token} {params : List Token} {g : Option TypeId}
    {s : ParserState} (hg : s.types.Fits g params.length) :
    fitSignature name params g s = .done () s := by
  cases g with
  | none => rfl
  | some t =>
    obtain ⟨as, r, hf, hn⟩ := hg t rfl
    simp only [fitSignature, hf, hn, if_true]

/-- The signature is read before the parameters and fitted behind them. -/
theorem fnDecl_accepts {operand : Operand} {n : Nat} {ps e rest : List TokenKind}
    {g : Option TypeId} {s : ParserState} (hps : (Phrase.items .name n).Derives ps)
    (he : (operand .lowest).Accepts e (.semicolon :: rest)) (p : Position)
    (hg : s.types.Fits g n) (hs : s.kinds = .kwFun :: .identifier :: .openParen ::
      (ps ++ .closeParen :: .assign :: (e ++ .semicolon :: rest))) :
    ∃ d t, fnDecl operand p g s = .done d t ∧ t.kinds = rest := by
  have h₁ := ParserState.kinds_advance hs
  have h₂ := ParserState.kinds_advance h₁
  obtain ⟨params, t, hparams, ht, rfl⟩ :=
    itemsBefore_accepts (fun hw _ _ => name_accepts hw) (expect_refuses (by decide)) hps
      (Nat.le_refl _) (by decide) (.cons rfl (by decide) _) s.advance.advance.advance
      (ParserState.kinds_advance h₂)
  obtain ⟨_, hstretch, _⟩ :=
    itemsBefore_yields (fun _ _ _ _ _ h => h) expect_name_yields _ hparams
  have hfit : t.advance.types.Fits g params.length := hg.mono hstretch.types
  have hbody : AcceptsAs (do
      let _ ← expect .assign
      let body ← operand .lowest
      let _ ← expect .semicolon
      return Decl.fn (site p) s.advance.current g params body)
      (.assign :: (e ++ [.semicolon])) rest fun _ _ => True :=
    .expect_bind fun _ => .bind (v := [.semicolon]) he fun _ _ _ =>
      .expect_bind fun _ => .pure fun _ => trivial
  obtain ⟨d, u, hd, hu, _⟩ := hbody t.advance (by simpa using ParserState.kinds_advance ht)
  refine ⟨d, u, ?_, hu⟩
  unfold fnDecl
  rw [bind_done _ (expect_done (ParserState.kind_of_kinds_cons hs)),
    bind_done _ (expect_done (ParserState.kind_of_kinds_cons h₁)),
    bind_done _ (expect_done (ParserState.kind_of_kinds_cons h₂)), bind_done _ hparams,
    bind_done _ (expect_done (ParserState.kind_of_kinds_cons ht)),
    bind_done _ (fitSignature_done hfit), hd]

theorem declaration_accepts {operand : Operand} {n : Nat} (h : Complete operand n)
    {w rest : List TokenKind} (hw : Phrase.decl.Derives w) (hn : w.length ≤ n) :
    (declaration .full operand).Accepts w rest := by
  intro s hs
  unfold declaration
  rw [bind_done _ (rfl : current s = .done s.current s)]
  cases hw with
  | @var t e ht he =>
    simp only [List.length_append, List.length_cons] at hn
    obtain ⟨g, u, hg, hu, _⟩ :=
      varSignature_accepts ht s (by rw [hs, List.append_assoc, List.cons_append])
    have he := h.accepts he (by omega) (.cons (k := .semicolon) rfl (by decide) rest)
    obtain ⟨d, x, hd, hx⟩ := varDecl_accepts he s.current.place g u hu
    have hk : u.current.kind = .kwVar := ParserState.kind_of_kinds_cons hu
    refine ⟨d, x, ?_, hx⟩
    rw [bind_done _ hg, bind_done _ (rfl : current u = .done u.current u), hk]
    exact hd
  | @fn m t ps e ht hps he =>
    simp only [List.length_append, List.length_cons] at hn
    obtain ⟨g, u, hg, hu, hfits⟩ :=
      fnSignature_accepts ht s (by rw [hs, List.append_assoc, List.cons_append])
    have he := h.accepts he (by omega) (.cons (k := .semicolon) rfl (by decide) rest)
    obtain ⟨d, x, hd, hx⟩ :=
      fnDecl_accepts hps he s.current.place hfits (by simpa using hu)
    have hk : u.current.kind = .kwFun := ParserState.kind_of_kinds_cons hu
    refine ⟨d, x, ?_, hx, trivial⟩
    rw [bind_done _ hg, bind_done _ (rfl : current u = .done u.current u), hk]
    exact hd

theorem declares_of_decl {w : List TokenKind} (hw : Phrase.decl.Derives w) :
    ∃ k v, w = k :: v ∧ Vocabulary.full.declares k := by
  cases hw with
  | var ht _ => cases ht <;> exact ⟨_, _, rfl, rfl⟩
  | fn ht _ _ => cases ht <;> exact ⟨_, _, rfl, rfl⟩

theorem length_pos_of_stmt {w : List TokenKind} (hw : Phrase.stmt.Derives w) :
    0 < w.length := by
  cases hw with
  | declared hw =>
    obtain ⟨k, v, rfl, _⟩ := declares_of_decl hw
    simp
  | evaluated _ | assigned _ _ =>
    simp only [List.length_append, List.length_cons]
    omega

theorem evaluated_accepts {operand : Operand} {e rest : List TokenKind}
    (he : (operand .lowest).Accepts e (.semicolon :: rest)) :
    (statement operand).Accepts (e ++ [.semicolon]) rest :=
  .bind (v := [.semicolon]) he fun _ _ _ =>
    .advanceIf_false (by decide) rfl (.expect_bind fun _ => .pure fun _ => trivial)

theorem assigned_accepts {operand : Operand} {l e rest : List TokenKind}
    (hl : (operand .lowest).AcceptsAs l (.assign :: (e ++ .semicolon :: rest))
      fun e _ => e.name?.isSome)
    (he : (operand .lowest).Accepts e (.semicolon :: rest)) :
    (statement operand).Accepts (l ++ .assign :: (e ++ [.semicolon])) rest := by
  refine .bind (v := .assign :: (e ++ [.semicolon])) (by simpa using hl) fun a _ ha =>
    .advanceIf_true ?_
  obtain ⟨name, hname⟩ := Option.isSome_iff_exists.mp ha
  simp only [hname]
  exact .bind (v := [.semicolon]) he fun _ _ _ => .expect_bind fun _ => .pure fun _ => trivial

theorem blockItem_accepts_of_statement {operand : Operand} {n : Nat} (h : Complete operand n)
    {w rest : List TokenKind} (hw : (statement operand).Accepts w rest) :
    (blockItem .full operand).Accepts w rest := by
  intro s hs
  have hdeclares : Vocabulary.full.declares s.kind = false := by
    rw [Bool.eq_false_iff]
    intro hd
    have hlead := (by decide : ∀ k ∈ [TokenKind.kwOf, .kwVar, .kwFun],
      Vocabulary.full.lead? k = none) s.kind (by simpa [Vocabulary.declares, or_assoc] using hd)
    exact hw.kind_ne hs ((h.refuses hlead).bind _) rfl
  obtain ⟨a, t, ha, ht⟩ := hw s hs
  refine ⟨a, t, ?_, ht⟩
  rw [blockItem, hdeclares, ← ha]
  rfl

theorem blockItem_accepts {operand : Operand} {n : Nat} (h : Complete operand n)
    {w rest : List TokenKind} (hw : Phrase.stmt.Derives w) (hn : w.length ≤ n) :
    (blockItem .full operand).Accepts w rest := by
  cases hw with
  | declared hw =>
    intro s hs
    obtain ⟨d, t, hd, ht⟩ := declaration_accepts h hw hn s hs
    obtain ⟨k, v, rfl, hk⟩ := declares_of_decl hw
    refine ⟨.decl (site d.place) d, t, ?_, ht⟩
    rw [blockItem, ParserState.kind_of_kinds_cons hs, hk, hd]
    rfl
  | evaluated hw =>
    rw [List.length_append] at hn
    exact blockItem_accepts_of_statement h
      (evaluated_accepts (h.accepts hw (by omega) (.cons rfl (by decide) rest)))
  | assigned hl he =>
    simp only [List.length_append, List.length_cons] at hn
    exact blockItem_accepts_of_statement h
      (assigned_accepts (h.target hl (by omega) (.cons rfl (by decide) _))
        (h.accepts he (by omega) (.cons rfl (by decide) rest)))

theorem blockItem_refuses {operand : Operand} {n : Nat} (h : Complete operand n) {k : TokenKind}
    (hd : Vocabulary.full.declares k = false) (hk : Vocabulary.full.lead? k = none) :
    (blockItem .full operand).Refuses k := by
  intro s hs a t ha
  rw [blockItem, hs, hd] at ha
  exact (h.refuses hk).bind _ s hs a t ha

theorem itemsWithin_accepts {operand : Operand} {n l : Nat} (h : Complete operand n)
    {w rest : List TokenKind} (hw : Phrase.stmts.Derives w) (hn : w.length ≤ n)
    (hl : w.length < l) :
    (itemsWithin (blockItem .full operand) l).AcceptsAs (w ++ [.closeCurly]) rest
      fun a _ => a.2 = false := by
  induction l generalizing w with
  | zero => omega
  | succ l ih =>
    intro s hs
    cases hw with
    | noStmt =>
      refine ⟨([], false), s.advance, ?_, ParserState.kinds_advance hs, rfl⟩
      simp only [itemsWithin, ParserState.kind_of_kinds_cons hs]
    | @moreStmts v ws hv hws =>
      rw [List.length_append] at hn hl
      have haccepts : (blockItem .full operand).Accepts v (ws ++ .closeCurly :: rest) :=
        blockItem_accepts h hv (by omega)
      have hs : s.kinds = v ++ (ws ++ .closeCurly :: rest) := by simpa using hs
      have hclose := haccepts.kind_ne hs (blockItem_refuses h (k := .closeCurly) rfl rfl)
      have heof := haccepts.kind_ne hs (blockItem_refuses h (k := .eof) rfl rfl)
      obtain ⟨a, t, ha, ht, _⟩ := haccepts s hs
      have hpos := length_pos_of_stmt hv
      obtain ⟨⟨as, failed⟩, u, has, hu, rfl⟩ := ih hws (by omega) (by omega) t (by simpa using ht)
      refine ⟨(a :: as, false), u, ?_, hu, rfl⟩
      unfold itemsWithin
      split
      · contradiction
      · contradiction
      · simp only [ha, has]
        rfl

theorem block_accepts {operand : Operand} {n : Nat} (h : Complete operand n)
    {w rest : List TokenKind} (hw : Phrase.stmts.Derives w) (hn : w.length ≤ n) :
    (block .full operand).Accepts (.openCurly :: (w ++ [.closeCurly])) rest := by
  refine .expect_bind fun brace s hs => ?_
  have hl : w.length < s.tokens.length := by
    rw [← s.kinds_length, hs]
    simp only [List.length_append, List.length_singleton]
    omega
  obtain ⟨⟨as, failed⟩, t, has, ht, rfl⟩ := itemsWithin_accepts h hw hn hl s.enterBlock hs
  refine ⟨(as, brace.place), t.exitBlock, ?_, ht, trivial⟩
  simp only [has]

theorem arguments_accept {operand : Operand} {n m : Nat} (h : Complete operand n)
    {w rest : List TokenKind} (hw : (Phrase.items .expr m).Derives w) (hn : w.length ≤ n)
    (left : Expr) :
    (callTail operand left).Accepts (.openParen :: (w ++ [.closeParen])) rest := by
  have has : (itemsBefore .closeParen (operand .lowest)).AcceptsAs w (.closeParen :: rest) _ :=
    itemsBefore_accepts (fun hw hl hrest => h.accepts hw (Nat.le_trans hl hn) hrest)
      (h.refuses rfl) hw (Nat.le_refl _) (by decide) (.cons rfl (by decide) rest)
  exact .expect_bind fun _ => .bind (v := [.closeParen]) has fun _ _ _ =>
    .expect_bind fun _ => .pure fun _ => trivial

theorem Closed.tail?_eq_none {rest : List TokenKind} (hrest : Closed rest) {s : ParserState}
    (hs : s.kinds = rest) : Vocabulary.full.tail? s.kind = none := by
  cases rest with
  | nil => rw [ParserState.kind_of_kinds_nil hs]; rfl
  | cons k rest =>
    rw [ParserState.kind_of_kinds_cons hs]
    exact (hrest k rfl).1

theorem tailsWithin_done {operand : Operand} {l : Nat} {bp : BindingPower} {left : Expr}
    {s : ParserState}
    (h : ∀ p form, Vocabulary.full.tail? s.kind = some (p, form) → ¬ bp < p) :
    tailsWithin .full operand bp l left s = .done left s := by
  cases l with
  | zero => rfl
  | succ l =>
    unfold tailsWithin
    split
    next p form htail => rw [if_neg (h p form htail)]
    next => rfl

theorem binaryTail_leaves {operand : Operand} {n m : Nat} (h : Complete operand n)
    {bp : BindingPower} (hbp : bp < .call) {k : TokenKind} {w rest : List TokenKind}
    (form : BinaryForm) (left : Expr) (hw : Phrase.Spine (.operand m) w) (hn : w.length ≤ n)
    (hrest : Closed rest) :
    (binaryTail operand form left bp).Leaves (k :: w) rest
      fun v => Phrase.Spine (.behind m) v ∧ v.length < w.length := by
  refine .of_accepts_bind (w := [k]) advance_accepts fun operator => ?_
  exact (h.reads hbp hw hn hrest).bind fun right v hv => .pure ⟨hv.1, hv.2.1⟩

theorem stops_or_taken (bp : BindingPower) (w : List TokenKind) :
    Stops bp w ∨
      ∃ k v p form, w = k :: v ∧ Vocabulary.full.tail? k = some (p, form) ∧ bp < p := by
  cases w with
  | nil => exact .inl fun k hk => nomatch hk
  | cons k v =>
    cases htail : Vocabulary.full.tail? k with
    | none =>
      refine .inl fun l hl p form hp => ?_
      obtain rfl := Option.some.inj hl
      exact nomatch htail.symm.trans hp
    | some tail =>
      obtain ⟨p, form⟩ := tail
      by_cases hp : bp < p
      · exact .inr ⟨k, v, p, form, rfl, htail, hp⟩
      · refine .inl fun l hl q form' hq => ?_
        obtain rfl := Option.some.inj hl
        obtain ⟨rfl, _⟩ := Prod.mk.inj (Option.some.inj (htail.symm.trans hq))
        exact hp

/-- What is taken behind an operand is an operator with another operand, or the arguments of a
call. -/
theorem exprOfTail_leaves {operand : Operand} {n m : Nat} (h : Complete operand n)
    {k : TokenKind} {p : BindingPower} {form : TailForm} {w rest : List TokenKind} (left : Expr)
    (hw : Phrase.Spine (.behind m) (k :: w)) (hn : w.length ≤ n)
    (hk : Vocabulary.full.tail? k = some (p, form)) (hrest : Closed rest) :
    (exprOfTail operand left p form).Leaves (k :: w) rest
      fun v => Phrase.Spine (.behind m) v ∧ v.length ≤ w.length := by
  cases hw with
  | binary hbinary hw =>
    obtain ⟨q, form', htail, _, hcall, hform⟩ := tail?_binary hbinary
    obtain ⟨rfl, rfl⟩ := Prod.mk.inj (Option.some.inj (hk.symm.trans htail))
    rcases hform with rfl | rfl
    · exact (binaryTail_leaves h hcall .comparison left hw hn hrest).mono
        fun v hv => ⟨hv.1, Nat.le_of_lt hv.2⟩
    · exact (binaryTail_leaves h hcall .arithmetic left hw hn hrest).mono
        fun v hv => ⟨hv.1, Nat.le_of_lt hv.2⟩
  | @call _ _ as v has hv =>
    obtain ⟨rfl, rfl⟩ := Prod.mk.inj (Option.some.inj hk)
    rw [List.length_append, List.length_cons] at hn
    have haccepts : (callTail operand left).Accepts _ (v ++ rest) :=
      arguments_accept h has (by omega) left
    have hleaves := Leaves.of_accepts (Q := fun x => Phrase.Spine (.behind m) x ∧
      x.length ≤ (as ++ .closeParen :: v).length) haccepts ⟨hv, by simp; omega⟩
    simpa [exprOfTail] using hleaves
  | otherwise hw => exact nomatch hk

/-- Every operator that is taken leaves what goes on behind an operand. -/
theorem tailsWithin_leaves {operand : Operand} {n l m : Nat} (h : Complete operand n)
    (bp : BindingPower) {w rest : List TokenKind} (left : Expr)
    (hw : Phrase.Spine (.behind m) w) (hn : w.length ≤ n) (hl : w.length ≤ l)
    (hrest : Closed rest) :
    (tailsWithin .full operand bp l left).Leaves w rest
      fun v => Phrase.Spine (.behind m) v ∧ v.length ≤ w.length ∧ Stops bp v := by
  induction l generalizing w left with
  | zero =>
    obtain rfl := List.length_eq_zero_iff.mp (Nat.le_zero.mp hl)
    exact .pure ⟨hw, Nat.le_refl _, fun k hk => nomatch hk⟩
  | succ l ih =>
    intro s hs
    rcases stops_or_taken bp w with hstops | ⟨k, v, p, form, rfl, htail, hp⟩
    · refine ⟨left, s, w, tailsWithin_done fun p form htail => ?_, hs, hw, Nat.le_refl _, hstops⟩
      cases w with
      | nil => exact nomatch (hrest.tail?_eq_none hs).symm.trans htail
      | cons k v => exact hstops k rfl p form (ParserState.kind_of_kinds_cons hs ▸ htail)
    · rw [List.length_cons] at hn hl
      have htaken := exprOfTail_leaves h left hw (Nat.le_of_lt hn) htail hrest
      have hleaves : (exprOfTail operand left p form >>= tailsWithin .full operand bp l).Leaves
          (k :: v) rest
          fun y => Phrase.Spine (.behind m) y ∧ y.length ≤ (k :: v).length ∧ Stops bp y :=
        htaken.bind fun e x hx => (ih e hx.1 (by omega) (by omega)).mono fun y hy =>
          ⟨hy.1, Nat.le_trans hy.2.1 (Nat.le_succ_of_le hx.2), hy.2.2⟩
      obtain ⟨e, t, y, he, ht⟩ := hleaves s hs
      refine ⟨e, t, y, ?_, ht⟩
      unfold tailsWithin
      simp only [ParserState.kind_of_kinds_cons hs, htail, if_pos hp, he]

theorem tails_leaves {operand : Operand} {n m : Nat} (h : Complete operand n)
    (bp : BindingPower) {w rest : List TokenKind} (left : Expr)
    (hw : Phrase.Spine (.behind m) w) (hn : w.length ≤ n) (hrest : Closed rest) :
    (tails .full operand bp left).Leaves w rest
      fun v => Phrase.Spine (.behind m) v ∧ v.length ≤ w.length ∧ Stops bp v := by
  intro s hs
  exact tailsWithin_leaves h bp left hw hn (ParserState.length_le_tokens hs) hrest s hs

theorem Closed.kind_ne_else {rest : List TokenKind} (hrest : Closed rest) {s : ParserState}
    (hs : s.kinds = rest) : s.kind ≠ .kwElse := by
  cases rest with
  | nil => rw [ParserState.kind_of_kinds_nil hs]; decide
  | cons k rest =>
    rw [ParserState.kind_of_kinds_cons hs]
    exact (hrest k rfl).2

/-- An `else` that comes next belongs to the condition that was just read. -/
theorem conditional_leaves {operand : Operand} {n m : Nat} (h : Complete operand n)
    {c w rest : List TokenKind} (hc : Phrase.expr.Derives c)
    (hw : Phrase.Spine (.operand (m + 1)) w) (hcn : c.length ≤ n) (hn : w.length ≤ n)
    (hrest : Closed rest) :
    (conditional operand).Leaves (.kwIf :: (c ++ .kwThen :: w)) rest
      fun v => Phrase.Spine (.behind m) v ∧ v.length < w.length := by
  refine .of_accepts_bind (w := [_]) expect_accepts fun start => ?_
  have hc := h.accepts hc hcn (.cons (k := .kwThen) rfl (by decide) (w ++ rest))
  refine .of_accepts_bind hc fun condition => .of_accepts_bind (w := [_]) expect_accepts fun _ => ?_
  refine (h.reads (by decide) hw hn hrest).bind fun thenBranch v hv s hs => ?_
  obtain ⟨hspine, hlt, hstops⟩ := hv
  rcases of_stops hspine hstops with rfl | ⟨l, x, hl, rfl, hx⟩
  · rw [bind_done _ (advanceIf_done_false (hrest.kind_ne_else hs))]
    exact ⟨_, s, [], rfl, hs, .finish, hlt⟩
  · obtain rfl := Nat.succ.inj hl
    rw [bind_done _ (advanceIf_done_true (ParserState.kind_of_kinds_cons hs))]
    rw [List.length_cons] at hlt
    have helse : (operand .lowest).Leaves x rest _ := h.reads (by decide) hx (by omega) hrest
    refine helse.bind (Q := fun v => Phrase.Spine (.behind m) v ∧ v.length < w.length)
      (fun elseBranch y hy => .pure ⟨hy.1, ?_⟩) s.advance (ParserState.kinds_advance hs)
    exact Nat.lt_trans hy.2.1 (by omega)

/-- The first operand of an expression, whatever its form, is read as far as something follows that
goes on behind it. -/
theorem exprOfLead_leaves {operand : Operand} {n m : Nat} (h : Complete operand n)
    {k : TokenKind} {w rest : List TokenKind} (hw : Phrase.Spine (.operand m) (k :: w))
    (hn : w.length ≤ n) (hrest : Closed rest) :
    ∃ form, Vocabulary.full.lead? k = some form ∧
      (exprOfLead .full operand form).Leaves (k :: w) rest
        fun v => Phrase.Spine (.behind m) v ∧ v.length ≤ w.length := by
  cases hw with
  | literal hk hw =>
    have hlead := (by decide : ∀ k ∈ TokenKind.literals,
      Vocabulary.full.lead? k = some .primary) k hk
    refine ⟨.primary, hlead, fun s hs => ?_⟩
    have hs' := ParserState.kind_of_kinds_cons hs
    exact ⟨_, s.advance, w, primary_done (hs' ▸ hk), ParserState.kinds_advance hs, hw,
      Nat.le_refl _⟩
  | @group _ e v he hv =>
    rw [List.length_append, List.length_cons] at hn
    refine ⟨.grouping, rfl, .of_accepts_bind (w := [_]) expect_accepts fun _ => ?_⟩
    have he := h.accepts he (by omega) (.cons (k := .closeParen) rfl (by decide) (v ++ rest))
    refine .of_accepts_bind he fun e => .of_accepts_bind (w := [_]) expect_accepts fun _ => .pure ?_
    exact ⟨hv, by rw [List.length_append, List.length_cons]; omega⟩
  | @block _ ss v hss hv =>
    rw [List.length_append, List.length_cons] at hn
    refine ⟨.block, rfl, ?_⟩
    have hblock : (block .full operand).Accepts _ (v ++ rest) := block_accepts h hss (by omega)
    have hleaves : (blockExpr .full operand).Leaves
        (.openCurly :: (ss ++ [.closeCurly]) ++ v) rest
        fun x => Phrase.Spine (.behind m) x ∧ x.length ≤ (ss ++ .closeCurly :: v).length := 
      .of_accepts_bind hblock fun _ => .pure ⟨hv, by simp; omega⟩
    simpa [exprOfLead] using hleaves
  | @condition _ c w hc hw =>
    rw [List.length_append, List.length_cons] at hn
    refine ⟨.conditional, rfl, ?_⟩
    refine (conditional_leaves h hc hw (by omega) (by omega) hrest).mono fun v hv => ⟨hv.1, ?_⟩
    have hlt := hv.2
    rw [List.length_append, List.length_cons]
    omega
  | returned hw =>
    refine ⟨.returned, rfl, .of_accepts_bind (w := [_]) expect_accepts fun _ => ?_⟩
    exact (h.reads (by decide) hw hn hrest).bind fun _ v hv =>
      .pure ⟨hv.1, Nat.le_of_lt hv.2.1⟩
  | yielded hw =>
    refine ⟨.yielded, rfl, .of_accepts_bind (w := [_]) expect_accepts fun _ => ?_⟩
    exact (h.reads (by decide) hw hn hrest).bind fun _ v hv =>
      .pure ⟨hv.1, Nat.le_of_lt hv.2.1⟩
  | prefixed hk hw =>
    have hlead := (by decide : ∀ k ∈ TokenKind.prefixOperators,
      Vocabulary.full.lead? k = some .prefixed) k hk
    refine ⟨.prefixed, hlead, .of_accepts_bind (w := [_]) advance_accepts fun _ => ?_⟩
    exact (h.reads (by decide) hw hn hrest).bind fun _ v hv =>
      .pure ⟨hv.1, Nat.le_of_lt hv.2.1⟩

theorem exprWithin_lead {n : Nat} {bp : BindingPower} {form : LeadForm} {s : ParserState}
    (h : Vocabulary.full.lead? s.kind = some form) :
    exprWithin .full (n + 1) bp s =
      (exprOfLead .full (exprWithin .full n) form >>= tails .full (exprWithin .full n) bp) s := by
  conv => lhs; unfold exprWithin
  simp only [h]

theorem exprOfLead_accepts_target {operand : Operand} {n : Nat} (h : Complete operand n)
    {k : TokenKind} {w : List TokenKind} (rest : List TokenKind)
    (hw : Phrase.target.Derives (k :: w)) (hn : w.length ≤ n) :
    ∃ form, Vocabulary.full.lead? k = some form ∧
      (exprOfLead .full operand form).AcceptsAs (k :: w) rest fun e _ => e.name?.isSome := by
  cases hw with
  | bare =>
    refine ⟨.primary, rfl, fun s hs => ?_⟩
    have hk := ParserState.kind_of_kinds_cons hs
    refine ⟨_, s.advance, primary_done (by rw [hk]; decide), ParserState.kinds_advance hs, ?_⟩
    have hk : s.current.kind = .identifier := hk
    simp only [Expr.name?, hk, if_true, Option.isSome_some]
  | wrapped hl =>
    rw [List.length_append] at hn
    refine ⟨.grouping, rfl, .expect_bind fun _ => ?_⟩
    exact .bind (v := [_])
      (h.target hl (by omega) (.cons (k := .closeParen) rfl (by decide) rest)) fun e _ he =>
        .expect_bind fun _ => .pure fun _ => he

theorem complete_exprWithin (n : Nat) : Complete (exprWithin .full n) n := by
  induction n with
  | zero =>
    refine ⟨fun _ hw hn => ?_, fun hw hn => ?_, fun _ _ _ _ _ h => nomatch h⟩
    · cases hw <;> exact nomatch hn
    · cases hw <;> exact nomatch hn
  | succ n ih =>
    refine ⟨fun {bp m w rest} _ hw hn hrest => ?_, fun {bp w rest} hw hn hrest => ?_, ?_⟩
    · intro s hs
      obtain ⟨k, v, rfl⟩ := hw.exists_cons
      rw [List.length_cons] at hn
      obtain ⟨form, hform, hlead⟩ := exprOfLead_leaves ih hw (by omega) hrest
      rw [exprWithin_lead (ParserState.kind_of_kinds_cons hs ▸ hform)]
      refine hlead.bind (fun e x hx => ?_) s hs
      have htails := tails_leaves ih bp e hx.1 (by omega) hrest
      exact htails.mono fun y hy => ⟨hy.1, by rw [List.length_cons]; omega, hy.2.2⟩
    · intro s hs
      obtain ⟨k, v, rfl⟩ := hw.exists_cons
      rw [List.length_cons] at hn
      obtain ⟨form, hform, hlead⟩ := exprOfLead_accepts_target ih rest hw (by omega)
      rw [exprWithin_lead (ParserState.kind_of_kinds_cons hs ▸ hform)]
      refine hlead.bind_last (fun e _ he t ht => ?_) s hs
      refine ⟨e, t, tailsWithin_done fun p form hp => ?_, ht, he⟩
      exact nomatch (hrest.tail?_eq_none ht).symm.trans hp
    · intro bp k hk s hs e t he
      unfold exprWithin at he
      rw [hs, hk] at he
      cases he

theorem complete_expr (n : Nat) : Complete (expr .full) n where
  reads hbp hw _ hrest s hs :=
    (complete_exprWithin _).reads hbp hw (ParserState.length_le_tokens hs) hrest s hs
  target hw _ hrest s hs :=
    (complete_exprWithin _).target hw (ParserState.length_le_tokens hs) hrest s hs
  refuses hk s := (complete_exprWithin s.tokens.length).refuses hk s

theorem topLevel_accepts {w rest : List TokenKind} (hw : Phrase.decl.Derives w) :
    (topLevel .full).Accepts w rest := by
  intro s hs
  obtain ⟨d, t, hd, ht⟩ := declaration_accepts (complete_expr w.length) hw (Nat.le_refl _) s hs
  obtain ⟨k, v, rfl, hk⟩ := declares_of_decl hw
  refine ⟨d, t, ?_, ht⟩
  rw [topLevel, ParserState.kind_of_kinds_cons hs, if_pos hk, hd]

theorem declarationsWithin_accepts {n : Nat} {w : List TokenKind} (hw : Phrase.program.Derives w)
    (hn : w.length ≤ n) {s : ParserState} (hs : s.kinds = w) :
    (declarationsWithin .full n s).2.reported = s.reported := by
  induction n generalizing w s with
  | zero => rfl
  | succ n ih =>
    cases hw with
    | noDecl =>
      have hend : s.hasTokens = false := by
        rw [ParserState.hasTokens, ParserState.kind_of_kinds_nil hs]
        rfl
      simp [declarationsWithin, hend]
    | @moreDecls v ws hv hws =>
      obtain ⟨k, x, rfl, hk⟩ := declares_of_decl hv
      obtain ⟨d, t, hd, ht, _⟩ := topLevel_accepts hv s hs
      obtain ⟨_, hstretch, _⟩ := topLevel_yields hd
      rw [List.length_append, List.length_cons] at hn
      have htokens : s.hasTokens := by
        rw [ParserState.hasTokens, ParserState.kind_of_kinds_cons hs]
        revert hk
        cases k <;> decide
      unfold declarationsWithin
      rw [if_pos htokens, hd]
      exact (ih hws (by omega) ht).trans hstretch.reported

theorem declarations_accepts {s : ParserState} (hs : Phrase.program.Derives s.kinds) :
    (declarations .full s).2.reported = s.reported :=
  declarationsWithin_accepts hs (Nat.le_of_eq s.kinds_length) rfl

end FrontEnd.Rule
