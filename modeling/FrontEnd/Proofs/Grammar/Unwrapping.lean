import FrontEnd.Proofs.Grammar.Roundtrip

/-! Written expressions are read back. An operand in parentheses ends at its own closing one, so at
most one operator is left to be taken behind it. -/

namespace FrontEnd.Rule

variable {T U : TypeTable} {l k : Letter} {w v rest : List Letter} {n : Nat}

theorem exprWithin_rebuilds_of_lead {bp : BindingPower} {form : LeadForm}
    {Q : TypeTable → Expr → Prop} (hw : w.head? = some l)
    (hform : Vocabulary.full.lead? l.1 = some form)
    (h : RebuildsFrom U
      (exprOfLead .full (exprWithin .full n) form >>= tails .full (exprWithin .full n) bp)
      w rest Q) :
    RebuildsFrom U (exprWithin .full (n + 1) bp) w rest Q := by
  intro s hs hT
  obtain ⟨v, rfl⟩ := List.head?_eq_some_iff.mp hw
  obtain ⟨_, hkind, _⟩ := ParserState.of_letters_cons hs
  rw [exprWithin_lead (hkind ▸ hform)]
  exact h s hs hT

section Tails

variable {operand : Operand} {bp : BindingPower} {e : Expr} {Q : TypeTable → Expr → Prop}

theorem tailsWithin_rebuilds_nothing (hl : Vocabulary.full.tail? l.1 = none)
    (h : ∀ V, U.Grows V → Q V e) (m : Nat) :
    RebuildsFrom U (tailsWithin .full operand bp m e) [] (l :: rest) Q := by
  intro s hs hT
  obtain ⟨_, hkind, _⟩ := ParserState.of_letters_cons hs
  refine ⟨e, s, tailsWithin_done fun p form htail => ?_, hs, .refl _, rfl, h _ hT⟩
  rw [hkind, hl] at htail
  cases htail

theorem tails_rebuilds_nothing (hl : Vocabulary.full.tail? l.1 = none)
    (h : ∀ V, U.Grows V → Q V e) :
    RebuildsFrom U (tails .full operand bp e) [] (l :: rest) Q :=
  .of_tokens fun m _ => tailsWithin_rebuilds_nothing hl h m

theorem tails_rebuilds_one {p : BindingPower} {form : TailForm}
    (hk : Vocabulary.full.tail? k.1 = some (p, form)) (hp : bp < p)
    (hl : Vocabulary.full.tail? l.1 = none) (hQ : ∀ V V' e, V.Grows V' → Q V e → Q V' e)
    (h : RebuildsFrom U (exprOfTail operand e p form) (k :: v) (l :: rest) Q) :
    RebuildsFrom U (tails .full operand bp e) (k :: v) (l :: rest) Q := by
  refine .of_tokens (r := fun m => tailsWithin .full operand bp m e) fun m hm => ?_
  intro s hs hT
  obtain ⟨_, hkind, _⟩ := ParserState.of_letters_cons hs
  obtain ⟨m, rfl⟩ : ∃ n, m = n + 1 := ⟨m - 1, by rw [List.length_cons] at hm; omega⟩
  unfold tailsWithin
  simp only [hkind, hk, if_pos hp]
  exact h.bind_last (fun e' V _ he' =>
    tailsWithin_rebuilds_nothing hl (fun X hX => hQ V X e' hX he') m) s hs hT

end Tails

theorem exprOfTail_binary {form : BinaryForm} {k : TokenKind} (hk : k ∈ form.operators) :
    ∃ p tail, Vocabulary.full.tail? k = some (p, tail) ∧ BindingPower.lowest < p ∧
      ∀ operand left, exprOfTail operand left p tail = binaryTail operand form left p := by
  cases form with
  | comparison =>
    obtain ⟨p, _, htail, hp⟩ := (by decide : ∀ k ∈ BinaryForm.comparison.operators,
      ∃ p ∈ [BindingPower.equality, .relational],
        Vocabulary.full.tail? k = some (p, .comparison) ∧ BindingPower.lowest < p) k hk
    exact ⟨p, .comparison, htail, hp, fun _ _ => rfl⟩
  | arithmetic =>
    obtain ⟨p, _, htail, hp⟩ := (by decide : ∀ k ∈ BinaryForm.arithmetic.operators,
      ∃ p ∈ [BindingPower.additive, .multiplicative],
        Vocabulary.full.tail? k = some (p, .arithmetic) ∧ BindingPower.lowest < p) k hk
    exact ⟨p, .arithmetic, htail, hp, fun _ _ => rfl⟩

theorem primary_rebuilds {operand : Operand} {p : Position} {t : Token} (ht : t.IsLiteral) :
    RebuildsFrom U (exprOfLead .full operand .primary) [t.letter] rest
      fun V e' => Rebuilt T V (.expr (.leaf (exprSite p) .literal t)) (.expr e') := by
  intro s hs _
  obtain ⟨hletter, hkind, hadvance⟩ := ParserState.of_letters_cons hs
  have hliteral : s.kind ∈ TokenKind.literals := by
    rw [hkind]
    exact ht.mem_literals
  exact ⟨_, s.advance, primary_done hliteral, hadvance, .refl _, rfl,
    .leaf ⟨⟨trivial, rfl⟩, .none⟩ (Token.like_of_letter hletter)⟩

section Operand

variable {operand : Operand} (hT : T.Reachable) (h : Rebuilds T operand n)
include hT h

theorem grouping_rebuilds {e : Expr} (he : Node.Writable T (.expr e))
    (hU : TypeTable.initial.Grows U) (hn : (lettersOf T (inParens e.words)).length ≤ n + 1) :
    RebuildsFrom U (grouping operand) (lettersOf T (inParens e.words)) rest
      fun V e' => Rebuilt T V (.expr e) (.expr e') := by
  rw [lettersOf_inParens] at hn ⊢
  rw [List.length_cons, List.length_append] at hn
  exact .expect_bind rfl fun _ _ => (h.bare he hU (by omega) rfl (by decide)).bind
    fun _ _ _ he' => .expect_bind rfl fun _ _ => .pure fun _ hX => rebuilt_mono hT hX he'

theorem prefixed_rebuilds {p : Position} {k : Token} {e : Expr} (he : Node.Writable T (.expr e))
    (hU : TypeTable.initial.Grows U) (hn : (lettersOf T (inParens e.words)).length ≤ n)
    (hl : Vocabulary.full.tail? l.1 = none) :
    RebuildsFrom U (prefixed operand) (k.letter :: lettersOf T (inParens e.words)) (l :: rest)
      fun V e' => Rebuilt T V (.expr (.unary (exprSite p) k e)) (.expr e') :=
  .advance_bind fun _ hk' => (h.wrapped he hU hn hl).bind_last fun _ _ _ he' =>
    .pure fun _ hX => .unary ⟨⟨trivial, rfl⟩, .none⟩ (Token.like_of_letter hk')
      (rebuilt_mono hT hX he')

theorem binaryTail_rebuilds {p : Position} {form : BinaryForm} {k : Token} {a b a' : Expr}
    {bp : BindingPower} (ha : Rebuilt T U (.expr a) (.expr a')) (hb : Node.Writable T (.expr b))
    (hU : TypeTable.initial.Grows U) (hn : (lettersOf T (inParens b.words)).length ≤ n)
    (hl : Vocabulary.full.tail? l.1 = none) :
    RebuildsFrom U (binaryTail operand form a' bp)
      (k.letter :: lettersOf T (inParens b.words)) (l :: rest)
      fun V e' => Rebuilt T V (.expr (.binary (exprSite p) form k a b)) (.expr e') :=
  .advance_bind fun _ hk' => (h.wrapped hb hU hn hl).bind_last fun _ _ hV hb' =>
    .pure fun _ hX => .binary ⟨⟨trivial, rfl⟩, .none⟩ (Token.like_of_letter hk')
      (rebuilt_mono hT (hV.trans hX) ha) (rebuilt_mono hT hX hb')

theorem callTail_rebuilds {p : Position} {f f' : Expr} {as : List Expr}
    (hf : Rebuilt T U (.expr f) (.expr f')) (has : Node.Writable T (.exprs as))
    (hU : TypeTable.initial.Grows U)
    (hn : (lettersOf T (separated (Expr.wordsOfEach as))).length ≤ n) :
    RebuildsFrom U (callTail operand f')
      (TokenKind.letter .openParen :: (lettersOf T (separated (Expr.wordsOfEach as)) ++
        [TokenKind.letter .closeParen])) rest
      fun V e' => Rebuilt T V (.expr (.call (exprSite p) f as)) (.expr e') := by
  have hletters : lettersOf T (separated (Expr.wordsOfEach as)) =
      [TokenKind.letter .comma].intercalate (as.map fun e => lettersOf T (inParens e.words)) := by
    rw [lettersOf_separated, wordsOfEach_eq, List.map_map]
    rfl
  rw [hletters] at hn ⊢
  have harguments (rest : List Letter) :
      RebuildsFrom U (itemsBefore .closeParen (operand .lowest))
        ([TokenKind.letter .comma].intercalate (as.map fun e => lettersOf T (inParens e.words)))
        (TokenKind.letter .closeParen :: rest)
        fun V => List.Forall₂ (fun (e e' : Expr) => Rebuilt T V (.expr e) (.expr e')) as := by
    refine itemsBefore_rebuilds (R := fun V e e' => Rebuilt T V (.expr e) (.expr e'))
      (fun _ _ _ _ hV he => rebuilt_mono hT hV he) h.refuses (by decide) fun e he V l v hV hl => ?_
    have hle := length_le_intercalate_of_mem (TokenKind.letter .comma)
      (List.mem_map_of_mem (f := fun e : Expr => lettersOf T (inParens e.words)) he)
    refine h.wrapped (has.of_mem he) (hU.trans hV) (by omega) ?_
    rcases hl with rfl | rfl <;> rfl
  exact .expect_bind rfl fun _ _ => (harguments _).bind fun _ _ hV has' =>
    .expect_bind rfl fun _ _ => .pure fun _ hX => .call ⟨⟨trivial, rfl⟩, .none⟩
      (rebuilt_mono hT (hV.trans hX) hf)
      (Node.Like.exprs.mpr (has'.imp fun _ _ he => rebuilt_mono hT hX he))

theorem blockExpr_rebuilds {p : Position} {ss : List Stmt} (hss : Node.Writable T (.stmts ss))
    (hU : TypeTable.initial.Grows U) (hn : (lettersOf T (Stmt.wordsOfAll ss)).length ≤ n) :
    RebuildsFrom U (blockExpr .full operand)
      (TokenKind.letter .openCurly ::
        (lettersOf T (Stmt.wordsOfAll ss) ++ [TokenKind.letter .closeCurly])) rest
      fun V e' => Rebuilt T V (.expr (.block (exprSite p) ss)) (.expr e') :=
  (block_rebuilds hT h hss hU hn).bind_last fun _ _ _ hss' =>
    .pure fun _ hX => .block ⟨⟨trivial, rfl⟩, .none⟩ (rebuilt_mono hT hX hss')

theorem conditional_rebuilds {p : Position} {c a : Expr} (hc : Node.Writable T (.expr c))
    (ha : Node.Writable T (.expr a)) (hU : TypeTable.initial.Grows U)
    (hcn : (lettersOf T (inParens c.words)).length ≤ n)
    (han : (lettersOf T (inParens a.words)).length ≤ n)
    (hl : Vocabulary.full.tail? l.1 = none) (helse : l.1 ≠ .kwElse) :
    RebuildsFrom U (conditional operand)
      (TokenKind.letter .kwIf :: (lettersOf T (inParens c.words) ++
        TokenKind.letter .kwThen :: lettersOf T (inParens a.words))) (l :: rest)
      fun V e' => Rebuilt T V (.expr (.ifThen (exprSite p) c a)) (.expr e') :=
  .expect_bind rfl fun _ _ => (h.wrapped hc hU hcn rfl).bind fun _ _ hV hc' =>
    .expect_bind rfl fun _ _ => (h.wrapped ha (hU.trans hV) han hl).bind_last fun _ _ hX ha' =>
    .advanceIf_false rfl helse (.pure fun _ hY => .ifThen ⟨⟨trivial, rfl⟩, .none⟩
      (rebuilt_mono hT (hX.trans hY) hc') (rebuilt_mono hT hY ha'))

theorem conditional_else_rebuilds {p : Position} {c a b : Expr}
    (hc : Node.Writable T (.expr c)) (ha : Node.Writable T (.expr a))
    (hb : Node.Writable T (.expr b)) (hU : TypeTable.initial.Grows U)
    (hcn : (lettersOf T (inParens c.words)).length ≤ n)
    (han : (lettersOf T (inParens a.words)).length ≤ n)
    (hbn : (lettersOf T (inParens b.words)).length ≤ n)
    (hl : Vocabulary.full.tail? l.1 = none) :
    RebuildsFrom U (conditional operand)
      (TokenKind.letter .kwIf :: (lettersOf T (inParens c.words) ++
        TokenKind.letter .kwThen :: (lettersOf T (inParens a.words) ++
          TokenKind.letter .kwElse :: lettersOf T (inParens b.words)))) (l :: rest)
      fun V e' => Rebuilt T V (.expr (.ifElse (exprSite p) c a b)) (.expr e') :=
  .expect_bind rfl fun _ _ => (h.wrapped hc hU hcn rfl).bind fun _ _ hV hc' =>
    .expect_bind rfl fun _ _ => (h.wrapped ha (hU.trans hV) han rfl).bind fun _ _ hX ha' =>
    .advanceIf_true ((h.wrapped hb (hU.trans (hV.trans hX)) hbn hl).bind_last fun _ _ hY hb' =>
    .pure fun _ hZ => .ifElse ⟨⟨trivial, rfl⟩, .none⟩
      (rebuilt_mono hT (hX.trans (hY.trans hZ)) hc') (rebuilt_mono hT (hY.trans hZ) ha')
      (rebuilt_mono hT hZ hb'))

theorem result_rebuilds {p : Position} {form : ResultForm} {e : Expr}
    (he : Node.Writable T (.expr e)) (hU : TypeTable.initial.Grows U)
    (hn : (lettersOf T (inParens e.words)).length ≤ n)
    (hl : Vocabulary.full.tail? l.1 = none) (rest : List Letter) :
    ∃ lead, Vocabulary.full.lead? form.keyword = some lead ∧
      RebuildsFrom U (exprOfLead .full operand lead)
        (form.keyword.letter :: lettersOf T (inParens e.words)) (l :: rest)
        fun V e' => Rebuilt T V (.expr (.result (exprSite p) form e)) (.expr e') := by
  have hvalue (q : Position) : RebuildsFrom U
      (operand .lowest >>= fun v => Pure.pure (.result (exprSite q) form v))
      (lettersOf T (inParens e.words)) (l :: rest)
      fun V e' => Rebuilt T V (.expr (.result (exprSite p) form e)) (.expr e') :=
    (h.wrapped he hU hn hl).bind_last fun _ _ _ he' =>
      .pure fun _ hX => .result ⟨⟨trivial, rfl⟩, .none⟩ (rebuilt_mono hT hX he')
  cases form with
  | fromFunction => exact ⟨.returned, rfl, .expect_bind rfl fun t _ => hvalue t.place⟩
  | fromBlock => exact ⟨.yielded, rfl, .expect_bind rfl fun t _ => hvalue t.place⟩

end Operand

theorem rebuilds_exprWithin (hT : T.Reachable) (n : Nat) :
    Rebuilds T (exprWithin .full n) n := by
  -- on the letters: what is written inside an expression stands behind one letter of it at least
  induction n with
  | zero =>
    refine ⟨fun {e} _ _ _ he _ hn _ _ => ?_, fun {e} _ _ _ _ he _ hn _ => ?_,
      (complete_exprWithin 0).refuses rfl⟩
    · obtain ⟨l, w, _, hw, _⟩ := he.expr_head
      rw [hw] at hn
      exact nomatch hn
    · rw [lettersOf_inParens] at hn
      exact nomatch hn
  | succ n ih =>
    refine ⟨fun {e U l rest} he hU hn hl helse => ?_, fun {e U l rest bp} he hU hn hl => ?_,
      (complete_exprWithin (n + 1)).refuses rfl⟩
    · have hstop {V : TypeTable} {e' : Expr} {bp : BindingPower}
          (he' : Rebuilt T V (.expr e) (.expr e')) :
          RebuildsFrom V (tails .full (exprWithin .full n) bp e') [] (l :: rest)
            fun X e' => Rebuilt T X (.expr e) (.expr e') :=
        tails_rebuilds_nothing hl fun X hX => rebuilt_mono hT hX he'
      cases he with
      | @literal p t ht =>
        exact exprWithin_rebuilds_of_lead rfl ht.lead?
          ((primary_rebuilds ht).bind_last fun _ _ _ => hstop)
      | @binary p form k a b hk _ ha hb =>
        simp only [Expr.words, lettersOf_append, lettersOf_token, List.length_append,
          List.length_cons] at hn ⊢
        obtain ⟨q, tail, htail, hq, hrule⟩ := exprOfTail_binary hk
        refine exprWithin_rebuilds_of_lead (l := TokenKind.letter .openParen) rfl rfl
          ((grouping_rebuilds hT ih ha hU (by omega)).bind fun a' V hV ha' =>
            tails_rebuilds_one htail hq hl (fun _ _ _ hX he => rebuilt_mono hT hX he) ?_)
        rw [hrule]
        exact binaryTail_rebuilds hT ih ha' hb (hU.trans hV) (by omega) hl
      | @unary p k a hk _ ha =>
        simp only [Expr.words, lettersOf_token, List.length_cons] at hn ⊢
        have hlead := (by decide : ∀ k ∈ TokenKind.prefixOperators,
          Vocabulary.full.lead? k = some .prefixed) k.kind hk
        exact exprWithin_rebuilds_of_lead rfl hlead
          ((prefixed_rebuilds hT ih ha hU (by omega) hl).bind_last fun _ _ _ => hstop)
      | @call p f as hf has =>
        simp only [Expr.words, lettersOf_append, lettersOf_fixed, lettersOf_nil,
          List.length_append, List.length_cons] at hn ⊢
        exact exprWithin_rebuilds_of_lead (l := TokenKind.letter .openParen) rfl rfl
          ((grouping_rebuilds hT ih hf hU (by omega)).bind fun f' V hV hf' =>
            tails_rebuilds_one rfl (by decide) hl (fun _ _ _ hX he => rebuilt_mono hT hX he)
              (callTail_rebuilds hT ih hf' has (hU.trans hV) (by omega)))
      | @block p ss hss =>
        simp only [Expr.words, lettersOf_append, lettersOf_fixed, lettersOf_nil,
          List.length_append, List.length_cons] at hn ⊢
        exact exprWithin_rebuilds_of_lead rfl rfl
          ((blockExpr_rebuilds hT ih hss hU (by omega)).bind_last fun _ _ _ => hstop)
      | @ifThen p c a hc ha =>
        simp only [Expr.words, lettersOf_append, lettersOf_fixed, List.length_append,
          List.length_cons] at hn ⊢
        exact exprWithin_rebuilds_of_lead rfl rfl
          ((conditional_rebuilds hT ih hc ha hU (by omega) (by omega) hl helse).bind_last
            fun _ _ _ => hstop)
      | @ifElse p c a b hc ha hb =>
        simp only [Expr.words, lettersOf_append, lettersOf_fixed, List.length_append,
          List.length_cons] at hn ⊢
        exact exprWithin_rebuilds_of_lead rfl rfl
          ((conditional_else_rebuilds hT ih hc ha hb hU (by omega) (by omega) (by omega)
            hl).bind_last fun _ _ _ => hstop)
      | @result p form a ha =>
        simp only [Expr.words, lettersOf_fixed, List.length_cons] at hn ⊢
        obtain ⟨lead, hlead, hrule⟩ := result_rebuilds hT ih ha hU (by omega) hl rest
        exact exprWithin_rebuilds_of_lead rfl hlead (hrule.bind_last fun _ _ _ => hstop)
    · exact exprWithin_rebuilds_of_lead (l := TokenKind.letter .openParen) rfl rfl
        ((grouping_rebuilds hT ih he hU hn).bind_last fun e' V hV he' =>
          tails_rebuilds_nothing hl fun X hX => rebuilt_mono hT hX he')

theorem rebuilds_expr (hT : T.Reachable) (n : Nat) : Rebuilds T (expr .full) n where
  bare he hU _ hl helse := .of_tokens fun m hm =>
    (rebuilds_exprWithin hT m).bare he hU hm hl helse
  wrapped he hU _ hl := .of_tokens fun m hm => (rebuilds_exprWithin hT m).wrapped he hU hm hl
  refuses := (complete_expr n).refuses rfl

theorem topLevel_rebuilds (hT : T.Reachable) {d : Decl} (hd : Node.Writable T (.decl d))
    (hU : TypeTable.initial.Grows U) :
    RebuildsFrom U (topLevel .full) (lettersOf T d.words) rest
      fun V d' => Rebuilt T V (.decl d) (.decl d') := by
  intro s hs hV
  obtain ⟨l, w, hw, hdeclares⟩ := d.exists_letters T
  unfold topLevel
  rw [ParserState.kind_of_letters hs hw, if_pos hdeclares]
  exact declaration_rebuilds hT (rebuilds_expr hT _) hd hU (Nat.le_refl _) s hs hV

theorem declarationsWithin_rebuilds (hT : T.Reachable) {ds : List Decl}
    (hds : Node.Writable T (.decls ds)) {s : ParserState} (hU : TypeTable.initial.Grows s.types)
    (hs : s.letters = lettersOf T (Decl.wordsOfAll ds)) (hn : s.letters.length ≤ n) :
    ∃ ds' t, declarationsWithin .full n s = (ds', t) ∧ t.reported = s.reported ∧
      s.types.Grows t.types ∧ Rebuilt T t.types (.decls ds) (.decls ds') := by
  induction ds generalizing n s with
  | nil =>
    have hend : s.hasTokens = false := by
      have htokens : s.tokens = [] := List.map_eq_nil_iff.mp hs
      simp [ParserState.hasTokens, ParserState.kind, ParserState.current, htokens]
    refine ⟨[], s, ?_, rfl, .refl _, .noDecl⟩
    cases n with
    | zero => rfl
    | succ n => simp [declarationsWithin, hend]
  | cons d ds ih =>
    cases hds with
    | moreDecls hd hds =>
      rw [Decl.wordsOfAll, List.flatMap_cons, lettersOf_append] at hs
      obtain ⟨l, w, hw, hdeclares⟩ := d.exists_letters T
      obtain ⟨d', t, hd', ht, hgrows, hreported, hlike⟩ := topLevel_rebuilds hT hd hU s hs (.refl _)
      rw [hs, hw, List.length_append, List.length_cons] at hn
      obtain ⟨n, rfl⟩ : ∃ m, n = m + 1 := ⟨n - 1, by omega⟩
      have htokens : s.hasTokens = true := by
        rw [ParserState.hasTokens, ParserState.kind_of_letters hs hw]
        revert hdeclares
        cases l.1 <;> decide
      have hlength : t.letters.length ≤ n := by
        rw [ht]
        omega
      obtain ⟨ds', u, hds', hreported', hgrows', hlikes⟩ :=
        ih hds (hU.trans hgrows) ht hlength
      refine ⟨d' :: ds', u, ?_, hreported'.trans hreported, hgrows.trans hgrows',
        .moreDecls (rebuilt_mono hT hgrows' hlike) hlikes⟩
      simp only [declarationsWithin, htokens, if_true, hd', hds']

theorem declarations_rebuilds (hT : T.Reachable) {ds : List Decl}
    (hds : Node.Writable T (.decls ds)) {s : ParserState} (hU : TypeTable.initial.Grows s.types)
    (hs : s.letters = lettersOf T (Decl.wordsOfAll ds)) :
    ∃ ds' t, declarations .full s = (ds', t) ∧ t.reported = s.reported ∧
      s.types.Grows t.types ∧ Rebuilt T t.types (.decls ds) (.decls ds') :=
  declarationsWithin_rebuilds hT hds hU hs (Nat.le_of_eq (List.length_map _))

end FrontEnd.Rule
