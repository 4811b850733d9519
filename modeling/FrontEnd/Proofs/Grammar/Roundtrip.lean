import FrontEnd.Proofs.Grammar.Comparison
import FrontEnd.Proofs.Grammar.Rebuilding

/-! The rules of the language in front of a written program. Parentheses are read away in every
position they were written in, and each rule sees by the next word where to go on. -/

namespace FrontEnd

/-- The same tree up to places, with types that are built alike. -/
abbrev Rebuilt (T U : TypeTable) (a a' : Node) : Prop :=
  Node.Like (fun _ _ => True) (T.Matches U) a a'

theorem Token.like_of_letter {t t' : Token} (h : t'.letter = t.letter) :
    t.Like (fun _ _ => True) t' := by
  obtain ⟨hk, hp⟩ := Prod.mk.inj h
  exact ⟨hk.symm, hp.symm, trivial⟩

namespace Token.IsLiteral

variable {t : Token}

theorem mem_literals (h : t.IsLiteral) : t.kind ∈ TokenKind.literals := by
  cases h with
  | name h => simp [h.kind, TokenKind.literals]
  | number hk _ _ | string hk _ _ => simp [hk, TokenKind.literals]
  | truth hk _ => rcases hk with hk | hk <;> simp [hk, TokenKind.literals]

theorem lead? (h : t.IsLiteral) : Vocabulary.full.lead? t.kind = some .primary :=
  (by decide : ∀ k ∈ TokenKind.literals, Vocabulary.full.lead? k = some .primary) t.kind
    h.mem_literals

end Token.IsLiteral

section Letters

variable {T : TypeTable}

theorem lettersOf_append (ws vs : List Word) :
    lettersOf T (ws ++ vs) = lettersOf T ws ++ lettersOf T vs := List.flatMap_append

theorem lettersOf_fixed (k : TokenKind) (ws : List Word) :
    lettersOf T (.fixed k :: ws) = k.letter :: lettersOf T ws := rfl

theorem lettersOf_token (t : Token) (ws : List Word) :
    lettersOf T (.token t :: ws) = t.letter :: lettersOf T ws := rfl

theorem lettersOf_nil : lettersOf T [] = [] := rfl

theorem lettersOf_inParens (ws : List Word) : lettersOf T (inParens ws) =
    TokenKind.letter .openParen :: (lettersOf T ws ++ [TokenKind.letter .closeParen]) := by
  rw [inParens, lettersOf_fixed, lettersOf_append]
  rfl

theorem lettersOf_separated (ws : List (List Word)) : lettersOf T (separated ws) =
    [TokenKind.letter .comma].intercalate (ws.map (lettersOf T)) := by
  unfold separated
  induction ws with
  | nil => rfl
  | cons w ws ih =>
    cases ws with
    | nil => simp
    | cons v ws =>
      rw [List.map_cons, List.map_cons, List.intercalate_cons_cons, List.intercalate_cons_cons,
        lettersOf_append, lettersOf_append, ih]
      rfl

theorem lettersOf_names (ps : List Token) :
    lettersOf T (separated (ps.map fun p => [.token p])) =
      [TokenKind.letter .comma].intercalate (ps.map fun p => [p.letter]) := by
  rw [lettersOf_separated, List.map_map]
  rfl

theorem wordsOfEach_eq (es : List Expr) :
    Expr.wordsOfEach es = es.map fun e => inParens e.words := by
  induction es with
  | nil => rfl
  | cons e es ih => rw [Expr.wordsOfEach, ih, List.map_cons]

theorem Node.Writable.of_mem {es : List Expr} (h : Node.Writable T (.exprs es)) {e : Expr}
    (he : e ∈ es) : Node.Writable T (.expr e) := by
  induction es with
  | nil => exact nomatch he
  | cons f es ih =>
    cases h with
    | moreExprs hf hes =>
      rcases List.mem_cons.mp he with rfl | he
      · exact hf
      · exact ih hes he

theorem Node.Writable.expr_head {e : Expr} (he : Node.Writable T (.expr e)) :
    ∃ l w form, lettersOf T e.words = l :: w ∧ Vocabulary.full.lead? l.1 = some form := by
  cases he with
  | @literal p t ht =>
    exact ⟨t.letter, [], .primary, rfl, ht.lead?⟩
  | @unary p k e hk _ _ =>
    have hlead : ∀ k ∈ TokenKind.prefixOperators, Vocabulary.full.lead? k = some .prefixed := by
      decide
    exact ⟨k.letter, lettersOf T (inParens e.words), .prefixed, rfl, hlead k.kind hk⟩
  | binary _ _ _ _ | call _ _ =>
    exact ⟨_, _, .grouping, rfl, rfl⟩
  | block _ => exact ⟨_, _, .block, rfl, rfl⟩
  | ifThen _ _ | ifElse _ _ _ => exact ⟨_, _, .conditional, rfl, rfl⟩
  | @result p form e _ =>
    cases form with
    | fromFunction => exact ⟨_, _, .returned, rfl, rfl⟩
    | fromBlock => exact ⟨_, _, .yielded, rfl, rfl⟩

theorem Decl.exists_letters (T : TypeTable) (d : Decl) :
    ∃ l w, lettersOf T d.words = l :: w ∧ Vocabulary.full.declares l.1 = true := by
  cases d with
  | var _ _ g _ _ => cases g <;> exact ⟨_, _, rfl, rfl⟩
  | fn _ _ g _ _ => cases g <;> exact ⟨_, _, rfl, rfl⟩

/-- The first letter of a statement tells whether it is a declaration. -/
theorem Node.Writable.stmt_head {s : Stmt} (hs : Node.Writable T (.stmt s)) :
    ∃ l w, lettersOf T s.words = l :: w ∧
      ((Vocabulary.full.lead? l.1).isSome ∧ (∀ p d, s ≠ .decl p d) ∨
        Vocabulary.full.declares l.1 ∧ ∃ p d, s = .decl p d) := by
  cases hs with
  | @evaluated p e he =>
    obtain ⟨l, w, form, hw, hform⟩ := he.expr_head
    exact ⟨l, _, by rw [Stmt.words, lettersOf_append, hw, List.cons_append],
      .inl ⟨Option.isSome_of_eq_some hform, by simp⟩⟩
  | @assigned p q n e hn he =>
    have hlead : Vocabulary.full.lead? n.letter.1 = some .primary := by
      rw [Token.letter, hn.kind]
      rfl
    exact ⟨n.letter, _, rfl, .inl ⟨Option.isSome_of_eq_some hlead, by simp⟩⟩
  | @declared p d hd =>
    obtain ⟨l, w, hw, hdeclares⟩ := d.exists_letters T
    exact ⟨l, w, hw, .inr ⟨hdeclares, _, d, rfl⟩⟩

theorem Vocabulary.plain_of_lead {k : TokenKind} (h : (Vocabulary.full.lead? k).isSome) :
    Vocabulary.full.declares k = false ∧ k ≠ .closeCurly ∧ k ≠ .eof := by
  revert h
  cases k <;> decide

end Letters

namespace Rule

variable {T U : TypeTable} {rest : List Letter} {n : Nat}

theorem signature?_rebuilds (hT : T.Reachable) (hU : TypeTable.initial.Grows U)
    {g : Option TypeId} (hg : ∀ t ∈ g, t.index < T.size) {l : Letter} (hl : l.1 ≠ .kwOf)
    (rest : List Letter) :
    RebuildsFrom U (signature? .full) (lettersOf T (signatureWords g)) (l :: rest)
      fun V g' => Option.Rel (T.Matches V) g g' := by
  cases g with
  | none => exact .advanceIf_false rfl hl (.pure fun _ _ => .none)
  | some t =>
    have hletters : lettersOf T (signatureWords (some t)) =
        TokenKind.letter .kwOf :: T.letters t := by
      simp [signatureWords, lettersOf, Word.letters, Word.fixed, Token.letter, TokenKind.letter]
    have htype : RebuildsFrom U (Rule.type .full) (T.letters t) (l :: rest)
        fun V u => T.Matches V t u :=
      .of_tokens fun m hm => typeWithin_rebuilds hT hU (Nat.lt_succ_self _) (hg t rfl) hm
    rw [hletters]
    exact .advanceIf_true (htype.bind_last fun u V hV hu => .pure fun X hX => .some (hu.mono hT hX))

theorem fitSignature_rebuilds {g g' : Option TypeId} {ps : List Token} (name : Token)
    (hg : Option.Rel (T.Matches U) g g') (hfits : T.Fits g ps.length) {ps' : List Token}
    (hps : ps'.length = ps.length) :
    RebuildsFrom U (fitSignature name ps' g') [] rest fun _ _ => True := by
  cases hg with
  | none => exact .pure fun _ _ => trivial
  | @some t t' ht =>
    obtain ⟨as, r, hfunction, has⟩ := hfits t rfl
    obtain ⟨bs, q, hfunction', hbs⟩ := ht.function? hfunction
    intro s hs hU
    refine ⟨(), s, ?_, hs, .refl _, rfl, trivial⟩
    simp only [fitSignature, hU.function? hfunction', hbs, has, hps, if_true]

/-- The operand reads back every written expression of at most `n` letters: a bare one at the lowest
power, and one in parentheses at any power. What follows cannot be taken as an operator. -/
structure Rebuilds (T : TypeTable) (operand : Operand) (n : Nat) : Prop where
  bare {e : Expr} {U : TypeTable} {l : Letter} {rest : List Letter}
    (he : Node.Writable T (.expr e)) (hU : TypeTable.initial.Grows U)
    (hn : (lettersOf T e.words).length ≤ n) (hl : Vocabulary.full.tail? l.1 = none)
    (helse : l.1 ≠ .kwElse) :
    RebuildsFrom U (operand .lowest) (lettersOf T e.words) (l :: rest)
      fun V e' => Rebuilt T V (.expr e) (.expr e')
  wrapped {e : Expr} {U : TypeTable} {l : Letter} {rest : List Letter} {bp : BindingPower}
    (he : Node.Writable T (.expr e)) (hU : TypeTable.initial.Grows U)
    (hn : (lettersOf T (inParens e.words)).length ≤ n)
    (hl : Vocabulary.full.tail? l.1 = none) :
    RebuildsFrom U (operand bp) (lettersOf T (inParens e.words)) (l :: rest)
      fun V e' => Rebuilt T V (.expr e) (.expr e')
  refuses {bp : BindingPower} : (operand bp).Refuses .closeParen

theorem rebuilt_mono {V : TypeTable} (hT : T.Reachable) (hV : U.Grows V) {a a' : Node}
    (h : Rebuilt T U a a') : Rebuilt T V a a' :=
  Node.Like.mono (fun _ _ => TypeTable.Matches.mono hT hV) h

section Operand

variable {operand : Operand} (hT : T.Reachable) (h : Rebuilds T operand n)
include hT h

theorem statement_rebuilds {s : Stmt} (hs : Node.Writable T (.stmt s)) (hd : ∀ p d, s ≠ .decl p d)
    (hU : TypeTable.initial.Grows U) (hn : (lettersOf T s.words).length ≤ n) :
    RebuildsFrom U (statement operand) (lettersOf T s.words) rest
      fun V s' => Rebuilt T V (.stmt s) (.stmt s') := by
  cases hs with
  | declared _ => exact absurd rfl (hd _ _)
  | @evaluated p e he =>
    simp only [Stmt.words, lettersOf_append, List.length_append] at hn ⊢
    exact (h.bare he hU (by omega) rfl (by decide)).bind fun e' V hV he' =>
      .advanceIf_false rfl (by decide) (.expect_bind rfl fun _ _ => .pure fun X hX =>
      .evaluated ⟨trivial, rfl⟩ (rebuilt_mono hT hX he'))
  | @assigned p q t e ht he =>
    have htarget : Node.Writable T (.expr (.leaf (exprSite q) .literal t)) := .literal (.name ht)
    have hletters : lettersOf T (Expr.leaf (exprSite q) .literal t).words = [t.letter] := rfl
    simp only [Stmt.words, lettersOf_append, lettersOf_fixed, hletters, List.length_append,
      List.length_cons, List.length_nil] at hn ⊢
    refine (h.bare htarget hU (by rw [hletters]; simp; omega) rfl (by decide)).bind
      fun l' V hV hl' => .advanceIf_true ?_
    have hname := hl'.name?
    rw [Expr.name?, if_pos ht.kind] at hname
    generalize l'.name? = x at hname
    cases hname with
    | some _ =>
      refine (h.bare he (hU.trans hV) (by omega) rfl (by decide)).bind
        fun e' X hX he' => .expect_bind rfl fun _ _ => .pure fun Y hY => ?_
      exact .assigned ⟨trivial, rfl⟩ (rebuilt_mono hT (hX.trans hY) hl') (rebuilt_mono hT hY he')

theorem varDecl_rebuilds {p q : Position} {t : Token} {g g' : Option TypeId} {e : Expr}
    (ht : t.IsName) (he : Node.Writable T (.expr e)) (hU : TypeTable.initial.Grows U)
    (hg : Option.Rel (T.Matches U) g g') (hn : (lettersOf T (inParens e.words)).length ≤ n)
    (p' : Position) :
    RebuildsFrom U (varDecl operand p' g')
      (TokenKind.letter .kwVar :: t.letter :: TokenKind.letter .assign ::
        (lettersOf T (inParens e.words) ++ [TokenKind.letter .semicolon])) rest
      fun V d' => Rebuilt T V (.decl (.var (site p) t g e q)) (.decl d') :=
  .expect_bind rfl fun _ _ => .expect_bind ht.kind fun _ ht' => .expect_bind rfl fun _ _ =>
    (h.wrapped he hU hn rfl).bind fun _ _ hV he' => .expect_bind rfl fun _ _ =>
    .pure fun _ hX => .var ⟨trivial, rfl⟩ (Token.like_of_letter ht')
      (rel_mono (fun _ _ => TypeTable.Matches.mono hT (hV.trans hX)) hg) trivial
      (rebuilt_mono hT hX he')

theorem fnDecl_rebuilds {p : Position} {t : Token} {g g' : Option TypeId} {ps : List Token}
    {e : Expr} (ht : t.IsName) (hps : ∀ t ∈ ps, t.IsName) (hfits : T.Fits g ps.length)
    (he : Node.Writable T (.expr e)) (hU : TypeTable.initial.Grows U)
    (hg : Option.Rel (T.Matches U) g g') (hn : (lettersOf T e.words).length ≤ n)
    (p' : Position) :
    RebuildsFrom U (fnDecl operand p' g')
      (TokenKind.letter .kwFun :: t.letter :: TokenKind.letter .openParen ::
        ([TokenKind.letter .comma].intercalate (ps.map fun p => [p.letter]) ++
          TokenKind.letter .closeParen :: TokenKind.letter .assign ::
            (lettersOf T e.words ++ [TokenKind.letter .semicolon]))) rest
      fun V d' => Rebuilt T V (.decl (.fn (site p) t g ps e)) (.decl d') := by
  have hparams (rest : List Letter) :
      RebuildsFrom U (itemsBefore .closeParen (expect .identifier))
        ([TokenKind.letter .comma].intercalate (ps.map fun p => [p.letter]))
        (TokenKind.letter .closeParen :: rest)
        fun _ => List.Forall₂ (Token.Like fun _ _ => True) ps :=
    itemsBefore_rebuilds (fun _ _ _ _ _ ht => ht) (expect_refuses (by decide)) (by decide)
      fun p hp V l v _ _ => (expect_rebuilds (hps p hp).kind).mono fun _ _ _ hp' =>
        Token.like_of_letter hp'
  exact .expect_bind rfl fun _ _ => .expect_bind ht.kind fun t' ht' => .expect_bind rfl fun _ _ =>
    (hparams _).bind fun ps' V hV hps' => .expect_bind rfl fun _ _ =>
    .bind (w := []) (fitSignature_rebuilds t'
      (rel_mono (fun _ _ => TypeTable.Matches.mono hT hV) hg) hfits hps'.length_eq.symm)
    fun _ X hX _ => .expect_bind rfl fun _ _ =>
    (h.bare he (hU.trans (hV.trans hX)) hn rfl (by decide)).bind fun e' Y hY he' =>
    .expect_bind rfl fun _ _ => .pure fun Z hZ => .fn ⟨trivial, rfl⟩ (Token.like_of_letter ht')
      (rel_mono (fun _ _ => TypeTable.Matches.mono hT (hV.trans (hX.trans (hY.trans hZ)))) hg) hps'
      (rebuilt_mono hT hZ he')

theorem declaration_rebuilds {d : Decl} (hd : Node.Writable T (.decl d))
    (hU : TypeTable.initial.Grows U) (hn : (lettersOf T d.words).length ≤ n) :
    RebuildsFrom U (declaration .full operand) (lettersOf T d.words) rest
      fun V d' => Rebuilt T V (.decl d) (.decl d') := by
  cases hd with
  | @var p q t g e ht hg he =>
    simp only [Decl.words, lettersOf_append, lettersOf_fixed, lettersOf_token, lettersOf_nil,
      List.length_append, List.length_cons] at hn ⊢
    refine .current_bind fun start _ =>
      (signature?_rebuilds hT hU hg (by decide) _).bind fun g' V hV hg' =>
      .current_bind fun k hk => ?_
    have hkind : k.kind = .kwVar := congrArg Prod.fst (hk _ rfl)
    simp only [hkind]
    exact varDecl_rebuilds hT h ht he (hU.trans hV) hg' (by omega) start.place
  | @fn p t g ps e ht hfits hps he =>
    simp only [Decl.words, lettersOf_append, lettersOf_fixed, lettersOf_token, lettersOf_nil,
      lettersOf_names, List.length_append, List.length_cons] at hn ⊢
    have hg : ∀ t ∈ g, t.index < T.size := by
      intro t ht
      obtain ⟨as, r, hfunction, _⟩ := hfits t ht
      exact TypeTable.lt_size_of_shape? (TypeTable.function?_eq_some.mp hfunction)
    refine .current_bind fun start _ =>
      (signature?_rebuilds hT hU hg (by decide) _).bind fun g' V hV hg' =>
      .current_bind fun k hk => ?_
    have hkind : k.kind = .kwFun := congrArg Prod.fst (hk _ rfl)
    simp only [hkind]
    exact fnDecl_rebuilds hT h ht hps hfits he (hU.trans hV) hg' (by omega) start.place

theorem blockItem_rebuilds {s : Stmt} (hs : Node.Writable T (.stmt s))
    (hU : TypeTable.initial.Grows U) (hn : (lettersOf T s.words).length ≤ n) :
    RebuildsFrom U (blockItem .full operand) (lettersOf T s.words) rest
      fun V s' => Rebuilt T V (.stmt s) (.stmt s') := by
  intro x hx hV
  obtain ⟨l, w, hw, hhead⟩ := hs.stmt_head
  have hkind := ParserState.kind_of_letters hx hw
  unfold blockItem
  rcases hhead with ⟨hlead, hstatement⟩ | ⟨hdeclares, p, d, rfl⟩
  · rw [hkind, (Vocabulary.plain_of_lead hlead).1, if_neg Bool.false_ne_true]
    exact statement_rebuilds hT h hs hstatement hU hn x hx hV
  · cases hs with
    | declared hd =>
      obtain ⟨d', y, hd', hy, hgrows, hreported, hlike⟩ :=
        declaration_rebuilds hT h hd hU hn x hx hV
      rw [hkind, if_pos hdeclares, hd']
      exact ⟨_, y, rfl, hy, hgrows, hreported, .declared ⟨trivial, rfl⟩ hlike⟩

theorem itemsWithin_rebuilds {ss : List Stmt} (hss : Node.Writable T (.stmts ss))
    (hU : TypeTable.initial.Grows U) (hn : (lettersOf T (Stmt.wordsOfAll ss)).length ≤ n) {m : Nat}
    (hm : (lettersOf T (Stmt.wordsOfAll ss)).length < m) :
    RebuildsFrom U (itemsWithin (blockItem .full operand) m)
      (lettersOf T (Stmt.wordsOfAll ss) ++ [TokenKind.letter .closeCurly]) rest
      fun V r => Rebuilt T V (.stmts ss) (.stmts r.1) ∧ r.2 = false := by
  induction ss generalizing m U with
  | nil =>
    obtain ⟨m, rfl⟩ : ∃ k, m = k + 1 := ⟨m - 1, by omega⟩
    intro x hx _
    obtain ⟨_, hkind, hadvance⟩ := ParserState.of_letters_cons hx
    refine ⟨([], false), x.advance, ?_, hadvance, .refl _, rfl, .noStmt, rfl⟩
    simp only [itemsWithin, show x.kind = .closeCurly from hkind]
  | cons s ss ih =>
    cases hss with
    | moreStmts hs hss =>
      obtain ⟨l, w, hw, hhead⟩ := hs.stmt_head
      have hpos : 0 < (lettersOf T s.words).length := by rw [hw]; simp
      rw [Stmt.wordsOfAll, lettersOf_append] at hn hm ⊢
      rw [List.length_append] at hn hm
      obtain ⟨m, rfl⟩ : ∃ k, m = k + 1 := ⟨m - 1, by omega⟩
      intro x hx hV
      rw [List.append_assoc, List.append_assoc] at hx
      have hkind := ParserState.kind_of_letters hx hw
      have hbegins : x.kind ≠ .closeCurly ∧ x.kind ≠ .eof := by
        rw [hkind]
        rcases hhead with ⟨hlead, _⟩ | ⟨hdeclares, _⟩
        · exact (Vocabulary.plain_of_lead hlead).2
        · revert hdeclares
          cases l.1 <;> decide
      obtain ⟨s', y, hs', hy, hgrows, hreported, hlike⟩ :=
        blockItem_rebuilds hT h hs hU (by omega) x hx hV
      obtain ⟨⟨ss', failed⟩, z, hss', hz, hgrows', hreported', hlikes, rfl⟩ :=
        ih hss (hU.trans (hV.trans hgrows)) (by omega) (m := m) (by omega) y
          (by rw [hy, List.append_assoc]) (.refl _)
      refine ⟨(s' :: ss', false), z, ?_, hz, hgrows.trans hgrows', hreported'.trans hreported,
        .moreStmts (rebuilt_mono hT hgrows' hlike) hlikes, rfl⟩
      unfold itemsWithin
      split
      next hclose => exact absurd hclose hbegins.1
      next heof => exact absurd heof hbegins.2
      · simp only [hs', hss', Reply.map]

theorem block_rebuilds {ss : List Stmt} (hss : Node.Writable T (.stmts ss))
    (hU : TypeTable.initial.Grows U) (hn : (lettersOf T (Stmt.wordsOfAll ss)).length ≤ n) :
    RebuildsFrom U (block .full operand)
      (TokenKind.letter .openCurly ::
        (lettersOf T (Stmt.wordsOfAll ss) ++ [TokenKind.letter .closeCurly])) rest
      fun V r => Rebuilt T V (.stmts ss) (.stmts r.1) := by
  intro x hx hV
  obtain ⟨_, hkind, hadvance⟩ := ParserState.of_letters_cons hx
  have hlength := ParserState.length_le_of_letters hadvance
  rw [List.length_append, List.length_singleton] at hlength
  obtain ⟨⟨ss', failed⟩, y, hss', hy, hgrows, hreported, hlike, rfl⟩ :=
    itemsWithin_rebuilds hT h hss (hU.trans hV) hn hlength x.advance.enterBlock hadvance (.refl _)
  rw [block_of_brace (show x.kind = .openCurly from hkind), hss']
  exact ⟨_, y.exitBlock, rfl, hy, hgrows, hreported, hlike⟩

end Operand

end Rule

end FrontEnd
