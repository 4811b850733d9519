import FrontEnd.Proofs.Grammar.Completeness
import FrontEnd.Proofs.Grammar.Recursion
import FrontEnd.Proofs.Syntax.OperatorTree

/-! Chains of operands with binary operators between them. The rule for expressions reads a chain as
the levelled tree of its operands. -/

namespace FrontEnd

open Rule

/-- Tokens in brackets. -/
structure Bracketed where
  opening : Token
  inner : List Token
  closing : Token

namespace Bracketed

def tokens (b : Bracketed) : List Token := b.opening :: (b.inner ++ [b.closing])

/-- A phrase in brackets of these kinds. -/
structure Holds (b : Bracketed) (p : Phrase) (o c : TokenKind) : Prop where
  opening : b.opening.kind = o
  inner : p.Derives (b.inner.map Token.kind)
  closing : b.closing.kind = c

end Bracketed

inductive Atom where
  | literal (t : Token)
  | group (b : Bracketed)
  | block (b : Bracketed)

namespace Atom

def tokens : Atom → List Token
  | literal t => [t]
  | group b => b.tokens
  | block b => b.tokens

def WellFormed : Atom → Prop
  | literal t => t.kind ∈ TokenKind.literals
  | group b => b.Holds .expr .openParen .closeParen
  | block b => b.Holds .stmts .openCurly .closeCurly

/-- From `s` to `t` the atom is read as `e`. Parentheses hold what the rule for expressions reads in
them. -/
inductive Gives : Atom → ParserState → Expr → ParserState → Prop
  | literal {s : ParserState} {t : Token} :
      Gives (.literal t) s (.leaf (exprSite t.place) .literal t) s.advance
  | group {s t : ParserState} {b : Bracketed} {e : Expr}
      (he : expr .full .lowest s.advance = .done e t)
      (ht : s.advance.tokens = b.inner ++ t.tokens) : Gives (.group b) s e t.advance
  | block {s t : ParserState} {b : Bracketed} {ss : List Stmt}
      (hss : Rule.block .full (expr .full) s = .done (ss, b.opening.place) t)
      (ht : s.tokens = b.tokens ++ t.tokens) :
      Gives (.block b) s (.block (exprSite b.opening.place) ss) t

end Atom

/-- Argument lists behind the callee `e` make calls, each with those before it as its callee. -/
inductive CallsGive : List Bracketed → Expr → ParserState → Expr → ParserState → Prop
  | nil {e : Expr} {s : ParserState} : CallsGive [] e s e s
  | cons {b : Bracketed} {bs : List Bracketed} {e f : Expr} {as : List Expr} {s t u : ParserState}
      (has : itemsBefore .closeParen (expr .full .lowest) s.advance = .done as t)
      (ht : s.advance.tokens = b.inner ++ t.tokens) :
      CallsGive bs (.call (exprSite e.place) e as) t.advance f u → CallsGive (b :: bs) e s f u

/-- An operand: an atom with prefix operators before it and argument lists behind it. -/
structure Factor where
  prefixes : List Token
  atom : Atom
  calls : List Bracketed

namespace Factor

def tokens (f : Factor) : List Token :=
  f.prefixes ++ (f.atom.tokens ++ f.calls.flatMap Bracketed.tokens)

structure WellFormed (f : Factor) : Prop where
  prefixes : ∀ k ∈ f.prefixes, k.kind ∈ TokenKind.prefixOperators
  atom : f.atom.WellFormed
  calls : ∀ b ∈ f.calls, ∃ n, b.Holds (.items .expr n) .openParen .closeParen

/-- Prefix operators stand around the calls, the first one outermost. -/
inductive Gives : Factor → ParserState → Expr → ParserState → Prop
  | plain {a : Atom} {bs : List Bracketed} {e f : Expr} {s t u : ParserState} :
      a.Gives s e t → CallsGive bs e t f u → Gives ⟨[], a, bs⟩ s f u
  | prefixed {k : Token} {ks : List Token} {a : Atom} {bs : List Bracketed} {e : Expr}
      {s t : ParserState} : Gives ⟨ks, a, bs⟩ s.advance e t →
      Gives ⟨k :: ks, a, bs⟩ s (.unary (exprSite k.place) k e) t

end Factor

/-- Operators, each with an operand behind it. -/
abbrev Links := List (Token × Factor)

namespace Links

def tokens (ls : Links) : List Token := ls.flatMap fun l => l.1 :: l.2.tokens

def WellFormed (ls : Links) : Prop :=
  ∀ l ∈ ls, l.1.kind ∈ TokenKind.binaryOperators ∧ l.2.WellFormed

inductive Give : Links → ParserState → List (Expr ⊕ Token) → ParserState → Prop
  | nil {s : ParserState} : Give [] s [] s
  | cons {k : Token} {f : Factor} {ls : Links} {e : Expr} {xs : List (Expr ⊕ Token)}
      {s t u : ParserState} : f.Gives s.advance e t → Give ls t xs u →
      Give ((k, f) :: ls) s (.inr k :: .inl e :: xs) u

theorem Give.append {ls ls' : Links} {xs xs' : List (Expr ⊕ Token)} {s t u : ParserState}
    (h : ls.Give s xs t) (h' : ls'.Give t xs' u) : Give (ls ++ ls') s (xs ++ xs') u := by
  induction h with
  | nil => exact h'
  | cons hf _ ih => exact .cons hf (ih h')

end Links

/-- An operand, and further operands behind binary operators. -/
structure Chain where
  first : Factor
  links : Links

namespace Chain

def tokens (c : Chain) : List Token := c.first.tokens ++ c.links.tokens

def WellFormed (c : Chain) : Prop := c.first.WellFormed ∧ c.links.WellFormed

/-- From `s` to `u` the operands are read one after the other. -/
inductive Gives : Chain → ParserState → List (Expr ⊕ Token) → ParserState → Prop
  | intro {f : Factor} {ls : Links} {e : Expr} {xs : List (Expr ⊕ Token)} {s t u : ParserState} :
      f.Gives s e t → ls.Give t xs u → Gives ⟨f, ls⟩ s (.inl e :: xs) u

end Chain

namespace Rule

variable {α : Type} {s : ParserState} {w rest : List Token} {bp : BindingPower} {e : Expr}

theorem AcceptsAs.exists_done {r : Rule α} {Q : α → ParserState → Prop}
    (h : r.AcceptsAs (w.map Token.kind) (rest.map Token.kind) Q) (hr : r.Steady)
    (hs : s.tokens = w ++ rest) : ∃ a t, r s = .done a t ∧ t.tokens = rest ∧ Q a t := by
  obtain ⟨a, t, ha, ht, hQ⟩ := h s (by rw [ParserState.kinds, hs, List.map_append])
  refine ⟨a, t, ha, ?_, hQ⟩
  have hsuffix : t.tokens <:+ s.tokens := by
    have hcontinues := hr s
    rw [ha] at hcontinues
    exact hcontinues.tokens
  have hlength : t.tokens.length = rest.length := by
    simpa [ParserState.kinds] using congrArg List.length ht
  have hrest : rest <:+ s.tokens := ⟨w, hs.symm⟩
  have hle := List.suffix_of_suffix_length_le hsuffix hrest (Nat.le_of_eq hlength)
  exact hle.eq_of_length hlength

theorem tails_done (h : ∀ p form, Vocabulary.full.tail? s.kind = some (p, form) → ¬ bp < p) :
    tails .full (expr .full) bp e s = .done e s := tailsWithin_done h

theorem lead?_of_literal {k : TokenKind} (h : k ∈ TokenKind.literals) :
    Vocabulary.full.lead? k = some .primary :=
  (by decide : ∀ k ∈ TokenKind.literals, Vocabulary.full.lead? k = some .primary) k h

theorem lead?_of_prefix {k : TokenKind} (h : k ∈ TokenKind.prefixOperators) :
    Vocabulary.full.lead? k = some .prefixed :=
  (by decide : ∀ k ∈ TokenKind.prefixOperators, Vocabulary.full.lead? k = some .prefixed) k h

theorem current_of_tokens {k : Token} (h : s.tokens = k :: w) : s.current = k := by
  rw [ParserState.current, h]
  rfl

theorem tokens_advance {k : Token} (h : s.tokens = k :: w) : s.advance.tokens = w := by
  rw [ParserState.advance, h]
  rfl

theorem of_block_done {operand : Operand} {t : ParserState} {ss : List Stmt} {p : Position}
    (h : s.kind = .openCurly) (hss : block .full operand s = .done (ss, p) t) :
    p = s.current.place := by
  rw [block_of_brace h] at hss
  generalize itemsWithin _ _ _ = reply at hss
  match reply, hss with
  | .done (_, false) _, hss =>
    injection hss with hvalue _
    exact (Prod.mk.inj hvalue).2.symm

theorem exprOfLead_atom {a : Atom} (ha : a.WellFormed) (hs : s.tokens = a.tokens ++ rest) :
    ∃ form e t, Vocabulary.full.lead? s.kind = some form ∧
      exprOfLead .full (expr .full) form s = .done e t ∧ a.Gives s e t ∧ t.tokens = rest := by
  have hexpr := Steady.expr .full
  cases a with
  | literal k =>
    have hk := current_of_tokens hs
    have hkind : s.kind ∈ TokenKind.literals := by rwa [ParserState.kind, hk]
    refine ⟨.primary, _, s.advance, lead?_of_literal hkind, primary_done hkind, ?_,
      tokens_advance hs⟩
    rw [hk]
    exact .literal
  | group b =>
    have hs : s.tokens = b.opening :: (b.inner ++ b.closing :: rest) := by
      simpa [Atom.tokens, Bracketed.tokens] using hs
    have hk : s.kind = .openParen := by rw [ParserState.kind, current_of_tokens hs, ha.opening]
    have hclosed : Closed ((b.closing :: rest).map Token.kind) :=
      .cons (by rw [ha.closing]; rfl) (by rw [ha.closing]; decide) _
    obtain ⟨e, t, he, ht, -⟩ := ((complete_expr _).accepts ha.inner (Nat.le_refl _)
      hclosed).exists_done (hexpr .lowest) (tokens_advance hs)
    have hclose : t.kind = .closeParen := by
      rw [ParserState.kind, current_of_tokens ht, ha.closing]
    refine ⟨.grouping, e, t.advance, by rw [hk]; rfl, ?_, .group he ?_, tokens_advance ht⟩
    · change grouping (expr .full) s = _
      unfold grouping
      rw [bind_done _ (expect_done hk), bind_done _ he, bind_done _ (expect_done hclose)]
      rfl
    · rw [tokens_advance hs, ht]
  | block b =>
    have hs' : s.tokens = b.opening :: (b.inner ++ b.closing :: rest) := by
      simpa [Atom.tokens, Bracketed.tokens] using hs
    have hk : s.kind = .openCurly := by rw [ParserState.kind, current_of_tokens hs', ha.opening]
    have haccepts : (block .full (expr .full)).Accepts (b.tokens.map Token.kind)
        (rest.map Token.kind) := by
      have h : (block .full (expr .full)).Accepts _ (rest.map Token.kind) :=
        block_accepts (complete_expr _) ha.inner (Nat.le_refl _)
      simpa [Bracketed.tokens, ha.opening, ha.closing] using h
    obtain ⟨⟨ss, p⟩, t, hss, ht, -⟩ := haccepts.exists_done (.block hexpr) hs
    obtain rfl := of_block_done hk hss
    rw [current_of_tokens hs'] at hss
    refine ⟨.block, _, t, by rw [hk]; rfl, ?_, .block hss ?_, ht⟩
    · change blockExpr .full (expr .full) s = _
      exact bind_done _ hss
    · rw [ht]
      exact hs

/-- Argument lists are taken by whatever binds less than a call. -/
theorem tails_calls {bs : List Bracketed} (hbs : ∀ b ∈ bs, ∃ n,
    b.Holds (.items .expr n) .openParen .closeParen)
    (hs : s.tokens = bs.flatMap Bracketed.tokens ++ rest) :
    ∃ f t, CallsGive bs e s f t ∧ t.tokens = rest ∧
      ∀ bp < .call, tails .full (expr .full) bp e s = tails .full (expr .full) bp f t := by
  have hexpr := Steady.expr .full
  induction bs generalizing s e with
  | nil => exact ⟨e, s, .nil, hs, fun _ _ => rfl⟩
  | cons b bs ih =>
    obtain ⟨⟨n, hb⟩, hbs⟩ := List.forall_mem_cons.mp hbs
    have hs : s.tokens = b.opening :: (b.inner ++
        b.closing :: (bs.flatMap Bracketed.tokens ++ rest)) := by
      simpa [Bracketed.tokens] using hs
    have hk : s.kind = .openParen := by rw [ParserState.kind, current_of_tokens hs, hb.opening]
    have harguments : (itemsBefore .closeParen (expr .full .lowest)).AcceptsAs
        (b.inner.map Token.kind)
        (.closeParen :: (bs.flatMap Bracketed.tokens ++ rest).map Token.kind)
        fun as _ => as.length = n :=
      itemsBefore_accepts (fun hw hl hrest => (complete_expr _).accepts hw hl hrest)
        ((complete_expr 0).refuses rfl) hb.inner (Nat.le_refl _) (by decide)
        (.cons rfl (by decide) _)
    have hkinds (w : List Token) :
        TokenKind.closeParen :: w.map Token.kind = (b.closing :: w).map Token.kind := by
      rw [List.map_cons, hb.closing]
    rw [hkinds] at harguments
    obtain ⟨as, t, has, ht, -⟩ := harguments.exists_done ((hexpr .lowest).itemsBefore _)
      (tokens_advance hs)
    have hclose : t.kind = .closeParen := by
      rw [ParserState.kind, current_of_tokens ht, hb.closing]
    obtain ⟨f, u, hf, hu, htails⟩ := ih (e := .call (exprSite e.place) e as) hbs (tokens_advance ht)
    refine ⟨f, u, .cons has (by rw [tokens_advance hs, ht]) hf, hu, fun bp hbp => ?_⟩
    have hcall : callTail (expr .full) e s = .done (.call (exprSite e.place) e as) t.advance := by
      unfold callTail
      rw [bind_done _ (expect_done hk), bind_done _ has, bind_done _ (expect_done hclose)]
      rfl
    have hform : Vocabulary.full.tail? s.kind = some (.call, .call) := by rw [hk]; rfl
    rw [tails_eq hexpr bp e]
    simp only [tailsOf, hform, if_pos hbp]
    exact (bind_done _ hcall).trans (htails bp hbp)

/-- Only the arguments of a call bind tighter than a prefix operator. -/
theorem not_unary_lt_of_tail? {p : BindingPower} {form : TailForm} {k : TokenKind}
    (h : Vocabulary.full.tail? k = some (p, form)) (hk : k ≠ .openParen) : ¬ .unary < p := by
  revert h hk
  cases k <;> simp only [Vocabulary.tail?, Option.some.injEq, Prod.mk.injEq, reduceCtorEq,
    false_implies, and_imp, ne_eq, not_true_eq_false, implies_true, not_false_eq_true,
    forall_const] <;> (rintro rfl -; decide)

theorem kind_ne_of_head? {k : TokenKind} (hk : k ≠ .eof) (h : ∀ t ∈ rest.head?, t.kind ≠ k)
    (hs : s.tokens = rest) : s.kind ≠ k := by
  subst hs
  cases hw : s.tokens with
  | nil =>
    rw [ParserState.kind, ParserState.current, hw]
    exact hk.symm
  | cons t ts =>
    rw [ParserState.kind, current_of_tokens hw]
    exact h t (by rw [hw]; rfl)

/-- An operand is read as a whole by whatever binds less than a call. -/
theorem expr_factor {f : Factor} (hf : f.WellFormed) (hs : s.tokens = f.tokens ++ rest)
    (hrest : ∀ t ∈ rest.head?, t.kind ≠ .openParen) :
    ∃ e t, f.Gives s e t ∧ t.tokens = rest ∧
      ∀ bp < .call, expr .full bp s = tails .full (expr .full) bp e t := by
  obtain ⟨ks, a, bs⟩ := f
  obtain ⟨hks, ha, hbs⟩ := hf
  induction ks generalizing s with
  | nil =>
    have hs : s.tokens = a.tokens ++ (bs.flatMap Bracketed.tokens ++ rest) := by
      simpa [Factor.tokens] using hs
    obtain ⟨form, e, t, hform, hlead, he, ht⟩ := exprOfLead_atom ha hs
    obtain ⟨f, u, hf, hu, htails⟩ := tails_calls (e := e) hbs ht
    refine ⟨f, u, .plain he hf, hu, fun bp hbp => ?_⟩
    rw [expr_eq]
    simp only [exprOf, hform]
    exact (bind_done _ hlead).trans (htails bp hbp)
  | cons k ks ih =>
    obtain ⟨hk, hks⟩ := List.forall_mem_cons.mp hks
    have hs : s.tokens = k :: (Factor.tokens ⟨ks, a, bs⟩ ++ rest) := hs
    obtain ⟨e, t, he, ht, hexpr⟩ := ih (tokens_advance hs) hks ha hbs
    refine ⟨.unary (exprSite k.place) k e, t, .prefixed he, ht, fun bp hbp => ?_⟩
    have hoperand : expr .full .unary s.advance = .done e t := by
      rw [hexpr .unary (by decide)]
      have hkind := kind_ne_of_head? (by decide) hrest ht
      exact tails_done fun p form h => not_unary_lt_of_tail? h hkind
    have hcurrent := current_of_tokens hs
    have hform : Vocabulary.full.lead? s.kind = some .prefixed := by
      rw [ParserState.kind, hcurrent]
      exact lead?_of_prefix hk
    have hlead : prefixed (expr .full) s = .done (.unary (exprSite k.place) k e) t := by
      unfold prefixed
      rw [bind_done _ (rfl : advance s = .done s.current s.advance), bind_done _ hoperand,
        hcurrent]
      rfl
    rw [expr_eq]
    simp only [exprOf, hform]
    exact bind_done _ hlead

theorem tail?_of_binary {k : TokenKind} (hk : k ∈ TokenKind.binaryOperators) :
    ∃ p form, Vocabulary.full.tail? k = some (p, form) ∧ p.rank = k.level + 1 ∧ p < .call ∧
      ∀ operand left, exprOfTail operand left p form = binaryTail operand
        (if k ∈ TokenKind.comparisons then .comparison else .arithmetic) left p := by
  have h := (by decide : ∀ k ∈ TokenKind.binaryOperators,
    ∃ p ∈ [BindingPower.equality, .relational, .additive, .multiplicative],
      ∃ form ∈ [TailForm.comparison, .arithmetic], Vocabulary.full.tail? k = some (p, form) ∧
        p.rank = k.level + 1 ∧ p < .call ∧
          (form = .comparison ∧ k ∈ TokenKind.comparisons ∨
            form = .arithmetic ∧ k ∉ TokenKind.comparisons)) k hk
  obtain ⟨p, -, form, -, htail, hrank, hcall, ⟨rfl, hform⟩ | ⟨rfl, hform⟩⟩ := h
  · exact ⟨p, _, htail, hrank, hcall, fun _ _ => by rw [if_pos hform]; rfl⟩
  · exact ⟨p, _, htail, hrank, hcall, fun _ _ => by rw [if_neg hform]; rfl⟩

/-- An operator is taken if it binds tighter than what is read; its own power is that of its right
operand. -/
theorem tails_binary {b : BindingPower} {k : Token} (hk : k.kind ∈ TokenKind.binaryOperators)
    (hs : s.tokens = k :: w) :
    ∃ p : BindingPower, p.rank = k.kind.level + 1 ∧ p < .call ∧
      (¬ b < p → tails .full (expr .full) b e s = .done e s) ∧
      ∀ f t, b < p → expr .full p s.advance = .done f t →
        tails .full (expr .full) b e s = tails .full (expr .full) b
          (.binary (exprSite k.place)
            (if k.kind ∈ TokenKind.comparisons then .comparison else .arithmetic) k e f) t := by
  obtain ⟨p, form, htail, hrank, hcall, hform⟩ := tail?_of_binary hk
  have hcurrent := current_of_tokens hs
  have hnext : Vocabulary.full.tail? s.kind = some (p, form) := by
    rw [ParserState.kind, hcurrent, htail]
  refine ⟨p, hrank, hcall, fun hbp => tails_done fun p' form' h => ?_, fun f t hbp hf => ?_⟩
  · obtain ⟨rfl, -⟩ := Prod.mk.inj (Option.some.inj (hnext.symm.trans h))
    exact hbp
  · rw [tails_eq (.expr .full)]
    simp only [tailsOf, hnext, if_pos hbp, hform]
    refine bind_done _ ?_
    unfold binaryTail
    rw [bind_done _ (rfl : advance s = .done s.current s.advance), bind_done _ hf, hcurrent]
    rfl

/-- Neither a binary operator nor the arguments of a call come next. -/
def Ends (rest : List Token) : Prop :=
  ∀ t ∈ rest.head?, t.kind ∉ TokenKind.binaryOperators ∧ t.kind ≠ .openParen

theorem Ends.tail?_eq_none (hrest : Ends rest) (hs : s.tokens = rest) :
    Vocabulary.full.tail? s.kind = none := by
  cases rest with
  | nil =>
    rw [ParserState.kind, ParserState.current, hs]
    rfl
  | cons t ts =>
    have ht := hrest t rfl
    rw [ParserState.kind, current_of_tokens hs]
    revert ht
    cases t.kind <;> decide

theorem Ends.head?_ne_openParen (hrest : Ends rest) {ls : Links} (hls : ls.WellFormed) :
    ∀ t ∈ (ls.tokens ++ rest).head?, t.kind ≠ .openParen := by
  cases ls with
  | nil => exact fun t ht => (hrest t ht).2
  | cons l ls =>
    intro t ht
    obtain rfl := Option.some.inj ht
    have hk := (hls l List.mem_cons_self).1
    intro heq
    rw [heq] at hk
    exact absurd hk (by decide)

/-- In front of links whose operators bind no tighter than what was read last, the loop behind an
operand takes the links whose operators bind tighter than `b`. -/
theorem tails_links {b : BindingPower} {ls : Links} (hls : ls.WellFormed) {l : OperatorTree}
    (hl : l.Levelled) (hfits : ∀ k ∈ l.top?, ∀ x ∈ ls.head?, x.1.kind.level ≤ k.kind.level)
    (hrest : Ends rest) (hs : s.tokens = ls.tokens ++ rest) :
    ∃ (taken left : Links) (t : OperatorTree) (xs : List (Expr ⊕ Token)) (u : ParserState),
      ls = taken ++ left ∧ tails .full (expr .full) b l.toExpr s = .done t.toExpr u ∧
      u.tokens = left.tokens ++ rest ∧ taken.Give s xs u ∧ t.reading = l.reading ++ xs ∧
      t.Levelled ∧ (∀ x ∈ left.head?, x.1.kind.level < b.rank) ∧
      ∀ k ∈ t.top?, t = l ∨ b.rank ≤ k.kind.level := by
  induction hn : ls.length using Nat.strongRecOn generalizing ls l s b with
  | _ n ih =>
    cases ls with
    | nil =>
      refine ⟨[], [], l, [], s, rfl, tails_done fun p form h => ?_, hs, .nil,
        (List.append_nil _).symm, hl, by simp, fun k _ => .inl rfl⟩
      exact nomatch (hrest.tail?_eq_none hs).symm.trans h
    | cons link ls =>
      obtain ⟨k, f⟩ := link
      obtain ⟨⟨hk, hf⟩, hls'⟩ := List.forall_mem_cons.mp hls
      have hs' : s.tokens = k :: (f.tokens ++ (Links.tokens ls ++ rest)) := by
        simpa [Links.tokens] using hs
      change k.kind ∈ TokenKind.binaryOperators at hk
      obtain ⟨p, hrank, hcall, hstop, htake⟩ := tails_binary (b := b) (e := l.toExpr) hk hs'
      by_cases htakes : b < p
      · obtain ⟨e, v, he, hv, hexpr⟩ :=
          expr_factor hf (tokens_advance hs') (hrest.head?_ne_openParen hls')
        -- the right operand ends before an operator that does not bind tighter
        obtain ⟨taken, left, r, xs, u, rfl, hr, hu, hgive, hreading, hlevelled, hstops, htop⟩ :=
          ih ls.length (hn ▸ Nat.lt_succ_self _) (b := p) (l := .operand e) hls' trivial
            (fun k hk => nomatch hk) hv rfl
        have hright : ∀ j ∈ r.top?, k.kind.level < j.kind.level := by
          intro j hj
          rcases htop j hj with rfl | hle
          · exact nomatch hj
          · omega
        have hnode : (OperatorTree.node k l r).Levelled :=
          ⟨hl, hlevelled, fun j hj => hfits j hj _ rfl, hright⟩
        have hfits' : ∀ j ∈ (OperatorTree.node k l r).top?, ∀ x ∈ left.head?,
            x.1.kind.level ≤ j.kind.level := by
          intro j hj x hx
          obtain rfl := Option.some.inj hj
          have hlt := hstops x hx
          omega
        have hlength : left.length < n := by
          rw [← hn, List.length_cons, List.length_append]
          omega
        obtain ⟨taken', left', t, xs', u', rfl, ht, hu', hgive', hreading', ht', hstops', htop'⟩ :=
          ih left.length hlength (b := b) (l := .node k l r)
            (fun x hx => hls' x (List.mem_append_right _ hx)) hnode hfits' hu rfl
        refine ⟨(k, f) :: (taken ++ taken'), left', t, .inr k :: .inl e :: (xs ++ xs'), u',
          by simp, (htake _ _ htakes ((hexpr p hcall).trans hr)).trans ht, hu',
          .cons he (hgive.append hgive'), ?_, ht', hstops', ?_⟩
        · rw [hreading', OperatorTree.reading, hreading]
          simp [OperatorTree.reading]
        · intro j hj
          rcases htop' j hj with rfl | hle
          · obtain rfl := Option.some.inj hj
            have hlt : b.rank < p.rank := htakes
            exact .inr (by omega)
          · exact .inr hle
      · refine ⟨[], (k, f) :: ls, l, [], s, rfl, hstop htakes, hs, .nil,
          (List.append_nil _).symm, hl, fun x hx => ?_, fun k _ => .inl rfl⟩
        obtain rfl := Option.some.inj hx
        have hle : ¬ b.rank < p.rank := htakes
        change k.kind.level < b.rank
        omega

/-- A chain is read as a whole and as nothing but the levelled tree of its operands. -/
theorem expr_lowest_chain {c : Chain} (hc : c.WellFormed) (hrest : Ends rest)
    (hs : s.tokens = c.tokens ++ rest) :
    ∃ (t : OperatorTree) (u : ParserState), expr .full .lowest s = .done t.toExpr u ∧
      u.tokens = rest ∧ c.Gives s t.reading u ∧ t.Levelled ∧
      ∀ t' : OperatorTree, t'.Levelled → t'.reading = t.reading → t' = t := by
  obtain ⟨f, ls⟩ := c
  obtain ⟨hf, hls⟩ := hc
  have hs : s.tokens = f.tokens ++ (ls.tokens ++ rest) := by simpa [Chain.tokens] using hs
  obtain ⟨e, v, he, hv, hexpr⟩ := expr_factor hf hs (hrest.head?_ne_openParen hls)
  obtain ⟨taken, left, t, xs, u, rfl, ht, hu, hgive, hreading, hlevelled, hstops, -⟩ :=
    tails_links (b := .lowest) (l := .operand e) hls trivial (fun k hk => nomatch hk) hrest hv
  -- every operator binds tighter than the lowest power
  obtain rfl : left = [] := by
    cases left with
    | nil => rfl
    | cons x left => exact absurd (hstops x rfl) (Nat.not_lt_zero _)
  refine ⟨t, u, (hexpr .lowest (by decide)).trans ht, hu, ?_, hlevelled, fun t' ht' heq =>
    ht'.eq_of_reading_eq hlevelled heq⟩
  rw [hreading, List.append_nil taken]
  exact .intro he hgive

/-- Operators of three levels, with a prefix operator, a call and all forms of atoms. -/
theorem expr_lowest_chain_of_mixed :
    let k (kind : TokenKind) : Token := ⟨kind, .none, .origin⟩
    let c : Chain := ⟨⟨[], .literal (k .number), []⟩,
      [(k .minus, ⟨[k .minus], .group ⟨k .openParen, [k .identifier], k .closeParen⟩, []⟩),
        (k .star, ⟨[k .bang], .literal (k .identifier),
          [⟨k .openParen, [k .number], k .closeParen⟩]⟩),
        (k .less, ⟨[], .block ⟨k .openCurly, [], k .closeCurly⟩, []⟩)]⟩
    let s : ParserState := ⟨c.tokens ++ [k .semicolon], .origin, .initial, [], 0⟩
    c.WellFormed ∧ Ends [k .semicolon] ∧
      ∃ (t : OperatorTree) (u : ParserState), expr .full .lowest s = .done t.toExpr u ∧
        u.tokens = [k .semicolon] ∧ c.Gives s t.reading u ∧ t.Levelled ∧
        ∀ t' : OperatorTree, t'.Levelled → t'.reading = t.reading → t' = t := by
  intro k c s
  have none {P : Token → Prop} : ∀ t ∈ [], P t := List.forall_mem_nil P
  have number : TokenKind.number ∈ TokenKind.literals := by decide
  have identifier : TokenKind.identifier ∈ TokenKind.literals := by decide
  have negated : Factor.WellFormed
      ⟨[k .minus], .group ⟨k .openParen, [k .identifier], k .closeParen⟩, []⟩ :=
    ⟨List.forall_mem_singleton.mpr (by decide), ⟨rfl, .literal identifier, rfl⟩,
      List.forall_mem_nil _⟩
  have called : Factor.WellFormed ⟨[k .bang], .literal (k .identifier),
      [⟨k .openParen, [k .number], k .closeParen⟩]⟩ :=
    ⟨List.forall_mem_singleton.mpr (by decide), identifier,
      List.forall_mem_singleton.mpr ⟨1, rfl, .lastItem (.literal number), rfl⟩⟩
  have hc : c.WellFormed := by
    refine ⟨⟨none, number, List.forall_mem_nil _⟩, ?_⟩
    refine List.forall_mem_cons.mpr ⟨⟨by decide, negated⟩, ?_⟩
    refine List.forall_mem_cons.mpr ⟨⟨by decide, called⟩, ?_⟩
    exact List.forall_mem_singleton.mpr
      ⟨by decide, none, ⟨rfl, .noStmt, rfl⟩, List.forall_mem_nil _⟩
  have hrest : Ends [k .semicolon] := by
    intro t ht
    obtain rfl := Option.some.inj ht
    exact ⟨by decide, by decide⟩
  exact ⟨hc, hrest, expr_lowest_chain hc hrest rfl⟩

end Rule

end FrontEnd
