import FrontEnd.Proofs.Grammar.Unwrapping
import FrontEnd.Proofs.Token.Respelling

/-! Reading undoes writing. Every word of a written program is read as its letters, the blanks
between them keep them apart, and the grammar makes the same tree of the letters again. -/

namespace FrontEnd

variable {T : TypeTable}

/-- The text of the word is read as its letters. -/
def Word.Legible (T : TypeTable) (w : Word) : Prop := Lexes (w.shown T).toList (w.letters T)

namespace Word.Legible

theorem type (t : TypeId) : (Word.type t).Legible T := T.lexes_shownWithin _ t

theorem of_spelling {t : Token} (h : Spelling t.kind t.payload t.shown.toList [])
    (hk : t.kind ≠ .invalid) : (Word.token t).Legible T := Lexes.of_spelling h hk

theorem plain {t : Token} (hp : t.payload = .none)
    (hk : t.kind ∈ TokenKind.symbols ∨ t.kind ∈ TokenKind.words) : (Word.token t).Legible T := by
  have hspelling : Spelling t.kind t.payload t.shown.toList [] := by
    simp only [Token.shown, hp]
    exact .fixed hk
  refine of_spelling hspelling ?_
  intro hinvalid
  rw [hinvalid] at hk
  exact absurd hk (by decide)

theorem fixed {k : TokenKind} (hk : k ∈ TokenKind.symbols ∨ k ∈ TokenKind.words) :
    (Word.fixed k).Legible T := plain rfl hk

theorem name {t : Token} (h : t.IsName) : (Word.token t).Legible T := by
  obtain ⟨c, cs, htext, hc, hcs⟩ := h.spelled
  have hspelling : Spelling t.kind t.payload t.shown.toList [] := by
    have hshown : t.shown = t.text := by
      simp [Token.shown, h.payload, h.kind]
    rw [hshown, h.payload, h.kind, htext, String.toList_ofList]
    exact .name hc hcs fun k hk => htext ▸ h.free k hk
  exact of_spelling hspelling (by simp [h.kind])

theorem number {t : Token} {n : Nat} (hk : t.kind = .number) (hp : t.payload = .int n)
    (hn : n < 2 ^ 63) : (Word.token t).Legible T := by
  have hdigits : (toString (n : Int)).toList = Nat.toDigits 10 n := by
    show (toString n).toList = Nat.toDigits 10 n
    rw [Nat.toString_eq_ofList_toDigits, String.toList_ofList]
  have hvalue : Lexeme.decimal (Nat.toDigits 10 n) = n := by
    rw [Lexeme.decimal, ← Nat.ofDigitChars_eq_foldl, Nat.ofDigitChars_ten_toDigits]
  have hspelling : Spelling .number (.int (Lexeme.decimal (Nat.toDigits 10 n)))
      (Nat.toDigits 10 n) [] :=
    .number Nat.toDigits_ne_nil (fun d hd => Nat.isDigit_of_mem_toDigits (by decide) (by decide) hd)
      (hvalue.symm ▸ hn)
  rw [hvalue, ← hdigits] at hspelling
  refine of_spelling ?_ (by simp [hk])
  simp only [Token.shown, hk, hp]
  exact hspelling

theorem string {t : Token} {s : String} (hk : t.kind = .string) (hp : t.payload = .text s)
    (hs : '"' ∉ s.toList) : (Word.token t).Legible T := by
  have hspelling : Spelling .string (.text (String.ofList s.toList))
      ('"' :: (s.toList ++ ['"'])) [] := .string hs
  rw [String.ofList_toList] at hspelling
  refine of_spelling ?_ (by simp [hk])
  simp only [Token.shown, hk, hp, if_true, String.toList_append]
  exact hspelling

theorem literal {t : Token} (h : t.IsLiteral) : (Word.token t).Legible T := by
  cases h with
  | name h => exact .name h
  | number hk hp hn => exact .number hk hp hn
  | string hk hp hs => exact .string hk hp hs
  | truth hk hp =>
    refine .plain hp (.inr ?_)
    rcases hk with hk | hk <;> rw [hk] <;> decide

end Word.Legible

section Words

variable {ws : List Word} {wss : List (List Word)}

theorem legible_inParens (h : ∀ w ∈ ws, w.Legible T) : ∀ w ∈ inParens ws, w.Legible T := by
  simp only [inParens, List.forall_mem_cons, List.forall_mem_append]
  exact ⟨.fixed (by decide), h, .fixed (by decide), List.forall_mem_nil _⟩

theorem legible_separated (h : ∀ w ∈ wss.flatten, w.Legible T) :
    ∀ w ∈ separated wss, w.Legible T := by
  unfold separated
  induction wss with
  | nil => exact List.forall_mem_nil _
  | cons ws wss ih =>
    rw [List.flatten_cons, List.forall_mem_append] at h
    cases wss with
    | nil => simpa using h.1
    | cons vs wss =>
      rw [List.intercalate_cons_cons]
      simp only [List.forall_mem_append, List.forall_mem_singleton]
      exact ⟨⟨h.1, .fixed (by decide)⟩, ih h.2⟩

theorem legible_signatureWords (g : Option TypeId) : ∀ w ∈ signatureWords g, w.Legible T := by
  cases g with
  | none => exact List.forall_mem_nil _
  | some t =>
    simp only [signatureWords, List.forall_mem_cons]
    exact ⟨.fixed (by decide), .type t, List.forall_mem_nil _⟩

end Words

def Node.words : Node → List Word
  | .expr e => e.words
  | .exprs es => (Expr.wordsOfEach es).flatten
  | .stmt s => s.words
  | .stmts ss => Stmt.wordsOfAll ss
  | .decl d => d.words
  | .decls ds => Decl.wordsOfAll ds
  | .type _ | .types _ | .signature _ => []

theorem legible_operator {form : BinaryForm} {k : Token} (hk : k.kind ∈ form.operators)
    (hp : k.payload = .none) : (Word.token k).Legible T := by
  refine .plain hp (.inl ?_)
  have hsymbols : ∀ k ∈ form.operators, k ∈ TokenKind.symbols := by cases form <;> decide
  exact hsymbols k.kind hk

theorem legible_prefixOperator {k : Token} (hk : k.kind ∈ TokenKind.prefixOperators)
    (hp : k.payload = .none) : (Word.token k).Legible T :=
  .plain hp (.inl ((by decide : ∀ k ∈ TokenKind.prefixOperators, k ∈ TokenKind.symbols) k.kind hk))

theorem legible_names {ps : List Token} (h : ∀ t ∈ ps, t.IsName) :
    ∀ w ∈ separated (ps.map fun p => [.token p]), w.Legible T := by
  refine legible_separated fun w hw => ?_
  simp only [List.mem_flatten, List.mem_map, exists_exists_and_eq_and, List.mem_singleton] at hw
  obtain ⟨t, ht, rfl⟩ := hw
  exact .name (h t ht)

/-- Every word of a tree that the grammar can produce is read as its letters. -/
theorem Node.Writable.legible {a : Node} (h : Node.Writable T a) : ∀ w ∈ a.words, w.Legible T := by
  have hnone : ∀ w ∈ ([] : List Word), w.Legible T := List.forall_mem_nil _
  induction h with
  | literal ht =>
    exact List.forall_mem_singleton.mpr (.literal ht)
  | binary hk hp _ _ iha ihb =>
    simp only [Node.words, Expr.words, List.forall_mem_append, List.forall_mem_cons] at iha ihb ⊢
    exact ⟨legible_inParens iha, legible_operator hk hp, legible_inParens ihb⟩
  | unary hk hp _ iha =>
    simp only [Node.words, Expr.words, List.forall_mem_cons] at iha ⊢
    exact ⟨legible_prefixOperator hk hp, legible_inParens iha⟩
  | call _ _ ihf ihas =>
    simp only [Node.words, Expr.words, List.forall_mem_append, List.forall_mem_cons] at ihf ihas ⊢
    exact ⟨legible_inParens ihf, .fixed (by decide), legible_separated ihas, .fixed (by decide),
      hnone⟩
  | block _ ih =>
    simp only [Node.words, Expr.words, List.forall_mem_append, List.forall_mem_cons] at ih ⊢
    exact ⟨.fixed (by decide), ih, .fixed (by decide), hnone⟩
  | ifThen _ _ ihc iha =>
    simp only [Node.words, Expr.words, List.forall_mem_append, List.forall_mem_cons] at ihc iha ⊢
    exact ⟨.fixed (by decide), legible_inParens ihc, .fixed (by decide), legible_inParens iha⟩
  | ifElse _ _ _ ihc iha ihb =>
    simp only [Node.words, Expr.words, List.forall_mem_append, List.forall_mem_cons]
      at ihc iha ihb ⊢
    exact ⟨.fixed (by decide), legible_inParens ihc, .fixed (by decide), legible_inParens iha,
      .fixed (by decide), legible_inParens ihb⟩
  | @result _ form _ _ ih =>
    simp only [Node.words, Expr.words, List.forall_mem_cons] at ih ⊢
    exact ⟨.fixed (by cases form <;> decide), legible_inParens ih⟩
  | noExpr | noStmt | noDecl => exact hnone
  | moreExprs _ _ ih ihs =>
    simp only [Node.words, Expr.wordsOfEach, List.flatten_cons, List.forall_mem_append] at ih ihs ⊢
    exact ⟨legible_inParens ih, ihs⟩
  | evaluated _ ih =>
    simp only [Node.words, Stmt.words, List.forall_mem_append, List.forall_mem_cons] at ih ⊢
    exact ⟨ih, .fixed (by decide), hnone⟩
  | assigned hn _ ih =>
    simp only [Node.words, Stmt.words, Expr.words, List.forall_mem_append, List.forall_mem_cons]
      at ih ⊢
    exact ⟨⟨.name hn, hnone⟩, .fixed (by decide), ih, .fixed (by decide), hnone⟩
  | declared _ ih => exact ih
  | moreStmts _ _ ih ihs =>
    simp only [Node.words, Stmt.wordsOfAll, List.forall_mem_append] at ih ihs ⊢
    exact ⟨ih, ihs⟩
  | @var _ _ n g e hn _ _ ih =>
    simp only [Node.words, Decl.words, List.forall_mem_append, List.forall_mem_cons] at ih ⊢
    exact ⟨legible_signatureWords g, .fixed (by decide), .name hn, .fixed (by decide),
      legible_inParens ih, .fixed (by decide), hnone⟩
  | @fn _ n g ps e hn _ hps _ ih =>
    simp only [Node.words, Decl.words, List.forall_mem_append, List.forall_mem_cons] at ih ⊢
    exact ⟨legible_signatureWords g, .fixed (by decide), .name hn, .fixed (by decide),
      legible_names hps, .fixed (by decide), .fixed (by decide), ih, .fixed (by decide), hnone⟩
  | moreDecls _ _ ih ihs =>
    simp only [Node.words, Decl.wordsOfAll, List.flatMap_cons, List.forall_mem_append] at ih ihs ⊢
    exact ⟨ih, ihs⟩

/-- Words with a blank behind each are read as their letters, and nothing is left. -/
theorem tokensFrom_words {ws : List Word} (h : ∀ w ∈ ws, w.Legible T) (p : Position) :
    ∃ ts q, ts.map Token.letter = lettersOf T ws ∧
      tokensFrom p (ws.flatMap fun w => (w.shown T).toList ++ [' ']) = ts ++ [.endAt q] := by
  induction ws generalizing p with
  | nil => exact ⟨[], p, rfl, by rw [tokensFrom]; rfl⟩
  | cons w ws ih =>
    rw [List.forall_mem_cons] at h
    obtain ⟨ts, q, hts, htokens⟩ := h.1 p ' ' (ws.flatMap fun w => (w.shown T).toList ++ [' '])
      (by decide)
    obtain ⟨us, r, hus, htokens'⟩ := ih h.2 (q.after ' ')
    refine ⟨ts ++ us, r, ?_, ?_⟩
    · rw [List.map_append, hts, hus]
      rfl
    · rw [List.flatMap_cons, List.append_assoc, List.singleton_append, htokens, tokensFrom_blank,
        htokens', List.append_assoc]

namespace Program

theorem toList_render (p : Program) (T : TypeTable) :
    (p.render T).toList =
      (Decl.wordsOfAll p.decls).flatMap fun w => (w.shown T).toList ++ [' '] := by
  rw [render, String.toList_join, List.flatMap_map]
  simp only [String.toList_append]
  rfl

theorem ofSource_render {p : Program} (hp : p.Writable T) (T₀ : TypeTable) :
    (ParserState.ofSource (p.render T) T₀).letters = lettersOf T (Decl.wordsOfAll p.decls) := by
  obtain ⟨ts, q, hts, htokens⟩ := tokensFrom_words hp.decls.legible .origin
  have htokenize : tokenize (p.render T) = ts ++ [.endAt q] := by
    rw [tokenize, toList_render]
    exact htokens
  simp only [ParserState.letters, ParserState.ofSource, ParserState.ofTokens, htokenize,
    List.dropLast_concat, hts]
  rfl

/-- A written program is read without a fault, into whatever table its signatures are entered: as a
program that is the same up to places, with signatures that are built alike. In a table that has
the types of the old program they are the same types. -/
theorem parse_render {p : Program} {T T₀ : TypeTable} (hT : T.Reachable) (hT₀ : T₀.Reachable)
    (hp : p.Writable T) :
    ∃ q U, parse (p.render T) T₀ = (.ok q, U) ∧ T₀.Grows U ∧
      p.Like (fun _ _ => True) (T.Matches U) q ∧
      (T.Grows T₀ → p.Like (fun _ _ => True) (fun t u => U.same t u) q) := by
  obtain ⟨ds, s, hds, hreported, hgrows, hlike⟩ :=
    Rule.declarations_rebuilds hT hp.decls hT₀.grows_initial (ofSource_render hp T₀)
  have hparse : parse (p.render T) T₀ = (.ok { decls := ds }, s.types) := by
    have hnone : s.reported = [] := hreported
    simp only [parse, ofState, hds, hnone]
  refine ⟨{ decls := ds }, s.types, hparse, hgrows, ⟨hlike, hp.scope⟩, fun hgrown => ?_⟩
  exact ⟨hlike.mono fun _ _ h => h.same hT (hgrown.trans hgrows), hp.scope⟩

theorem parse_render_of_recursive_function :
    ∃ (p : Program) (T : TypeTable), T.Reachable ∧ p.Writable T ∧
      p.render T = "of [Int] -> Int fun f ( n ) = - ( ( f ) ( ( n ) ) ) ; " ∧
      ∃ q U, parse (p.render T) .initial = (.ok q, U) ∧
        p.Like (fun _ _ => True) (T.Matches U) q := by
  have hname (s : String) (c : Char) (hs : s = String.ofList [c])
      (hc : Lexeme.isWordStart c = true) (hfree : ∀ k ∈ TokenKind.words, k.spelling ≠ s) :
      Token.IsName ⟨.identifier, .text s, .origin⟩ :=
    ⟨rfl, rfl, ⟨c, [], hs, hc, List.forall_mem_nil _⟩, hfree⟩
  have hf := hname "f" 'f' rfl (by decide) (by decide)
  have hn := hname "n" 'n' rfl (by decide) (by decide)
  let T := (TypeTable.initial.function [TypeTable.int] TypeTable.int).2
  have hT : T.Reachable := .function .initial (by decide) (by decide)
  have hfits : T.Fits (some ⟨4⟩) 1 := by
    intro t ht
    obtain rfl := Option.some.inj ht
    exact ⟨[TypeTable.int], TypeTable.int, rfl, rfl⟩
  have hbody := Node.Writable.unary (T := T) (p := .origin) (k := ⟨.minus, .none, .origin⟩)
    (by decide) rfl (.call (p := .origin) (.literal (p := .origin) (.name hf))
      (.moreExprs (.literal (p := .origin) (.name hn)) .noExpr))
  have hp : Program.Writable ⟨[.fn (Rule.site .origin) ⟨.identifier, .text "f", .origin⟩
      (some ⟨4⟩) [⟨.identifier, .text "n", .origin⟩] _], none⟩ T :=
    ⟨.moreDecls (.fn hf hfits (List.forall_mem_singleton.mpr hn) hbody) .noDecl, rfl⟩
  obtain ⟨q, U, hparse, _, hlike, _⟩ := parse_render hT .initial hp
  exact ⟨_, T, hT, hp, by decide +kernel, q, U, hparse, hlike⟩

end Program

end FrontEnd
