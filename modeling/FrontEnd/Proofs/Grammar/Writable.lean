import FrontEnd.Proofs.Grammar.Soundness
import FrontEnd.Proofs.Syntax.Rendering
import FrontEnd.Proofs.Token.Layout

/-! What is read from a source can be written down again: its tokens carry what their spelling
says, and its signatures are types of the table. -/

namespace FrontEnd

def Token.IsSpelled (t : Token) : Prop := ∃ text rest, Spelling t.kind t.payload text rest

namespace Token.IsSpelled

variable {t : Token}

theorem payload_of_symbol (h : t.IsSpelled) (hk : t.kind ∈ TokenKind.symbols) :
    t.payload = .none := by
  obtain ⟨text, rest, h⟩ := h
  generalize t.kind = k, t.payload = p at h hk
  cases h with
  | fixed _ => rfl
  | _ => exact absurd hk (by decide)

theorem name (h : t.IsSpelled) (hk : t.kind = .identifier) : t.IsName := by
  obtain ⟨text, rest, h⟩ := h
  obtain ⟨k, p, place⟩ := t
  obtain rfl : k = .identifier := hk
  cases h with
  | fixed h =>
    exact absurd h (by decide : ¬ (TokenKind.identifier ∈ TokenKind.symbols ∨
      TokenKind.identifier ∈ TokenKind.words))
  | @name c cs _ hc hcs hfree => exact ⟨rfl, rfl, ⟨c, cs, rfl, hc, hcs⟩, hfree⟩

theorem literal (h : t.IsSpelled) (hk : t.kind ∈ TokenKind.literals) : t.IsLiteral := by
  by_cases hname : t.kind = .identifier
  · exact .name (h.name hname)
  · obtain ⟨text, rest, h⟩ := h
    obtain ⟨k, p, place⟩ := t
    cases h with
    | fixed h =>
      have htruth : ∀ k ∈ TokenKind.literals, k ≠ .identifier →
          k ∈ TokenKind.symbols ∨ k ∈ TokenKind.words → k = .kwTrue ∨ k = .kwFalse := by decide
      exact .truth (htruth k hk hname h) rfl
    | name _ _ _ => exact absurd rfl hname
    | string h => exact .string rfl rfl (by rwa [String.toList_ofList])
    | number _ _ h => exact .number rfl rfl h
    | tooLarge _ _ _ | unterminated _ | unrecognised =>
      exact absurd hk (by decide : TokenKind.invalid ∉ TokenKind.literals)

end Token.IsSpelled

theorem Layout.isSpelled {front cs : List Char} {ts : List Token} (h : Layout front cs ts)
    {t : Token} (ht : t ∈ ts) (hk : t.kind ≠ .eof) : t.IsSpelled := by
  induction h with
  | finish _ =>
    obtain rfl := List.eq_of_mem_singleton ht
    exact absurd rfl hk
  | token _ hspelling _ _ _ ih =>
    rcases List.mem_cons.mp ht with rfl | ht
    · exact ⟨_, _, hspelling⟩
    · exact ih ht

theorem ReadList.name {w : List Token} {ps : List Token} (h : ReadList ReadName w ps)
    (hw : ∀ t ∈ w, t.IsSpelled) : ∀ t ∈ ps, t.IsName := by
  induction h with
  | nil => exact fun t ht => nomatch ht
  | singleton h =>
    obtain ⟨rfl, hk⟩ := h
    exact List.forall_mem_singleton.mpr ((List.forall_mem_singleton.mp hw).name hk)
  | cons _ h _ ih =>
    obtain ⟨rfl, hk⟩ := h
    simp only [List.forall_mem_append, List.forall_mem_cons] at hw
    exact List.forall_mem_cons.mpr ⟨hw.1.1.name hk, ih hw.2.2⟩

theorem Reads.index_lt_of_signature {T : TypeTable} (hT : T.Reachable) {w : List Token}
    {g : Option TypeId} (h : Reads T w (.signature g)) : ∀ t ∈ g, t.index < T.size := by
  cases h with
  | unsigned => exact fun t ht => nomatch ht
  | signed _ h =>
    intro t ht
    obtain rfl := Option.some.inj ht
    exact h.index_lt hT

theorem Node.Writable.name {T : TypeTable} {l : Expr} {n : Token}
    (h : Node.Writable T (.expr l)) (hn : l.name? = some n) :
    ∃ q, l = .leaf (Rule.exprSite q) .literal n ∧ n.IsName := by
  cases h with
  | @literal p t ht =>
    rw [Expr.name?] at hn
    split at hn
    next hk =>
      obtain rfl := Option.some.inj hn
      cases ht with
      | name h => exact ⟨p, rfl, h⟩
      | number hk' _ _ | string hk' _ _ => exact nomatch hk'.symm.trans hk
      | truth hk' _ => rcases hk' with hk' | hk' <;> exact nomatch hk'.symm.trans hk
    next => exact nomatch hn
  | _ => exact nomatch hn

/-- Writing concerns trees, not types alone. -/
def Node.IsWritable (T : TypeTable) : Node → Prop
  | .type _ | .types _ | .signature _ => True
  | a => Node.Writable T a

theorem Reads.isWritable {T : TypeTable} (hT : T.Reachable) {w : List Token} {a : Node}
    (h : Reads T w a) (hw : ∀ t ∈ w, t.IsSpelled) : a.IsWritable T := by
  induction h with
  | primitive _ | pointer _ _ _ _ | function _ _ _ _ _ _ _ _ | noType | lastType _ _
  | moreTypes _ _ _ _ _ | unsigned | signed _ _ _ => trivial
  | literal ht => exact .literal ((List.forall_mem_singleton.mp hw).literal ht)
  | group _ _ _ ih =>
    simp only [List.forall_mem_cons, List.forall_mem_append] at hw
    exact ih hw.2.1
  | block _ _ _ ih =>
    simp only [List.forall_mem_cons, List.forall_mem_append] at hw
    exact .block (ih hw.2.1)
  | ifThen _ _ _ _ ihc iha =>
    simp only [List.forall_mem_cons, List.forall_mem_append] at hw
    exact .ifThen (ihc hw.2.1) (iha hw.2.2.2)
  | ifElse _ _ _ _ _ _ ihc iha ihb =>
    simp only [List.forall_mem_cons, List.forall_mem_append] at hw
    exact .ifElse (ihc hw.2.1) (iha hw.2.2.2.1) (ihb hw.2.2.2.2.2)
  | returned _ _ ih | yielded _ _ ih => exact .result (ih (List.forall_mem_cons.mp hw).2)
  | prefixed hk _ ih =>
    rw [List.forall_mem_cons] at hw
    have hsymbol := (by decide : ∀ k ∈ TokenKind.prefixOperators, k ∈ TokenKind.symbols) _ hk
    exact .unary hk (hw.1.payload_of_symbol hsymbol) (ih hw.2)
  | @binary form k _ _ _ _ hk _ _ iha ihb =>
    simp only [List.forall_mem_cons, List.forall_mem_append] at hw
    have hsymbols : ∀ k ∈ form.operators, k ∈ TokenKind.symbols := by cases form <;> decide
    exact .binary hk (hw.2.1.payload_of_symbol (hsymbols _ hk)) (iha hw.1) (ihb hw.2.2)
  | call _ _ _ _ ihf ihas =>
    simp only [List.forall_mem_cons, List.forall_mem_append] at hw
    exact .call (ihf hw.1) (ihas hw.2.2.1)
  | noExpr => exact .noExpr
  | lastExpr _ ih => exact .moreExprs (ih hw) .noExpr
  | moreExprs _ _ _ ih ihs =>
    simp only [List.forall_mem_cons, List.forall_mem_append] at hw
    exact .moreExprs (ih hw.1) (ihs hw.2.2)
  | evaluated _ _ ih => exact .evaluated (ih (List.forall_mem_append.mp hw).1)
  | assigned _ _ hn _ _ ihl ihe =>
    simp only [List.forall_mem_cons, List.forall_mem_append] at hw
    obtain ⟨q, rfl, hname⟩ := Node.Writable.name (ihl hw.1) hn
    exact .assigned hname (ihe hw.2.2.1)
  | declared _ ih => exact .declared (ih hw)
  | noStmt => exact .noStmt
  | moreStmts _ _ ih ihs =>
    rw [List.forall_mem_append] at hw
    exact .moreStmts (ih hw.1) (ihs hw.2)
  | var _ hn _ _ hg _ _ ih =>
    simp only [List.forall_mem_cons, List.forall_mem_append] at hw
    exact .var (hw.2.2.1.name hn) (hg.index_lt_of_signature hT) (ih hw.2.2.2.2.1)
  | fn _ hn _ _ _ _ hfits _ hps _ _ ih =>
    simp only [List.forall_mem_cons, List.forall_mem_append] at hw
    exact .fn (hw.2.2.1.name hn) hfits (hps.name hw.2.2.2.2.1) (ih hw.2.2.2.2.2.2.2.1)
  | noDecl => exact .noDecl
  | moreDecls _ _ ih ihs =>
    rw [List.forall_mem_append] at hw
    exact .moreDecls (ih hw.1) (ihs hw.2)

theorem isSpelled_of_mem_tokenize {source : String} {t : Token}
    (h : t ∈ (tokenize source).dropLast) : t.IsSpelled := by
  have hlayout : Layout [] source.toList (tokenize source) := layout_tokensFrom [] source.toList
  exact hlayout.isSpelled ((List.dropLast_subset _) h) (kind_ne_eof_of_mem_tokenize h)

theorem Program.writable_of_parse {source : String} {T T' : TypeTable} {p : Program}
    (hT : T.Reachable) (h : parse source T = (.ok p, T')) : p.Writable T' := by
  obtain ⟨hscope, hreads, _, hT'⟩ := reads_of_parse h
  exact ⟨hreads.isWritable (hT' hT) fun _ ht => isSpelled_of_mem_tokenize ht, hscope⟩

end FrontEnd
