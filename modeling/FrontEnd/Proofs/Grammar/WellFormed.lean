import Mathlib
import FrontEnd.Proofs.Grammar.Writable
import FrontEnd.Proofs.Syntax.Visits

/-! The trees that the grammar builds. Every node is as the passes behind the grammar take it to be,
and the tokens that the tree holds are those of the source, in the same order. -/

namespace FrontEnd

/-- Leaves are literals, and operators are those of the form. -/
def Expr.WellShaped : Expr → Prop
  | .leaf _ form k => form = .literal ∧ k.IsLiteral
  | .binary _ form k _ _ => k.kind ∈ form.operators
  | .unary _ k _ => k.kind ∈ TokenKind.prefixOperators
  | _ => True

/-- What can be said of a single expression; no scope and no type are on it yet. -/
structure Expr.WellFormed (e : Expr) : Prop where
  scope : e.scope = none
  type : e.type = none
  shape : e.WellShaped

/-- What can be said of a single node. What is assigned to is a name, and a signature of a function
has an argument for each parameter. -/
def Node.WellFormed (T : TypeTable) : Node → Prop
  | .expr e => e.WellFormed
  | .stmt (.assign s l _) => s.scope = none ∧ ∃ t k, l = .leaf t .literal k ∧ k.kind = .identifier
  | .stmt s => s.site.scope = none
  | .decl (.fn s _ g ps _) => s.scope = none ∧ T.Fits g ps.length
  | .decl d => d.site.scope = none
  | _ => True

theorem Expr.WellFormed.target {l : Expr} {n : Token} (h : l.WellFormed) (hn : l.name? = some n) :
    ∃ t k, l = .leaf t .literal k ∧ k.kind = .identifier := by
  cases l with
  | leaf s form k =>
    obtain ⟨rfl, -⟩ := h.shape
    rw [Expr.name?] at hn
    split at hn
    next hk => exact ⟨s, k, rfl, hk⟩
    next => cases hn
  | _ => cases hn

/-- Nodes are read well formed, whatever is in the table. -/
theorem Reads.wellFormed {T : TypeTable} {w : List Token} {a : Node} (h : Reads T w a)
    (hw : ∀ t ∈ w, t.IsSpelled) : a.Everywhere (Node.WellFormed T) := by
  induction h with
  | primitive | pointer | function | noType | lastType | moreTypes | unsigned | signed =>
    exact fun _ hb => nomatch hb
  | noExpr | noStmt | noDecl => exact fun _ hb => nomatch hb
  | literal ht =>
    exact Node.everywhere_leaf.mpr ⟨rfl, rfl, rfl, (List.forall_mem_singleton.mp hw).literal ht⟩
  | group _ _ _ ih =>
    simp only [List.forall_mem_cons, List.forall_mem_append] at hw
    exact ih hw.2.1
  | block _ _ _ ih =>
    simp only [List.forall_mem_cons, List.forall_mem_append] at hw
    exact Node.everywhere_block.mpr ⟨⟨rfl, rfl, trivial⟩, ih hw.2.1⟩
  | ifThen _ _ _ _ ihc iha =>
    simp only [List.forall_mem_cons, List.forall_mem_append] at hw
    exact Node.everywhere_ifThen.mpr ⟨⟨rfl, rfl, trivial⟩, ihc hw.2.1, iha hw.2.2.2⟩
  | ifElse _ _ _ _ _ _ ihc iha ihb =>
    simp only [List.forall_mem_cons, List.forall_mem_append] at hw
    exact Node.everywhere_ifElse.mpr
      ⟨⟨rfl, rfl, trivial⟩, ihc hw.2.1, iha hw.2.2.2.1, ihb hw.2.2.2.2.2⟩
  | returned _ _ ih | yielded _ _ ih =>
    exact Node.everywhere_result.mpr ⟨⟨rfl, rfl, trivial⟩, ih (List.forall_mem_cons.mp hw).2⟩
  | prefixed hk _ ih =>
    exact Node.everywhere_unary.mpr ⟨⟨rfl, rfl, hk⟩, ih (List.forall_mem_cons.mp hw).2⟩
  | binary hk _ _ ihl ihr =>
    simp only [List.forall_mem_cons, List.forall_mem_append] at hw
    exact Node.everywhere_binary.mpr ⟨⟨rfl, rfl, hk⟩, ihl hw.1, ihr hw.2.2⟩
  | call _ _ _ _ ihf ihas =>
    simp only [List.forall_mem_cons, List.forall_mem_append] at hw
    exact Node.everywhere_call.mpr ⟨⟨rfl, rfl, trivial⟩, ihf hw.1, ihas hw.2.2.1⟩
  | lastExpr _ ih => exact Node.everywhere_moreExprs.mpr ⟨ih hw, Node.everywhere_noExpr⟩
  | moreExprs _ _ _ ih ihs =>
    simp only [List.forall_mem_cons, List.forall_mem_append] at hw
    exact Node.everywhere_moreExprs.mpr ⟨ih hw.1, ihs hw.2.2⟩
  | evaluated _ _ ih =>
    exact Node.everywhere_evaluated.mpr ⟨rfl, ih (List.forall_mem_append.mp hw).1⟩
  | assigned _ _ hn _ _ ihl ihe =>
    simp only [List.forall_mem_cons, List.forall_mem_append] at hw
    have hl := ihl hw.1
    exact Node.everywhere_assigned.mpr
      ⟨⟨rfl, Expr.WellFormed.target hl.self hn⟩, hl, ihe hw.2.2.1⟩
  | declared _ ih => exact Node.everywhere_declared.mpr ⟨rfl, ih hw⟩
  | moreStmts _ _ ih ihs =>
    rw [List.forall_mem_append] at hw
    exact Node.everywhere_moreStmts.mpr ⟨ih hw.1, ihs hw.2⟩
  | var _ _ _ _ _ _ _ ih =>
    simp only [List.forall_mem_cons, List.forall_mem_append] at hw
    exact Node.everywhere_var.mpr ⟨rfl, ih hw.2.2.2.2.1⟩
  | fn _ _ _ _ _ _ hfits _ _ _ _ ih =>
    simp only [List.forall_mem_cons, List.forall_mem_append] at hw
    exact Node.everywhere_fn.mpr ⟨⟨rfl, hfits⟩, ih hw.2.2.2.2.2.2.2.1⟩
  | moreDecls _ _ ih ihs =>
    rw [List.forall_mem_append] at hw
    exact Node.everywhere_moreDecls.mpr ⟨ih hw.1, ihs hw.2⟩

/-- The tokens that are operands and operators of expressions, or names. -/
def TokenKind.spoken : List TokenKind := literals ++ (binaryOperators ++ prefixOperators)

/-- A signature reaches from its first word to the word that says what is declared. The flag tells
whether the tokens start inside of one. -/
def outsideSignatures : Bool → List Token → List Token
  | _, [] => []
  | true, t :: ts =>
    if t.kind = .kwVar ∨ t.kind = .kwFun then t :: outsideSignatures false ts
    else outsideSignatures true ts
  | false, t :: ts =>
    if t.kind = .kwOf then outsideSignatures true ts else t :: outsideSignatures false ts

/-- The names, literals and operators among the tokens of a source. -/
def spokenTokens (ts : List Token) : List Token :=
  (outsideSignatures false ts).filter fun t => t.kind ∈ TokenKind.spoken

section Spoken

mutual

/-- The tokens that an expression holds, from left to right. -/
def Expr.tokens : Expr → List Token
  | .leaf _ _ t => [t]
  | .binary _ _ k l r => l.tokens ++ k :: r.tokens
  | .unary _ k e => k :: e.tokens
  | .call _ f as => f.tokens ++ Expr.tokensOfAll as
  | .block _ ss => Stmt.tokensOfAll ss
  | .ifThen _ c a => c.tokens ++ a.tokens
  | .ifElse _ c a b => c.tokens ++ (a.tokens ++ b.tokens)
  | .result _ _ e => e.tokens

def Expr.tokensOfAll : List Expr → List Token
  | [] => []
  | e :: es => e.tokens ++ Expr.tokensOfAll es

def Stmt.tokens : Stmt → List Token
  | .expr _ e => e.tokens
  | .assign _ l e => l.tokens ++ e.tokens
  | .decl _ d => d.tokens

def Stmt.tokensOfAll : List Stmt → List Token
  | [] => []
  | s :: ss => s.tokens ++ Stmt.tokensOfAll ss

def Decl.tokens : Decl → List Token
  | .var _ n _ e _ => n :: e.tokens
  | .fn _ n _ ps e => n :: (ps ++ e.tokens)

end

def Program.tokens (p : Program) : List Token := p.decls.flatMap Decl.tokens

variable {t : Token} {ts w : List Token}

theorem spokenTokens_of_mem (h : t.kind ∈ TokenKind.spoken) :
    spokenTokens (t :: ts) = t :: spokenTokens ts := by
  have hof : t.kind ≠ .kwOf := fun he => absurd (he ▸ h) (by decide)
  simp [spokenTokens, outsideSignatures, hof, h]

theorem spokenTokens_of_not_mem (h : t.kind ∉ TokenKind.spoken) (hof : t.kind ≠ .kwOf) :
    spokenTokens (t :: ts) = spokenTokens ts := by
  simp [spokenTokens, outsideSignatures, hof, h]

theorem outsideSignatures_append (h : ∀ t ∈ w, t.kind ≠ .kwVar ∧ t.kind ≠ .kwFun) :
    outsideSignatures true (w ++ ts) = outsideSignatures true ts := by
  induction w with
  | nil => rfl
  | cons t w ih =>
    obtain ⟨⟨hvar, hfun⟩, hw⟩ := List.forall_mem_cons.mp h
    simp only [List.cons_append, outsideSignatures, hvar, hfun, or_self, if_false, ih hw]

theorem spokenTokens_signature {k : Token} (hk : k.kind = .kwOf)
    (h : ∀ t ∈ w, t.kind ≠ .kwVar ∧ t.kind ≠ .kwFun) (ht : t.kind = .kwVar ∨ t.kind = .kwFun) :
    spokenTokens (k :: (w ++ t :: ts)) = spokenTokens ts := by
  have hspoken : t.kind ∉ TokenKind.spoken := by rcases ht with ht | ht <;> rw [ht] <;> decide
  simp only [spokenTokens, outsideSignatures, hk, if_true, outsideSignatures_append h, ht,
    List.filter_cons, hspoken, decide_false, Bool.false_eq_true, if_false]

theorem spokenTokens_names {ps : List Token} (h : ReadList ReadName w ps) :
    spokenTokens (w ++ ts) = ps ++ spokenTokens ts := by
  induction h with
  | nil => rfl
  | singleton h =>
    obtain ⟨rfl, hk⟩ := h
    exact spokenTokens_of_mem (by rw [hk]; decide)
  | @cons w ws k a b as hk h _ ih =>
    obtain ⟨rfl, ha⟩ := h
    have hcomma : k.kind ∉ TokenKind.spoken := by rw [hk]; decide
    calc spokenTokens (([a] ++ k :: ws) ++ ts)
        = a :: spokenTokens (k :: (ws ++ ts)) := by
          rw [List.append_assoc]
          exact spokenTokens_of_mem (by rw [ha]; decide)
      _ = a :: spokenTokens (ws ++ ts) := by
          rw [spokenTokens_of_not_mem hcomma (by rw [hk]; decide)]
      _ = _ := by rw [ih]; rfl

end Spoken

/-- What tokens `w` have to do with the node read from them: no signature is over before its end,
and all else holds the tokens that count, whatever follows. -/
def Node.Holds (w : List Token) : Node → Prop
  | .type _ | .types _ => ∀ t ∈ w, t.kind ≠ .kwVar ∧ t.kind ≠ .kwFun
  | .signature _ => ∀ t ts, t.kind = .kwVar ∨ t.kind = .kwFun →
    spokenTokens (w ++ t :: ts) = spokenTokens ts
  | .expr e => ∀ ts, spokenTokens (w ++ ts) = e.tokens ++ spokenTokens ts
  | .exprs es => ∀ ts, spokenTokens (w ++ ts) = Expr.tokensOfAll es ++ spokenTokens ts
  | .stmt s => ∀ ts, spokenTokens (w ++ ts) = s.tokens ++ spokenTokens ts
  | .stmts ss => ∀ ts, spokenTokens (w ++ ts) = Stmt.tokensOfAll ss ++ spokenTokens ts
  | .decl d => ∀ ts, spokenTokens (w ++ ts) = d.tokens ++ spokenTokens ts
  | .decls ds => ∀ ts, spokenTokens (w ++ ts) = ds.flatMap Decl.tokens ++ spokenTokens ts

theorem Reads.holds {T : TypeTable} {w : List Token} {a : Node} (h : Reads T w a) : a.Holds w := by
  -- a token of a kind that does not count
  have hskip {t : Token} {k : TokenKind} (hk : t.kind = k) (h : k ∉ TokenKind.spoken)
      (hof : k ≠ .kwOf) (ts : List Token) : spokenTokens (t :: ts) = spokenTokens ts :=
    spokenTokens_of_not_mem (hk ▸ h) (hk ▸ hof)
  induction h with
  | @primitive k _ hk =>
    refine List.forall_mem_singleton.mpr ⟨?_, ?_⟩ <;>
    · intro he
      rw [he] at hk
      exact nomatch hk
  | pointer hk _ _ ih => exact List.forall_mem_cons.mpr ⟨by simp [hk], ih⟩
  | function ho hc hk _ _ _ ih ih' =>
    simp only [Node.Holds, List.forall_mem_cons, List.forall_mem_append] at ih ih' ⊢
    exact ⟨by simp [ho], ih, by simp [hc], by simp [hk], ih'⟩
  | noType => exact List.forall_mem_nil _
  | lastType _ ih => exact ih
  | moreTypes hk _ _ ih ih' =>
    simp only [Node.Holds, List.forall_mem_cons, List.forall_mem_append] at ih ih' ⊢
    exact ⟨ih, by simp [hk], ih'⟩
  | unsigned =>
    intro t ts ht
    rcases ht with ht | ht <;> exact hskip ht (by decide) (by decide) ts
  | signed hk _ ih => exact fun t ts ht => spokenTokens_signature hk ih ht
  | literal ht =>
    exact fun ts => spokenTokens_of_mem (List.mem_append_left _ ht)
  | group ho hc _ ih =>
    intro ts
    simp only [List.cons_append, List.append_assoc, List.nil_append]
    rw [hskip ho (by decide) (by decide), ih, hskip hc (by decide) (by decide)]
  | block ho hc _ ih =>
    intro ts
    simp only [List.cons_append, List.append_assoc, List.nil_append]
    rw [hskip ho (by decide) (by decide), ih, hskip hc (by decide) (by decide), Expr.tokens]
  | ifThen hi hk _ _ ihc iha =>
    intro ts
    simp only [List.cons_append, List.append_assoc]
    rw [hskip hi (by decide) (by decide), ihc, hskip hk (by decide) (by decide), iha, Expr.tokens,
      List.append_assoc]
  | ifElse hi hk hl _ _ _ ihc iha ihb =>
    intro ts
    simp only [List.cons_append, List.append_assoc]
    rw [hskip hi (by decide) (by decide), ihc, hskip hk (by decide) (by decide), iha,
      hskip hl (by decide) (by decide), ihb, Expr.tokens, List.append_assoc, List.append_assoc]
  | returned hk _ ih | yielded hk _ ih =>
    intro ts
    rw [List.cons_append, hskip hk (by decide) (by decide), ih, Expr.tokens]
  | prefixed hk _ ih =>
    intro ts
    rw [List.cons_append, spokenTokens_of_mem
      (List.mem_append_right _ (List.mem_append_right _ hk)), ih, Expr.tokens, List.cons_append]
  | @binary form k _ _ _ _ hk _ _ ihl ihr =>
    intro ts
    have hspoken : ∀ k ∈ form.operators, k ∈ TokenKind.spoken := by cases form <;> decide
    simp only [List.cons_append, List.append_assoc, Expr.tokens]
    rw [ihl, spokenTokens_of_mem (hspoken _ hk), ihr]
  | call ho hc _ _ ihf ihas =>
    intro ts
    simp only [List.cons_append, List.append_assoc, List.nil_append, Expr.tokens]
    rw [ihf, hskip ho (by decide) (by decide), ihas, hskip hc (by decide) (by decide)]
  | noExpr | noStmt | noDecl => exact fun ts => rfl
  | lastExpr _ ih =>
    intro ts
    simp only [ih ts, Expr.tokensOfAll, List.append_nil]
  | moreExprs hk _ _ ih ihs =>
    intro ts
    simp only [List.cons_append, List.append_assoc]
    rw [ih, hskip hk (by decide) (by decide), ihs, ← List.append_assoc]
    rfl
  | evaluated hc _ ih =>
    intro ts
    simp only [List.append_assoc, List.cons_append, List.nil_append]
    rw [ih, hskip hc (by decide) (by decide), Stmt.tokens]
  | assigned hk hc _ _ _ ihl ihe =>
    intro ts
    simp only [List.append_assoc, List.cons_append, List.nil_append]
    rw [ihl, hskip hk (by decide) (by decide), ihe, hskip hc (by decide) (by decide), Stmt.tokens,
      List.append_assoc]
  | declared _ ih => exact ih
  | moreStmts _ _ ih ihs =>
    intro ts
    rw [List.append_assoc, ih, ihs, Stmt.tokensOfAll, List.append_assoc]
  | var hk hn ha hc _ _ ihg ih =>
    intro ts
    simp only [List.append_assoc, List.cons_append, List.nil_append]
    rw [ihg _ _ (.inl hk), spokenTokens_of_mem (hn ▸ by decide), hskip ha (by decide) (by decide),
      ih, hskip hc (by decide) (by decide), Decl.tokens, List.cons_append]
  | fn hk hn ho hc ha hf _ _ hps _ ihg ih =>
    intro ts
    simp only [List.append_assoc, List.cons_append, List.nil_append]
    rw [ihg _ _ (.inr hk), spokenTokens_of_mem (hn ▸ by decide), hskip ho (by decide) (by decide),
      spokenTokens_names hps, hskip hc (by decide) (by decide), hskip ha (by decide) (by decide),
      ih, hskip hf (by decide) (by decide), Decl.tokens, List.cons_append, List.append_assoc]
  | moreDecls _ _ ih ihs =>
    intro ts
    rw [List.append_assoc, ih, ihs, List.flatMap_cons, List.append_assoc]

/-- Every program that is read is well formed at every depth, whatever the table held before, and
its tokens are the names, literals and operators of the source, each once and in the same order. -/
theorem Program.wellFormed_of_parse {source : String} {T T' : TypeTable} {p : Program}
    (h : parse source T = (.ok p, T')) :
    p.scope = none ∧ (∀ a ∈ p.nodes, a.WellFormed T') ∧
      p.tokens = spokenTokens (tokenize source).dropLast := by
  obtain ⟨hscope, hreads, -, -⟩ := reads_of_parse h
  have hformed := hreads.wellFormed fun _ ht => isSpelled_of_mem_tokenize ht
  have hholds : spokenTokens ((tokenize source).dropLast ++ []) = p.tokens ++ spokenTokens [] :=
    hreads.holds []
  rw [List.append_nil, show spokenTokens [] = [] from rfl, List.append_nil] at hholds
  exact ⟨hscope, hformed, hholds.symm⟩

/-- A function with a pointer in its signature, a product and a negation in its body. -/
theorem Program.wellFormed_of_pointer_signature :
    ∃ p T, parse "of [*Int] -> Int fun f(a) = a * (-1);" .initial = (.ok p, T) ∧
      p.scope = none ∧ (∀ a ∈ p.nodes, a.WellFormed T) ∧
        p.tokens = spokenTokens (tokenize "of [*Int] -> Int fun f(a) = a * (-1);").dropLast := by
  have h : match parse "of [*Int] -> Int fun f(a) = a * (-1);" .initial with
    | (.ok _, _) => True
    | _ => False := by cbv
  split at h
  next p T hp => exact ⟨p, T, hp, wellFormed_of_parse hp⟩
  next => exact h.elim

end FrontEnd
