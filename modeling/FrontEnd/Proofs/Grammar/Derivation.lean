import FrontEnd.Proofs.Grammar.Reading

/-! What can be read as a syntax tree is a phrase of the language. -/

namespace FrontEnd

/-- The phrases that the tokens of a node make. A signature is one for as many parameters as it
fits, and an expression that names a symbol can be assigned to. -/
def Node.Spelled (T : TypeTable) (w : List TokenKind) : Node → Prop
  | type t => Phrase.type.Derives w ∧
      ∀ as r, T.function? t = some (as, r) → (Phrase.functionType as.length).Derives w
  | types ts => (Phrase.items .type ts.length).Derives w
  | signature g => Phrase.varSignature.Derives w ∧
      ∀ n, T.Fits g n → (Phrase.fnSignature n).Derives w
  | expr e => Phrase.expr.Derives w ∧ (e.name?.isSome → Phrase.target.Derives w)
  | exprs es => (Phrase.items .expr es.length).Derives w
  | stmt _ => Phrase.stmt.Derives w
  | stmts _ => Phrase.stmts.Derives w
  | decl _ => Phrase.decl.Derives w
  | decls _ => Phrase.program.Derives w

theorem mem_primitives_of_primitive? {k : TokenKind} {p : Primitive}
    (h : k.primitive? = some p) : k ∈ TokenKind.primitives := by
  revert h
  cases k <;> cases p <;> decide

theorem BinaryForm.mem_binaryOperators {form : BinaryForm} {k : TokenKind}
    (h : k ∈ form.operators) : k ∈ TokenKind.binaryOperators := by
  cases form
  · exact List.mem_append_left _ h
  · exact List.mem_append_right _ h

theorem ReadList.derives_names {w : List Token} {ps : List Token} (h : ReadList ReadName w ps) :
    (Phrase.items .name ps.length).Derives (w.map Token.kind) := by
  induction h with
  | nil => exact .noItem
  | singleton h =>
    obtain ⟨rfl, hk⟩ := h
    simpa [hk] using Phrase.Derives.lastItem .name
  | cons hk h _ ih =>
    obtain ⟨rfl, hn⟩ := h
    simpa [hk, hn] using Phrase.Derives.moreItems .name ih

theorem Reads.spelled {T : TypeTable} (hT : T.Reachable) {w : List Token} {a : Node}
    (h : Reads T w a) : a.Spelled T (w.map Token.kind) := by
  induction h with
  | @primitive k p hk =>
    refine ⟨.primitive (mem_primitives_of_primitive? hk), fun as r hf => ?_⟩
    rw [TypeTable.function?_eq_some, hT.shape?_primitive] at hf
    exact nomatch hf
  | pointer hk ht _ ih =>
    refine ⟨by simpa [hk] using .pointer ih.1, fun as r hf => ?_⟩
    rw [TypeTable.function?_eq_some, ht] at hf
    exact nomatch hf
  | @function _ _ _ _ _ as r t ho hc hk ht _ _ ih ih' =>
    have harrow := Phrase.Derives.arrow ih ih'.1
    refine ⟨by simpa [ho, hc, hk] using .function harrow, fun as' r' hf => ?_⟩
    rw [TypeTable.function?_eq_some, ht] at hf
    injection hf with hf
    injection hf with has hr
    simpa [ho, hc, hk, ← has] using harrow
  | noType => exact .noItem
  | lastType _ ih => exact .lastItem ih.1
  | moreTypes hk _ _ ih ih' => simpa [Node.Spelled, hk] using .moreItems ih.1 ih'
  | unsigned => exact ⟨.untypedVar, fun n _ => .untypedFn⟩
  | signed hk _ ih =>
    refine ⟨by simpa [hk] using .typedVar ih.1, fun n hn => ?_⟩
    obtain ⟨as, r, hf, rfl⟩ := hn _ rfl
    simpa [hk] using .typedFn (ih.2 as r hf)
  | literal ht =>
    refine ⟨.literal ht, fun hn => ?_⟩
    have hk := by simpa [Expr.name?] using hn
    simpa [hk] using .bare
  | group ho hc _ ih =>
    exact ⟨by simpa [ho, hc] using .group ih.1,
      fun hn => by simpa [ho, hc] using .wrapped (ih.2 hn)⟩
  | block ho hc _ ih => exact ⟨by simpa [ho, hc] using .block ih, fun hn => nomatch hn⟩
  | ifThen hi hk _ _ ih ih' =>
    exact ⟨by simpa [hi, hk] using .ifThen ih.1 ih'.1, fun hn => nomatch hn⟩
  | ifElse hi hk hl _ _ _ ih ih' ih'' =>
    exact ⟨by simpa [hi, hk, hl] using .ifElse ih.1 ih'.1 ih''.1, fun hn => nomatch hn⟩
  | returned hk _ ih => exact ⟨by simpa [hk] using .returned ih.1, fun hn => nomatch hn⟩
  | yielded hk _ ih => exact ⟨by simpa [hk] using .yielded ih.1, fun hn => nomatch hn⟩
  | prefixed hk _ ih => exact ⟨.prefixed hk ih.1, fun hn => nomatch hn⟩
  | binary hk _ _ ih ih' =>
    exact ⟨by simpa using .binary (BinaryForm.mem_binaryOperators hk) ih.1 ih'.1,
      fun hn => nomatch hn⟩
  | call ho hc _ _ ih ih' =>
    exact ⟨by simpa [ho, hc] using .call ih.1 ih', fun hn => nomatch hn⟩
  | noExpr => exact .noItem
  | lastExpr _ ih => exact .lastItem ih.1
  | moreExprs hk _ _ ih ih' => simpa [Node.Spelled, hk] using .moreItems ih.1 ih'
  | evaluated hc _ ih => simpa [Node.Spelled, hc] using .evaluated ih.1
  | assigned hk hc hn _ _ ih ih' =>
    simpa [Node.Spelled, hk, hc] using .assigned (ih.2 (by simp [hn])) ih'.1
  | declared _ ih => exact .declared ih
  | noStmt => exact .noStmt
  | moreStmts _ _ ih ih' => simpa [Node.Spelled] using .moreStmts ih ih'
  | var hk hn ha hc _ _ ih ih' => simpa [Node.Spelled, hk, hn, ha, hc] using .var ih.1 ih'.1
  | fn hk hn ho hc ha hf hg _ hu _ ih ih' =>
    simpa [Node.Spelled, hk, hn, ho, hc, ha, hf] using
      .fn (ih.2 _ hg) hu.derives_names ih'.1
  | noDecl => exact .noDecl
  | moreDecls _ _ ih ih' => simpa [Node.Spelled] using .moreDecls ih ih'

end FrontEnd
