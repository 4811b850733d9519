import FrontEnd.Proofs.Grammar.Locality
import FrontEnd.Proofs.Grammar.Soundness

/-! The braces among the tokens of a tree. Every brace has its partner, and only a declaration or a
statement has semicolons outside of them, a declaration a single one at its end. -/

namespace FrontEnd

/-- Kinds in which the braces have their partners. With the flag set there may be semicolons outside
of all braces. -/
inductive Enclosed : Bool → List TokenKind → Prop
  | nil {b : Bool} : Enclosed b []
  | plain {b : Bool} {k : TokenKind} (hk : k ∉ [TokenKind.openCurly, .closeCurly, .semicolon]) :
      Enclosed b [k]
  | semicolon : Enclosed true [.semicolon]
  | block {b : Bool} {ks : List TokenKind} :
      Enclosed true ks → Enclosed b (.openCurly :: (ks ++ [.closeCurly]))
  | append {b : Bool} {ks ls : List TokenKind} :
      Enclosed b ks → Enclosed b ls → Enclosed b (ks ++ ls)

/-- A prefix of two lists in a row ends in the first or in the second one. -/
theorem prefix_append_cases {α : Type} {front as bs : List α} (h : front <+: as ++ bs) :
    front <+: as ∨ ∃ cs, front = as ++ cs ∧ cs <+: bs := by
  by_cases hle : front.length ≤ as.length
  · exact .inl (List.prefix_of_prefix_length_le h (List.prefix_append _ _) hle)
  · obtain ⟨cs, rfl⟩ := List.prefix_of_prefix_length_le (List.prefix_append as bs) h (by omega)
    exact .inr ⟨cs, rfl, (List.prefix_append_right_inj as).mp h⟩

namespace Enclosed

variable {b : Bool} {k : TokenKind} {ks ls front rest : List TokenKind}

theorem cons (hk : k ∉ [TokenKind.openCurly, .closeCurly, .semicolon]) (h : Enclosed b ks) :
    Enclosed b (k :: ks) := (plain hk).append h

theorem loosen (h : Enclosed b ks) : Enclosed true ks := by
  induction h with
  | nil => exact .nil
  | plain hk => exact .plain hk
  | semicolon => exact .semicolon
  | block h _ => exact .block h
  | append _ _ ih ih' => exact ih.append ih'

theorem balanced (h : Enclosed b ks) : ks.count .closeCurly = ks.count .openCurly := by
  induction h with
  | nil => rfl
  | plain hk =>
    simp only [List.mem_cons, List.not_mem_nil, or_false, not_or] at hk
    simp [hk.1, hk.2.1]
  | semicolon => rfl
  | block _ ih => simp [List.count_append, ih]
  | append _ _ ih ih' => rw [List.count_append, List.count_append, ih, ih']

theorem closed_le (h : Enclosed b ks) (hfront : front <+: ks) :
    front.count .closeCurly ≤ front.count .openCurly := by
  induction h generalizing front with
  | nil => simp [List.prefix_nil.mp hfront]
  | plain hk =>
    simp only [List.mem_cons, List.not_mem_nil, or_false, not_or] at hk
    rcases List.prefix_cons_iff.mp hfront with rfl | ⟨t, rfl, ht⟩
    · simp
    · simp [List.prefix_nil.mp ht, hk.2.1]
  | semicolon =>
    rcases List.prefix_cons_iff.mp hfront with rfl | ⟨t, rfl, ht⟩
    · simp
    · simp [List.prefix_nil.mp ht]
  | @block _ ks h ih =>
    rcases List.prefix_cons_iff.mp hfront with rfl | ⟨t, rfl, ht⟩
    · simp
    · rcases List.prefix_concat_iff.mp ht with rfl | ht
      · have hks := h.balanced
        simp [List.count_append, hks]
      · have hle := ih ht
        simp only [List.count_cons_self,
          List.count_cons_of_ne (by decide : TokenKind.openCurly ≠ .closeCurly)]
        omega
  | append h _ ih ih' =>
    rcases prefix_append_cases hfront with hfront | ⟨cs, rfl, hcs⟩
    · exact ih hfront
    · have hle := ih' hcs
      have hks := h.balanced
      rw [List.count_append, List.count_append]
      omega

theorem lt_before_semicolon (h : Enclosed false ks) (hks : ks = front ++ .semicolon :: rest) :
    front.count .closeCurly < front.count .openCurly := by
  generalize hb : false = b at h
  induction h generalizing front rest with
  | nil => simp at hks
  | plain hk =>
    have hmem : TokenKind.semicolon ∈ front ++ TokenKind.semicolon :: rest := by simp
    rw [← hks, List.mem_singleton] at hmem
    subst hmem
    exact absurd (by simp) hk
  | semicolon => exact nomatch hb
  | @block _ ks h _ =>
    cases front with
    | nil => exact nomatch hks
    | cons k front =>
      obtain ⟨rfl, htail⟩ := List.cons.inj hks
      have htail : ks ++ [.closeCurly] = front ++ .semicolon :: rest := htail
      have hlength := congrArg List.length htail
      simp only [List.length_append, List.length_cons, List.length_nil] at hlength
      have hfront : front <+: ks ++ [.closeCurly] := by
        rw [htail]
        exact List.prefix_append _ _
      have hprefix := List.prefix_of_prefix_length_le hfront (List.prefix_append _ _) (by omega)
      have hle := h.closed_le hprefix
      simp only [List.count_cons_self,
        List.count_cons_of_ne (by decide : TokenKind.openCurly ≠ .closeCurly)]
      omega
  | @append _ ks ls h h' ih ih' =>
    rcases List.append_eq_append_iff.mp hks with ⟨cs, rfl, hls⟩ | ⟨cs, rfl, hrest⟩
    · have hlt := ih' hls hb
      have hks := h.balanced
      rw [List.count_append, List.count_append]
      omega
    · cases cs with
      | nil =>
        have hlt : [].count TokenKind.closeCurly < [].count TokenKind.openCurly := ih' hrest.symm hb
        exact absurd hlt (Nat.lt_irrefl 0)
      | cons k cs =>
        obtain ⟨rfl, -⟩ := List.cons.inj hrest
        exact ih rfl hb

theorem closes (h : Enclosed false ks) : Closes 0 (ks ++ [.semicolon]) where
  closed_le front hfront := by
    rw [Nat.zero_add]
    exact (h.loosen.append .semicolon).closed_le hfront
  balanced := by
    rw [Nat.zero_add]
    exact (h.loosen.append .semicolon).balanced
  last := List.getLast?_concat
  only front rest hks hd := by
    rw [Nat.zero_add] at hd
    rcases List.eq_nil_or_concat rest with rfl | ⟨rest, k, rfl⟩
    · rfl
    · have hinit : ks = front ++ .semicolon :: rest := by
        rw [List.concat_eq_append, ← List.cons_append, ← List.append_assoc] at hks
        exact (List.append_inj' hks rfl).1
      exact absurd hd (Nat.ne_of_lt (h.lt_before_semicolon hinit))

end Enclosed

/-- How the tokens of a node are enclosed. -/
def Node.Enclosed (w : List Token) : Node → Prop
  | .stmt _ | .stmts _ | .decls _ => FrontEnd.Enclosed true (w.map Token.kind)
  | .decl _ => ∃ ks, FrontEnd.Enclosed false ks ∧ w.map Token.kind = ks ++ [.semicolon]
  | _ => FrontEnd.Enclosed false (w.map Token.kind)

theorem ReadList.enclosed {w ps : List Token} (h : ReadList ReadName w ps) :
    Enclosed false (w.map Token.kind) := by
  induction h with
  | nil => exact .nil
  | singleton h =>
    obtain ⟨rfl, hk⟩ := h
    exact .plain (by simp [hk])
  | cons hk h _ ih =>
    obtain ⟨rfl, ha⟩ := h
    exact .cons (by simp [ha]) (.cons (by simp [hk]) ih)

theorem Reads.enclosed {T : TypeTable} {w : List Token} {a : Node} (h : Reads T w a) :
    a.Enclosed w := by
  induction h with
  | @primitive k p hk =>
    refine .plain ?_
    intro hmem
    simp only [List.mem_cons, List.not_mem_nil, or_false] at hmem
    rcases hmem with he | he | he <;> simp [he, TokenKind.primitive?] at hk
  | noType | unsigned | noExpr | noStmt | noDecl => exact .nil
  | lastType _ ih | lastExpr _ ih => exact ih
  | pointer hk _ _ ih => exact .cons (by simp [hk]) ih
  | function ho hc hk _ _ _ ih ih' =>
    simp only [Node.Enclosed, List.map_cons, List.map_append] at ih ih' ⊢
    exact .cons (by simp [ho]) (ih.append (.cons (by simp [hc]) (.cons (by simp [hk]) ih')))
  | moreTypes hk _ _ ih ih' | moreExprs hk _ _ ih ih' =>
    simp only [Node.Enclosed, List.map_cons, List.map_append] at ih ih' ⊢
    exact ih.append (.cons (by simp [hk]) ih')
  | signed hk _ ih => exact .cons (by simp [hk]) ih
  | @literal t ht =>
    refine .plain ?_
    intro hmem
    simp only [List.mem_cons, List.not_mem_nil, or_false] at hmem
    rcases hmem with he | he | he <;> simp [he, TokenKind.literals] at ht
  | group ho hc _ ih =>
    simp only [Node.Enclosed, List.map_cons, List.map_append, List.map_nil] at ih ⊢
    exact .cons (by simp [ho]) (ih.append (.plain (by simp [hc])))
  | block ho hc _ ih =>
    simp only [Node.Enclosed, List.map_cons, List.map_append, List.map_nil, ho, hc] at ih ⊢
    exact .block ih
  | ifThen hi hk _ _ ih ih' =>
    simp only [Node.Enclosed, List.map_cons, List.map_append] at ih ih' ⊢
    exact .cons (by simp [hi]) (ih.append (.cons (by simp [hk]) ih'))
  | ifElse hi hk hl _ _ _ ih ih' ih'' =>
    simp only [Node.Enclosed, List.map_cons, List.map_append] at ih ih' ih'' ⊢
    exact .cons (by simp [hi]) (ih.append (.cons (by simp [hk])
      (ih'.append (.cons (by simp [hl]) ih''))))
  | returned hk _ ih | yielded hk _ ih => exact .cons (by simp [hk]) ih
  | @prefixed k _ _ hk _ ih =>
    refine .cons ?_ ih
    intro hmem
    simp only [List.mem_cons, List.not_mem_nil, or_false] at hmem
    rcases hmem with he | he | he <;> simp [he, TokenKind.prefixOperators] at hk
  | @binary form k _ _ _ _ hk _ _ ih ih' =>
    simp only [Node.Enclosed, List.map_cons, List.map_append] at ih ih' ⊢
    refine ih.append (.cons ?_ ih')
    intro hmem
    simp only [List.mem_cons, List.not_mem_nil, or_false] at hmem
    cases form <;> rcases hmem with he | he | he <;>
      simp [he, BinaryForm.operators, TokenKind.comparisons, TokenKind.arithmetic] at hk
  | call ho hc _ _ ih ih' =>
    simp only [Node.Enclosed, List.map_cons, List.map_append, List.map_nil] at ih ih' ⊢
    exact ih.append (.cons (by simp [ho]) (ih'.append (.plain (by simp [hc]))))
  | evaluated hc _ ih =>
    simp only [Node.Enclosed, List.map_cons, List.map_append, List.map_nil, hc] at ih ⊢
    exact ih.loosen.append .semicolon
  | assigned hk hc _ _ _ ih ih' =>
    simp only [Node.Enclosed, List.map_cons, List.map_append, List.map_nil, hc] at ih ih' ⊢
    exact ih.loosen.append (.cons (by simp [hk]) (ih'.loosen.append .semicolon))
  | declared _ ih =>
    obtain ⟨ks, hks, hw⟩ := ih
    simp only [Node.Enclosed, hw]
    exact hks.loosen.append .semicolon
  | moreStmts _ _ ih ih' =>
    simp only [Node.Enclosed, List.map_append] at ih ih' ⊢
    exact ih.append ih'
  | @var k n a c w v _ _ hk hn ha hc _ _ ih ih' =>
    simp only [Node.Enclosed] at ih ih'
    refine ⟨w.map Token.kind ++ .kwVar :: .identifier :: .assign :: v.map Token.kind, ?_, ?_⟩
    · exact ih.append (.cons (by decide) (.cons (by decide) (.cons (by decide) ih')))
    · simp [hk, hn, ha, hc]
  | @fn k n o c a f w u v _ _ _ hk hn ho hc ha hf _ _ hps _ ih ih' =>
    simp only [Node.Enclosed] at ih ih'
    refine ⟨w.map Token.kind ++ .kwFun :: .identifier :: .openParen ::
      (u.map Token.kind ++ .closeParen :: .assign :: v.map Token.kind), ?_, ?_⟩
    · exact ih.append (.cons (by decide) (.cons (by decide) (.cons (by decide)
        (hps.enclosed.append (.cons (by decide) (.cons (by decide) ih'))))))
    · simp [hk, hn, ho, hc, ha, hf]
  | moreDecls _ _ ih ih' =>
    obtain ⟨ks, hks, hw⟩ := ih
    simp only [Node.Enclosed, List.map_append, hw] at ih' ⊢
    exact (hks.loosen.append .semicolon).append ih'

/-- A source that is read as a single declaration leaves every brace it opens, and ends with it. -/
theorem Program.isChunk_of_decls {source : String} {T₀ T : TypeTable} {p : Program} {d : Decl}
    (hp : parse source T₀ = (.ok p, T)) (hd : p.decls = [d]) : IsChunk source := by
  obtain ⟨-, hreads, -⟩ := reads_of_parse hp
  rw [hd] at hreads
  unfold IsChunk
  generalize (tokenize source).dropLast = w at hreads ⊢
  cases hreads with
  | moreDecls h hnil =>
    cases hnil
    obtain ⟨ks, hks, hw⟩ := h.enclosed
    rw [List.append_nil, hw]
    exact hks.closes

end FrontEnd
