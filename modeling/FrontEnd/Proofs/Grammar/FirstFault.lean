import FrontEnd.Proofs.Grammar.Acceptance
import FrontEnd.Proofs.Grammar.Failure
import FrontEnd.Proofs.Grammar.Tracking

/-! The first fault of a text. Every rule keeps track of the language of what it stands for and of
what may follow it, so a text is refused at the first token that no program goes on with. -/

namespace FrontEnd

namespace Rule

open TokenKind
open Category (words operations)

variable {α β : Type} {n m : Nat} {K : Language TokenKind} {s : ParserState}

/-- How the rule for expressions keeps track in front of fewer than `n` tokens. At a level of its
own it may leave operators to the rules outside. -/
structure OperandTracks (operand : Operand) (n : Nat) : Prop where
  any (bp : BindingPower) {K : Language TokenKind} (hK : Following K) :
    (operand bp).TracksBelow n (words .expr * K) (operations * K)
  lowest {K : Language TokenKind} (hK : Following K) :
    (operand .lowest).TracksBelow n (words .expr * K) K

/-- What takes all operators behind it into itself leaves none to the rules outside. -/
theorem TracksBelow.loosen {r : Rule α} {L : Language TokenKind}
    (hL : L * Category.operation ≤ L) (hr : ∀ K, Following K → r.TracksBelow n (L * K) K)
    (hK : Following K) : r.TracksBelow n (L * K) (operations * K) := by
  intro s hs
  have h := hr K hK s hs
  have hend := hr (semicolon.alone * 1) (.alone_mul rfl (by decide)) s hs
  cases hreply : r s with
  | failed d t =>
    rw [hreply] at h
    exact h
  | done a t =>
    rw [hreply] at h hend
    obtain ⟨w, hw, -, hfull⟩ := h
    obtain ⟨w', hw', hsound, -⟩ := hend
    obtain rfl : w = w' := List.append_cancel_right (hw.tokens.symm.trans hw'.tokens)
    have hwL : w.map Token.kind ∈ L := by
      obtain ⟨l, hl, x, hx, he⟩ := hsound [.semicolon] ⟨_, rfl, [], rfl, rfl⟩
      obtain ⟨_, rfl, _, rfl, rfl⟩ := hx
      rwa [← List.append_cancel_right he]
    refine ⟨w, hw, fun v hv => ?_, fun v hv hA => ?_⟩
    · obtain ⟨x, hx, y, hy, rfl⟩ := hv
      rw [← List.append_assoc]
      have hstar : L * operations ≤ L := mul_kstar_le_self hL
      exact ⟨_, hstar ⟨_, hwL, x, hx, rfl⟩, y, hy, rfl⟩
    · exact ⟨[], Language.nil_mem_kstar _, v, hfull v hv hA, rfl⟩

theorem headD_ne_of_mem_expr_mul {k : TokenKind} (hk : Vocabulary.full.lead? k = none)
    {v : List TokenKind} (h : v ∈ words .expr * K) : v.headD .eof ≠ k := by
  cases v with
  | nil => exact absurd h Category.nil_notMem_expr_mul
  | cons l v =>
    obtain ⟨form, hl, _⟩ := Category.cons_mem_expr_mul.mp h
    rintro rfl
    exact nomatch hk.symm.trans hl

theorem headD_of_mem_decl_mul {v : List TokenKind} (h : v ∈ words .decl * K) :
    Vocabulary.full.declares (v.headD .eof) = true := by
  cases v with
  | nil => exact absurd h Category.nil_notMem_decl_mul
  | cons k v => exact Category.cons_mem_decl_mul h

theorem headD_ne_of_mem_name_mul {k : TokenKind} (hk : k ≠ .identifier)
    {v : List TokenKind} (h : v ∈ words .name * K) : v.headD .eof ≠ k := by
  obtain ⟨_, h, y, hy, rfl⟩ := h
  cases h
  exact hk.symm

theorem words_name : words .name = identifier.alone := by
  ext w
  constructor
  · intro h
    cases h
    rfl
  · rintro rfl
    exact .name

theorem current_tracks : current.TracksBelow n K K := fun s _ => Reply.tracks_done _ s K

section Operand

variable {operand : Operand} (h : OperandTracks operand n) (hs : ∀ bp, (operand bp).Steady)

include h

/-- An expression or an assignment; whether the left side of it is a name is told by another
fault. -/
theorem statement_tracks [HasWord K] :
    (statement operand).TracksBelow n (words .expr *
      (semicolon.alone + assign.alone * (words .expr * semicolon.alone)) * K) K := by
  have hA : words .expr * (semicolon.alone + assign.alone * (words .expr * semicolon.alone)) * K =
      words .expr *
        (semicolon.alone * K + assign.alone * (words .expr * (semicolon.alone * K))) := by
    simp only [mul_assoc, add_mul]
  rw [hA]
  have hend : Following (semicolon.alone * K) := .alone_mul rfl (by decide)
  refine (h.lowest (hend.add (.alone_mul rfl (by decide)))).bind fun e => ?_
  refine .advanceIf_bind (m := n) ?_ (.expect_bind fun _ => .pure _) (fun v hv => ?_)
    (Nat.le_succ n)
  · cases hname : e.name? with
    | none =>
      simp only [if_true]
      exact fun s _ => fail_tracks rfl
    | some x =>
      simp only [if_true]
      exact (h.lowest hend).bind fun _ => .expect_bind fun _ => .pure _
  · exact absurd (cons_mem_alone_mul.mp hv).1 (by decide)

theorem varDecl_tracks [HasWord K] (p : Position) (g : Option TypeId) :
    (varDecl operand p g).TracksBelow n (Category.variableWords * K) K := by
  simp only [Category.variableWords, mul_assoc]
  exact .expect_bind fun _ => .expect_bind fun _ => .expect_bind fun _ =>
    (h.lowest (.alone_mul rfl (by decide))).bind fun _ => .expect_bind fun _ => .pure _

omit h in
theorem fitSignature_tracks (name : Token) (params : List Token) (g : Option TypeId) :
    (fitSignature name params g).TracksBelow n K K := by
  intro s _
  cases g with
  | none => exact Reply.tracks_done _ s K
  | some t =>
    simp only [fitSignature]
    split
    · exact fail_tracks rfl
    · split
      · exact Reply.tracks_done _ s K
      · exact fail_tracks rfl

theorem fnDecl_tracks [HasWord K] (p : Position) (g : Option TypeId) :
    (fnDecl operand p g).TracksBelow n (Category.functionWords * K) K := by
  simp only [Category.functionWords, mul_assoc]
  have hname (K : Language TokenKind) (hK : Following K) :
      (expect .identifier).TracksBelow n (words .name * K) K := by
    have := hK.hasWord
    rw [words_name]
    exact expect_tracks (by decide)
  exact .expect_bind fun _ => .expect_bind fun _ => .expect_bind fun _ =>
    (itemsBefore_tracks (.expect _) hname (fun _ _ => headD_ne_of_mem_name_mul (by decide)) rfl
      (by decide) (by decide)).bind fun _ => .expect_bind fun _ =>
        (fitSignature_tracks _ _ _).bind fun _ => .expect_bind fun _ =>
          (h.lowest (.alone_mul rfl (by decide))).bind fun _ => .expect_bind fun _ => .pure _

omit h in
theorem signature?_tracks [HasWord K] (hK : ∀ v, .kwOf :: v ∉ K) :
    (signature? .full).TracksBelow n (words .signature * K) K := by
  rw [Category.words_signature, add_mul, one_mul, mul_assoc]
  refine .advanceIf_bind (m := n) ?_ (.pure _) (fun v hv => absurd hv (hK v)) (Nat.le_succ n)
  exact type_tracks.bind fun _ => .pure _

theorem declaration_tracks [HasWord K] :
    (declaration .full operand).TracksBelow n (words .decl * K) K := by
  rw [Category.words_decl, mul_assoc, add_mul]
  -- neither of the two begins with a signature
  have hhead {v : List TokenKind}
      (hv : v ∈ Category.variableWords * K + Category.functionWords * K) :
      v ∈ Category.variableWords * K ∧ v.headD .eof = .kwVar ∨
        v ∈ Category.functionWords * K ∧ v.headD .eof = .kwFun := by
    refine hv.imp (fun hv => ⟨hv, ?_⟩) fun hv => ⟨hv, ?_⟩
    all_goals
      simp only [Category.variableWords, Category.functionWords, mul_assoc] at hv
      obtain ⟨v, _, rfl⟩ := mem_alone_mul.mp hv
      rfl
  have hword : HasWord (Category.variableWords * K + Category.functionWords * K) := by
    unfold Category.variableWords Category.functionWords
    infer_instance
  refine current_tracks.bind fun start => (signature?_tracks fun v hv => ?_).bind fun g =>
    fun s hlt => ?_
  · rcases hhead hv with h | h <;> cases h.2
  · rw [bind_done _ (rfl : current s = .done s.current s)]
    generalize hkind : s.current.kind = k
    split
    next =>
      refine (varDecl_tracks h start.place g s hlt).widen (fun v hv => .inl hv) fun v hv hvA => ?_
      refine ((hhead hvA).resolve_right fun hf => ?_).1
      cases hkind.symm.trans (hv.symm.trans hf.2)
    next =>
      refine (fnDecl_tracks h start.place g s hlt).widen (fun v hv => .inr hv) fun v hv hvA => ?_
      refine ((hhead hvA).resolve_left fun hf => ?_).1
      cases hkind.symm.trans (hv.symm.trans hf.2)
    next hvar hfun =>
      refine refuse_tracks fun v hv hvA => ?_
      exact (hhead hvA).elim (fun hf => hvar (hkind.symm.trans (hv.symm.trans hf.2))) fun hf =>
        hfun (hkind.symm.trans (hv.symm.trans hf.2))

theorem blockItem_tracks [HasWord K] :
    (blockItem .full operand).TracksBelow n (words .stmt * K) K := by
  intro s hlt
  rw [Category.words_stmt, add_mul]
  unfold blockItem
  split
  next hkind =>
    refine ((declaration_tracks h s hlt).map _).widen (fun v hv => .inl hv) fun v hv hvA =>
      hvA.resolve_right fun he => ?_
    rw [mul_assoc] at he
    have hlead : Vocabulary.full.lead? s.kind = none := by
      revert hkind
      cases s.kind <;> decide
    exact headD_ne_of_mem_expr_mul hlead he hv
  next hkind =>
    refine (statement_tracks h s hlt).widen (fun v hv => .inr hv) fun v hv hvA =>
      hvA.resolve_left fun hd => hkind ?_
    rw [← hv]
    exact headD_of_mem_decl_mul hd

omit h in
theorem headD_ne_of_mem_stmt_mul {k : TokenKind} (hk : Vocabulary.full.lead? k = none)
    (hk' : Vocabulary.full.declares k = false) {v : List TokenKind} (h : v ∈ words .stmt * K) :
    v.headD .eof ≠ k := by
  rw [Category.words_stmt, add_mul, mul_assoc] at h
  rcases h with h | h
  · rintro rfl
    exact nomatch hk'.symm.trans (headD_of_mem_decl_mul h)
  · exact headD_ne_of_mem_expr_mul hk h

omit h in
/-- An item that fails is told first, whatever is read behind it. -/
theorem closeBlock_tracks_failed {d : Diagnostic} {t : ParserState}
    {more : Reply (List Stmt × Bool)} {A B B' : Language TokenKind} (p : Position)
    (h : (Reply.failed d t : Reply α).Tracks s A B)
    (hmore : more.Continues (t.report d).synchronize) :
    (closeBlock p (more.map fun (sts, _) => (sts, true))).Tracks s A B' := by
  obtain ⟨e, es, hes, hoffends⟩ := h
  obtain ⟨ds, hds, _⟩ := hmore.next.reported
  have hnext : more.next.reported = s.reported ++ e :: (es ++ ds) := by
    rw [hds, ← List.cons_append, ← List.append_assoc, ← hes]
    rfl
  have hreported (d' : Diagnostic) :
      more.next.reported ++ [d'] = s.reported ++ e :: (es ++ ds ++ [d']) := by simp [hnext]
  cases more with
  | done a u => exact ⟨e, _, hreported _, hoffends⟩
  | failed d' u => exact ⟨e, _, hreported d', hoffends⟩

omit h in
theorem closeBlock_map_cons (p : Position) (st : Stmt) (x : Reply (List Stmt × Bool)) :
    closeBlock p (x.map fun (sts, failed) => (st :: sts, failed)) =
      (closeBlock p x).map fun (sts, p) => (st :: sts, p) := by
  rcases x with ⟨⟨_, _ | _⟩, _⟩ | _ <;> rfl

omit h in
theorem itemsToEnd_tracks {item : Rule Stmt} [HasWord K] (hi : item.Steady) (hc : Consuming item)
    (hitem : ∀ K [HasWord K], item.TracksBelow n (words .stmt * K) K) (p : Position)
    (hlt : s.tokens.length < n) :
    (closeBlock p (itemsToEnd item s)).Tracks s (words .stmts * (closeCurly.alone * K)) K := by
  induction hm : s.tokens.length using Nat.strong_induction_on generalizing s with
  | _ m ih =>
  subst hm
  have hA : words .stmts * (closeCurly.alone * K) = closeCurly.alone * K +
      words .stmt * (words .stmts * (closeCurly.alone * K)) := by
    nth_rewrite 1 [Category.words_stmts]
    rw [add_mul, one_mul, mul_assoc]
  rw [itemsToEnd_eq hi hc, itemsFrom]
  split
  next hkind =>
    rw [hA]
    obtain ⟨w, hw, hsound, hfull⟩ := advance_tracks (M := K) hkind (by decide)
    have hclose : (Reply.done ([], p) s.advance.exitBlock : Reply (List Stmt × Position)).Tracks s
        (closeCurly.alone * K) K := ⟨w, hw.exitBlock, hsound, hfull⟩
    refine hclose.widen (fun v hv => .inl hv) fun v hv hvA => hvA.resolve_right fun h => ?_
    exact headD_ne_of_mem_stmt_mul rfl rfl h (hv.trans hkind)
  next hkind =>
    have hrefuse : (refuse (.unexpectedToken .closeCurly) s : Reply (List Stmt × Position)).Tracks s
        (words .stmts * (closeCurly.alone * K)) K := by
      refine refuse_tracks fun v hv hvA => ?_
      rw [hA] at hvA
      rcases hvA with h | h
      · obtain ⟨x, _, rfl⟩ := mem_alone_mul.mp h
        cases hv.trans hkind
      · exact headD_ne_of_mem_stmt_mul rfl rfl h (hv.trans hkind)
    exact hrefuse
  next hclose heof =>
    have hone : (item s).Tracks s (words .stmts * (closeCurly.alone * K))
        (words .stmts * (closeCurly.alone * K)) := by
      refine (hitem _ s hlt).widen (fun v hv => hA ▸ .inr hv) fun v hv hvA => ?_
      rw [hA] at hvA
      refine hvA.resolve_left fun h => ?_
      obtain ⟨x, _, rfl⟩ := mem_alone_mul.mp h
      exact hclose hv.symm
    cases hreply : item s with
    | done st t =>
      rw [hreply] at hone
      have hshorter := (hc hreply).length_lt
      simp only
      rw [closeBlock_map_cons]
      exact (hone.of_done (ih _ hshorter (hshorter.trans hlt) rfl)).map _
    | failed d t =>
      rw [hreply] at hone
      exact closeBlock_tracks_failed p hone (hi.itemsToEnd _)

include hs in
theorem block_tracks [HasWord K] : (block .full operand).TracksBelow (n + 1)
    (openCurly.alone * (words .stmts * (closeCurly.alone * K))) K := by
  intro s hlt
  by_cases hkind : s.kind = .openCurly
  · rw [block_of_brace hkind]
    have hopen : (Reply.done s.current s.advance).Tracks s
        (openCurly.alone * (words .stmts * (closeCurly.alone * K))) _ :=
      advance_tracks hkind (by decide)
    refine hopen.of_done (Reply.Tracks.of_enterBlock ?_)
    have hne : s.kind ≠ .eof := by rw [hkind]; decide
    have hshorter := (ParserState.consumes_advance (ParserState.tokens_ne_nil hne)).length_lt
    exact itemsToEnd_tracks (.blockItem hs) (.blockItem hs) (fun K _ => blockItem_tracks h) _
      (show s.advance.tokens.length < n by omega)
  · rw [block_of_other hkind]
    refine refuse_tracks fun v hv hvA => hkind ?_
    obtain ⟨x, _, rfl⟩ := mem_alone_mul.mp hvA
    exact hv.symm

omit h in
theorem LeadForm.rest_mul_operation_le {form : LeadForm}
    (hform : form ∈ [LeadForm.conditional, .returned, .yielded]) :
    form.rest * Category.operation ≤ form.rest := by
  have hexpr := Category.expr_mul_operation_le
  simp only [List.mem_cons, List.not_mem_nil, or_false] at hform
  rcases hform with rfl | rfl | rfl
  · simp only [LeadForm.rest, mul_assoc, add_mul, mul_add, mul_one]
    refine add_le_add ?_ ?_ <;> gcongr
  · exact hexpr
  · exact hexpr

omit h in
theorem loosen_lead {r : Rule α} {k : TokenKind} {form : LeadForm}
    (hform : form ∈ [LeadForm.conditional, .returned, .yielded])
    (hr : ∀ K, Following K → r.TracksBelow n (k.alone * (form.rest * K)) K) (hK : Following K) :
    r.TracksBelow n (k.alone * (form.rest * (operations * K))) (operations * K) := by
  have hle := LeadForm.rest_mul_operation_le hform
  have hrest : form.rest * operations = form.rest :=
    le_antisymm (mul_kstar_le_self hle) fun w hw => ⟨w, hw, [], Language.nil_mem_kstar _, by simp⟩
  rw [← mul_assoc form.rest, hrest, ← mul_assoc]
  refine TracksBelow.loosen ?_ (fun K hK => ?_) hK
  · rw [mul_assoc]
    gcongr
  · rw [mul_assoc]
    exact hr K hK

theorem conditional_tracks (hK : Following K) : (conditional operand).TracksBelow (n + 1)
    (kwIf.alone * (LeadForm.conditional.rest * K)) K := by
  have := hK.hasWord
  simp only [LeadForm.rest, mul_assoc, add_mul, one_mul]
  refine .expect_first fun _ => (h.lowest (.alone_mul rfl (by decide))).bind fun _ =>
    .expect_bind fun _ => (h.lowest hK.branch).bind fun _ =>
      .advanceIf_bind ?_ (.pure _) hK.otherwise (Nat.le_succ n)
  exact (h.lowest hK).bind fun _ => .pure _

include hs in
theorem exprOfLead_tracks (hK : Following K) {form : LeadForm} (hlt : s.tokens.length < n + 1)
    (hform : Vocabulary.full.lead? s.kind = some form) :
    (exprOfLead .full operand form s).Tracks s (s.kind.alone * (form.rest * (operations * K)))
      (operations * K) := by
  have := hK.hasWord
  have hk := Vocabulary.lead?_eq_some.mp hform
  have hne : s.kind ≠ .eof := fun he => nomatch he ▸ hform
  cases form with
  | primary =>
    simp only [exprOfLead, LeadForm.rest, one_mul, primary_done hk]
    exact advance_tracks rfl hne
  | prefixed =>
    have hrest : words .expr * (operations * K) = words .expr * K := by
      rw [← mul_assoc, Category.expr_mul_operations]
    simp only [exprOfLead, prefixed, LeadForm.rest, hrest]
    exact advance_bind_tracks (fun k => (h.any .unary hK).bind fun _ => .pure _) hlt hne
  | grouping =>
    rw [List.eq_of_mem_singleton hk]
    simp only [LeadForm.rest, mul_assoc]
    have hgrouping : (grouping operand).TracksBelow (n + 1) (openParen.alone *
        (words .expr * (closeParen.alone * (operations * K)))) (operations * K) :=
      .expect_first fun _ => (h.lowest (.alone_mul rfl (by decide))).bind fun _ =>
        .expect_bind fun _ => .pure _
    exact hgrouping s hlt
  | block =>
    rw [List.eq_of_mem_singleton hk]
    simp only [LeadForm.rest, mul_assoc]
    exact bind_tracks (block_tracks h hs s hlt) fun _ t _ => Reply.tracks_done _ t _
  | conditional =>
    rw [List.eq_of_mem_singleton hk]
    exact loosen_lead (by decide) (fun K hK => conditional_tracks h hK) hK s hlt
  | returned =>
    rw [List.eq_of_mem_singleton hk]
    refine loosen_lead (by decide) (fun K hK => ?_) hK s hlt
    have := hK.hasWord
    simp only [LeadForm.rest]
    exact .expect_first fun _ => (h.lowest hK).bind fun _ => .pure _
  | yielded =>
    rw [List.eq_of_mem_singleton hk]
    refine loosen_lead (by decide) (fun K hK => ?_) hK s hlt
    have := hK.hasWord
    simp only [LeadForm.rest]
    exact .expect_first fun _ => (h.lowest hK).bind fun _ => .pure _

theorem exprOfTail_tracks (hs : ∀ bp, (operand bp).Steady) (hK : Following K) (left : Expr)
    (bp : BindingPower) {form : TailForm} (hlt : s.tokens.length < n + 1)
    (hform : Vocabulary.tailForm? s.kind = some form) :
    (exprOfTail operand left bp form s).Tracks s (s.kind.alone * (form.rest * (operations * K)))
      (operations * K) := by
  have := hK.hasWord
  have hk := Vocabulary.tailForm?_eq_some.mp hform
  have hne : s.kind ≠ .eof := fun he => nomatch he ▸ hform
  have hrest : words .expr * (operations * K) = words .expr * K := by
    rw [← mul_assoc, Category.expr_mul_operations]
  have hbinary (form : BinaryForm) : (binaryTail operand form left bp s).Tracks s
      (s.kind.alone * (words .expr * K)) (operations * K) :=
    advance_bind_tracks (fun k => (h.any bp hK).bind fun _ => .pure _) hlt hne
  cases form with
  | comparison =>
    simp only [TailForm.rest, hrest]
    exact hbinary .comparison
  | arithmetic =>
    simp only [TailForm.rest, hrest]
    exact hbinary .arithmetic
  | call =>
    rw [List.eq_of_mem_singleton hk]
    simp only [TailForm.rest, mul_assoc]
    have hcall : (callTail operand left).TracksBelow (n + 1) (openParen.alone *
        (words (.items .expr) * (closeParen.alone * (operations * K)))) (operations * K) :=
      .expect_first fun _ => (itemsBefore_tracks (hs _) (fun K hK => h.lowest hK)
        (fun _ _ => headD_ne_of_mem_expr_mul rfl) rfl (by decide) (by decide)).bind fun _ =>
          .expect_bind fun _ => .pure _
    exact hcall s hlt

/-- Operators from the left on, until one is left to the rules outside or none comes next. -/
theorem tails_tracks (hs : ∀ bp, (operand bp).Steady) (hK : Following K) {bp : BindingPower}
    {B : Language TokenKind}
    (hstop : ∀ s : ParserState, (∀ next form, Vocabulary.full.tail? s.kind = some (next, form) →
      ¬ bp < next) → ∀ e : Expr, (Reply.done e s).Tracks s (operations * K) B)
    (hm : m ≤ n + 1) (left : Expr) :
    (tails .full operand bp left).TracksBelow m (operations * K) B := by
  induction m generalizing left with
  | zero => exact fun _ hs => nomatch hs
  | succ m ih =>
    intro s hlt
    rw [tails_eq hs]
    unfold tailsOf
    split
    next next form hk =>
      have hform : Vocabulary.tailForm? s.kind = some form := by
        rw [Vocabulary.tailForm?, hk]
        rfl
      have hne : s.kind ≠ .eof := fun he => nomatch he ▸ hk
      split
      next hlevel =>
        refine Reply.Tracks.of_kind (bind_tracks
          (exprOfTail_tracks h hs hK left next (by omega) hform) fun e t ht => ?_) rfl hne fun v =>
            hK.cons_mem_operations_mul hform
        have hshorter := (Consuming.exprOfTail hs hne ht).length_lt
        exact ih (by omega) e t (by omega)
      next hlevel =>
        refine hstop s (fun next' form' hk' => ?_) left
        obtain ⟨rfl, -⟩ := Prod.mk.inj (Option.some.inj (hk.symm.trans hk'))
        exact hlevel
    next hk => exact hstop s (fun _ _ hk' => nomatch hk.symm.trans hk') left

end Operand

theorem expr_tracks (n : Nat) : OperandTracks (expr .full) n := by
  have hs := Steady.expr .full
  induction n with
  | zero => exact ⟨fun _ _ _ _ h => (nomatch h), fun _ _ h => (nomatch h)⟩
  | succ n ih =>
    -- what comes behind the first operand is all that depends on the level
    have hlead {bp : BindingPower} {K B : Language TokenKind} (hK : Following K)
        (htails : ∀ left,
          (tails .full (expr .full) bp left).TracksBelow (n + 1) (operations * K) B) :
        (expr .full bp).TracksBelow (n + 1) (words .expr * K) B := by
      have := hK.hasWord
      intro s hlt
      rw [expr_eq]
      unfold exprOf
      cases hform : Vocabulary.full.lead? s.kind with
      | none => exact refuse_tracks fun v hv hA => headD_ne_of_mem_expr_mul hform hA hv
      | some form =>
        have hne : s.kind ≠ .eof := fun he => nomatch he ▸ hform
        have hbind : ((exprOfLead .full (expr .full) form >>= tails .full (expr .full) bp) s).Tracks
            s (s.kind.alone * (form.rest * (operations * K))) B := by
          refine bind_tracks (exprOfLead_tracks ih hs hK hlt hform) fun e t ht => htails e t ?_
          have hcontinues := Steady.exprOfLead hs form s (v := .full)
          rw [ht] at hcontinues
          exact Nat.lt_of_le_of_lt hcontinues.tokens.length_le hlt
        refine hbind.of_kind rfl hne fun v => ?_
        rw [Category.cons_mem_expr_mul]
        constructor
        · rintro ⟨form', hform', hv⟩
          obtain rfl := Option.some.inj (hform.symm.trans hform')
          exact hv
        · exact fun hv => ⟨form, hform, hv⟩
    refine ⟨fun bp K hK => hlead hK (tails_tracks ih hs hK (fun s _ e => ?_) (Nat.le_refl _)),
      fun {K} hK => hlead hK (tails_tracks ih hs hK (fun s hnone e => ?_) (Nat.le_refl _))⟩
    · exact Reply.tracks_done e s _
    · have hkind : Vocabulary.tailForm? s.kind = none := by
        cases hform : Vocabulary.full.tail? s.kind with
        | none => rw [Vocabulary.tailForm?, hform]; rfl
        | some p => exact absurd (Vocabulary.lowest_lt_of_tail? hform) (hnone p.1 p.2 hform)
      refine (Reply.tracks_done e s K).widen
        (fun v hv => ⟨[], Language.nil_mem_kstar _, v, hv, rfl⟩)
        fun v hv hvA => Category.mem_of_mem_operations_mul hvA fun k hk => ?_
      obtain ⟨x, rfl⟩ := List.head?_eq_some_iff.mp hk
      rwa [← hv] at hkind

theorem topLevel_tracks [HasWord K] : (topLevel .full).TracksBelow n (words .decl * K) K := by
  intro s hlt
  unfold topLevel
  split
  next hkind => exact declaration_tracks (expr_tracks n) s hlt
  next hkind =>
    refine refuse_tracks fun v hv hA => hkind ?_
    rw [← hv]
    exact headD_of_mem_decl_mul hA

/-- A declaration that fails offends first, whatever is read behind it. -/
theorem offends_of_declarations (hopen : s.openBlocks = 0) (hs : s.reported = []) {e : Diagnostic}
    {es : List Diagnostic} (h : (declarations .full s).2.reported = e :: es)
    (he : e.fault.refusesToken = true) : s.Offends (words .program) e := by
  induction hm : s.tokens.length using Nat.strong_induction_on generalizing s with
  | _ m ih =>
  subst hm
  rw [declarations_eq hopen, declarationsFrom] at h
  by_cases htokens : s.hasTokens = true
  · have hkind : s.kind ≠ .eof := by simpa [ParserState.hasTokens] using htokens
    have hone : (topLevel .full s).Tracks s (words .program) (words .program) := by
      have htop : (topLevel .full s).Tracks s (words .decl * words .program) (words .program) :=
        topLevel_tracks s (Nat.lt_succ_self _)
      refine htop.widen (fun v hv => ?_) fun v hv hA => ?_
      · obtain ⟨x, hx, y, hy, rfl⟩ := hv
        exact .moreDecls hx hy
      · cases hA with
        | noDecl => exact absurd hv.symm hkind
        | moreDecls hx hy => exact ⟨_, hx, _, hy, rfl⟩
    have hsteady := Steady.topLevel .full s
    rw [if_pos htokens] at h
    cases hreply : topLevel .full s with
    | done d t =>
      rw [hreply] at hone hsteady h
      obtain ⟨w, hw, hsound, hfull⟩ := hone
      have hshorter := (Consuming.topLevel .full hreply).length_lt
      exact (ih _ hshorter (hsteady.openBlocks.trans hopen) (hw.reported.trans hs) h rfl).of_passes
        hw hsound hfull
    | failed d t =>
      rw [hreply] at hone h
      obtain ⟨e', es', hes, hoffends⟩ := hone
      obtain ⟨ds, hds, _⟩ :=
        (continues_declarationsWithin .full _ (t.report d).synchronize).reported
      have hfirst : e :: es = e' :: (es' ++ ds) := by
        calc e :: es = (t.report d).reported ++ ds := h.symm.trans hds
          _ = e' :: (es' ++ ds) := by rw [ParserState.report, hes, hs]; rfl
      obtain ⟨rfl, -⟩ := List.cons.inj hfirst
      exact hoffends he
  · rw [if_neg htokens, hs] at h
    cases h

end Rule

theorem Layout.lexicalFault_of_invalid {front cs : List Char} {ts : List Token}
    (h : Layout front cs ts) {t : Token} (ht : t ∈ ts) (hk : t.kind = .invalid) :
    ∃ f, t.lexicalFault? = some f := by
  induction h with
  | finish _ =>
    obtain rfl := List.eq_of_mem_singleton ht
    exact nomatch hk
  | @token _ _ _ _ u _ _ hspelling _ _ _ ih =>
    rcases List.mem_cons.mp ht with rfl | ht
    · obtain ⟨k, payload, p⟩ := t
      obtain rfl : k = .invalid := hk
      cases hspelling with
      | fixed hfixed =>
        have hnone : ¬ (TokenKind.invalid ∈ TokenKind.symbols ∨ .invalid ∈ TokenKind.words) := by
          decide
        exact absurd hfixed hnone
      | tooLarge _ _ _ | unterminated _ | unrecognised => exact ⟨_, rfl⟩
    · exact ih ht

theorem eq_of_place_eq {source : String} {t u : Token} (ht : t ∈ tokenize source)
    (hu : u ∈ tokenize source) (h : t.place = u.place) : t = u := by
  have hordered : (tokenize source).Pairwise fun t u => t.place < u.place :=
    pairwise_place_tokensFrom _ _
  have hplaces : (tokenize source).Pairwise fun t u => t.place ≠ u.place :=
    hordered.imp fun {t u} hlt (he : t.place = u.place) => Position.lt_irrefl u.place (he ▸ hlt)
  have hsymm : Std.Symm fun t u : Token => t.place ≠ u.place := ⟨fun _ _ => Ne.symm⟩
  by_contra hne
  exact hplaces.forall ht hu hne h

namespace Program

theorem category_derives_of_parse {source : String} {T : TypeTable} (hT : T.Reachable)
    {p : Program} (h : (parse source T).1 = .ok p) :
    Category.program.Derives ((tokenize source).dropLast.map Token.kind) :=
  (derives_of_parse hT h).category

/-- The grammar is that of programs with any number of arguments in signatures and any expression to
assign to. When the first thing told of a text is what a token was refused with, then the tokens in
front of it begin some program, and with it they begin none; at the end of the text they are none.
What the lexer could not read is told as the fault that it carries. -/
theorem first_refused_of_parse_error {source : String} {T : TypeTable} {ds : List Diagnostic}
    {d : Diagnostic} (h : (parse source T).1 = .error ds) (hd : ds.head? = some d)
    (hf : d.fault.refusesToken = true) :
    ∃ front t rest, tokenize source = front ++ t :: rest ∧ t.place = d.place ∧
      (∀ u ∈ tokenize source, u.place = d.place → u = t) ∧
      (∃ w, Category.program.Derives (front.map Token.kind ++ w)) ∧
      (t.kind = .eof → ¬ Category.program.Derives (front.map Token.kind)) ∧
      (t.kind ≠ .eof → ∀ w, ¬ Category.program.Derives (front.map Token.kind ++ t.kind :: w)) ∧
      (t.kind = .invalid → t.lexicalFault? = some d.fault) := by
  obtain ⟨es, hreported⟩ : ∃ es,
      (Rule.declarations .full (.ofSource source T)).2.reported = d :: es := by
    simp only [parse, ofState] at h
    split at h
    next => cases h
    next hne =>
      obtain rfl := Except.error.inj h
      cases hds : (Rule.declarations .full (.ofSource source T)).2.reported with
      | nil => exact absurd hds hne
      | cons e es =>
        rw [hds] at hd
        exact ⟨es, by rw [← Option.some.inj hd]⟩
  obtain ⟨w, s, f, hw, rfl, ⟨v, hv⟩, hnone⟩ :=
    Rule.offends_of_declarations (s := .ofSource source T) rfl rfl hreported hf
  have hplace : (s.unexpected f).place = s.current.place := rfl
  -- what stands at the place of the diagnostic, and what stands behind it
  obtain ⟨t, rest, hsource, ht, hkind, hlexical⟩ : ∃ t rest, tokenize source = w ++ t :: rest ∧
      t.place = s.current.place ∧ t.kind = s.kind ∧
      (t.kind = .invalid → s.current.lexicalFault? = t.lexicalFault?) := by
    obtain ⟨finish, htokens, hfinish⟩ := exists_tokenize_eq source
    have hw' : (tokenize source).dropLast = w ++ s.tokens := hw.tokens
    rw [hw'] at htokens
    cases hs : s.tokens with
    | nil =>
      have hplace : finish.place = s.finish := by
        rw [hw.finish, ParserState.finish_ofSource (hw' ▸ htokens) T]
      refine ⟨finish, [], by rw [htokens, hs, List.append_nil], ?_, ?_, fun hk => ?_⟩
      · rw [hplace, ParserState.current, hs]
        rfl
      · rw [hfinish, ParserState.kind, ParserState.current, hs]
        rfl
      · cases hfinish.symm.trans hk
    | cons t ts =>
      refine ⟨t, ts ++ [finish], by rw [htokens, hs]; simp, ?_, ?_, fun _ => ?_⟩ <;>
        simp [ParserState.kind, ParserState.current, hs]
  have hmem : t ∈ tokenize source := by
    rw [hsource]
    exact List.mem_append_right _ List.mem_cons_self
  refine ⟨w, t, rest, hsource, ht, fun u hu hplace => eq_of_place_eq hu hmem (hplace.trans ht.symm),
    ⟨v, hv⟩, fun hk hderives => ?_, fun _ v => hnone _ hkind, fun hk => ?_⟩
  · refine hnone [] (hk.symm.trans hkind) ?_
    rwa [List.append_nil]
  · obtain ⟨g, hg⟩ := (layout_tokensFrom [] source.toList).lexicalFault_of_invalid hmem hk
    rw [hg, ParserState.unexpected, hlexical hk, hg]
    rfl

theorem first_refused_of_unread_character :
    (parse "fun f() = \x7b -g(1) (2 @ 3); \x7d;" .initial).1 =
      .error [⟨.unrecognised "@", ⟨21, 0, 21⟩⟩, ⟨.brokenBlock, ⟨10, 0, 10⟩⟩,
        ⟨.brokenProgram 2, ⟨29, 0, 29⟩⟩] ∧
      ∃ front t rest,
        tokenize "fun f() = \x7b -g(1) (2 @ 3); \x7d;" = front ++ t :: rest ∧
        t.place = ⟨21, 0, 21⟩ ∧ (∃ w, Category.program.Derives (front.map Token.kind ++ w)) ∧
        (t.kind ≠ .eof → ∀ w, ¬ Category.program.Derives (front.map Token.kind ++ t.kind :: w)) ∧
        (t.kind = .invalid → t.lexicalFault? = some (.unrecognised "@")) := by
  have h : (parse "fun f() = \x7b -g(1) (2 @ 3); \x7d;" .initial).1 =
      .error [⟨.unrecognised "@", ⟨21, 0, 21⟩⟩, ⟨.brokenBlock, ⟨10, 0, 10⟩⟩,
        ⟨.brokenProgram 2, ⟨29, 0, 29⟩⟩] := by cbv
  obtain ⟨front, t, rest, htokens, hplace, -, hprefix, -, hnone, hlexical⟩ :=
    first_refused_of_parse_error h rfl rfl
  exact ⟨h, front, t, rest, htokens, hplace, hprefix, hnone, hlexical⟩

end Program

end FrontEnd
