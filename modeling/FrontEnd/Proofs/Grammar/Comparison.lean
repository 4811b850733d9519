import FrontEnd.Proofs.Grammar.InStep

/-! Every rule of the language keeps two runs in step. Inside a block what went wrong is skipped as
far in one run as in the other, so the blocks that are left open are the same ones. -/

namespace FrontEnd.Rule

variable {F : Frame} {T : TypeTable} {b n m : Nat}

section Operand

variable {operand operand' : Operand}
  (h : ∀ bp, InStep F F.Ahead n 1 (Expr.Like F.place F.type) (operand bp) (operand' bp))
include h

theorem statement_inStep : InStep F F.Behind n 1 (Stmt.Like F.place F.type) (statement operand)
    (statement operand') := by
  refine (h _).bind_of_le (Nat.le_succ n) fun e e' he =>
    (advanceIf_inStep (by decide)).bind fun c c' hc => .ite hc ?_ ?_
  · have hname := he.name?
    generalize e.name? = x, e'.name? = x' at hname ⊢
    cases hname with
    | none => exact .fail ⟨rfl, he.place⟩
    | some _ =>
      exact (h _).bind fun a a' ha => expect_semicolon_inStep.bind_pure fun _ _ _ =>
        .assigned (.fresh he.place) he ha
  · exact expect_semicolon_inStep.bind_pure fun _ _ _ => .evaluated (.fresh he.place) he

theorem varDecl_inStep {p p' : Position} {g g' : Option TypeId} (hp : F.place p p')
    (hg : Option.Rel F.type g g') :
    InStep F F.Behind n 1 (Decl.Like F.place F.type) (varDecl operand p g)
      (varDecl operand' p' g') :=
  (expect_inStep (by decide)).bind_of_le (Nat.le_succ n) fun _ _ _ =>
    (expect_inStep (by decide)).bind fun _ _ hname => (expect_inStep (by decide)).bind fun _ _ _ =>
    (h _).bind fun _ _ he => expect_semicolon_inStep.bind_pure fun _ _ hfinish =>
    .var (.fresh hp) hname hg hfinish.place he

theorem fnDecl_inStep {p p' : Position} {g g' : Option TypeId} (hp : F.place p p')
    (hg : Option.Rel F.type g g') :
    InStep F F.Behind n 1 (Decl.Like F.place F.type) (fnDecl operand p g)
      (fnDecl operand' p' g') := by
  have hparams : InStep F F.Ahead n 0 (List.Forall₂ (Token.Like F.place))
      (itemsBefore .closeParen (expect .identifier))
      (itemsBefore .closeParen (expect .identifier)) := fun T =>
    itemsBefore_inStep (R := fun _ => Token.Like F.place) (fun _ _ _ _ _ ht => ht)
      (expect_inStep (by decide)) _
  exact (expect_inStep (by decide)).bind_of_le (Nat.le_succ n) fun _ _ _ =>
    (expect_inStep (by decide)).bind fun _ _ hname => (expect_inStep (by decide)).bind fun _ _ _ =>
    hparams.bind fun _ _ hps => (expect_inStep (by decide)).bind fun _ _ _ =>
    (fitSignature_inStep hname hps hg).bind fun _ _ _ => (expect_inStep (by decide)).bind
    fun _ _ _ => (h _).bind fun _ _ he => expect_semicolon_inStep.bind_pure fun _ _ _ =>
    .fn (.fresh hp) hname hg hps he

theorem declaration_inStep : InStep F F.Behind n 1 (Decl.Like F.place F.type)
    (declaration .full operand) (declaration .full operand') := by
  refine current_inStep.bind fun t t' ht => signature?_inStep.bind fun g g' hg =>
    current_inStep.bind fun k k' hk => ?_
  rw [← hk.kind]
  split
  · exact varDecl_inStep h ht.place hg
  · exact fnDecl_inStep h ht.place hg
  · exact .refuse

theorem blockItem_inStep : InStep F F.Behind n 1 (Stmt.Like F.place F.type)
    (blockItem .full operand) (blockItem .full operand') := by
  intro T b w w' s s' hs hw hn
  unfold blockItem
  rw [hs.kind hw]
  split
  · exact (declaration_inStep h T hs hw hn).map fun _ _ _ hd => .declared (.fresh hd.declPlace) hd
  · exact statement_inStep h T hs hw hn

end Operand

/-- Inside a block the stretch goes on behind a semicolon, too. -/
def Inside (F : Frame) (b : Nat) (w : List Token) : Prop :=
  ∀ d rest rest', F.span = .stretch d rest rest' → d < b ∧ ClosedBy (b - d) w

namespace Inside

variable {t : Token} {v w : List Token}

theorem ahead (h : Inside F b w) : F.Ahead b w := by
  intro d rest rest' hspan
  obtain ⟨hd, hclosed⟩ := h d rest rest' hspan
  exact ⟨Nat.le_of_lt hd, hclosed⟩

theorem of_ahead (h : Inside F b w) (hv : F.Ahead b v) : Inside F b v := by
  intro d rest rest' hspan
  exact ⟨(h d rest rest' hspan).1, (hv d rest rest' hspan).2⟩

theorem of_behind (h : Inside F b w) (hv : F.Behind b v) : Inside F b v := by
  intro d rest rest' hspan
  have hd := (h d rest rest' hspan).1
  rcases hv d rest rest' hspan with ⟨he, _⟩ | hclosed
  · omega
  · exact hclosed

theorem of_brace (hw : F.Ahead b (t :: v)) (ht : t.kind = .openCurly) : Inside F (b + 1) v := by
  intro d rest rest' hspan
  obtain ⟨hd, hclosed⟩ := hw d rest rest' hspan
  refine ⟨by omega, ?_⟩
  rw [Nat.sub_add_comm hd]
  exact hclosed.open_ ht

theorem close (h : Inside F (b + 1) (t :: v)) (ht : t.kind = .closeCurly) : F.Ahead b v := by
  intro d rest rest' hspan
  obtain ⟨hd, hclosed⟩ := h d rest rest' hspan
  have hv := (hclosed.close ht).2
  rw [Nat.sub_add_comm (by omega), Nat.add_sub_cancel] at hv
  exact ⟨by omega, hv⟩

theorem whole_of_eof {w' : List Token} {s s' : ParserState} (h : Inside F b w)
    (hs : s.Abreast F T b w w' s') (hk : s.kind = .eof) : F.span = .whole := by
  cases w with
  | nil => exact h.ahead.whole_of_nil
  | cons t v =>
    cases hspan : F.span with
    | whole => rfl
    | stretch d rest rest' =>
      have ht : s.kind = t.kind := congrArg Token.kind (by simp [ParserState.current, hs.tokens])
      exact absurd (ht ▸ hk) (h d rest rest' hspan).2.kind_ne_eof

end Inside

/-- What two runs over the items of a block and its closing brace leave. Only the end of a text
stops them before the brace. -/
inductive ItemsAbreast (F : Frame) (T : TypeTable) (b : Nat) (w : List Token) :
    Reply (List Stmt × Bool) → Reply (List Stmt × Bool) → Prop
  | done {ss ss' : List Stmt} {failed : Bool} {t t' : ParserState} {v v' : List Token} :
      Node.Like F.place F.type (.stmts ss) (.stmts ss') → t.Abreast F T (b + 1) v v' t' →
      v <:+ w → F.Ahead b v → ItemsAbreast F T b w (.done (ss, failed) t) (.done (ss', failed) t')
  | failed {d d' : Diagnostic} {t t' : ParserState} {v v' : List Token} :
      d.Like F.place d' → t.Abreast F T (b + 1) v v' t' → v <:+ w → F.span = .whole →
      ItemsAbreast F T b w (.failed d t) (.failed d' t')

theorem ItemsAbreast.map {w v : List Token} {x x' : Reply (List Stmt × Bool)}
    {f f' : List Stmt × Bool → List Stmt × Bool} (h : ItemsAbreast F T b v x x') (hv : v <:+ w)
    (hf : ∀ ss ss' failed, Node.Like F.place F.type (.stmts ss) (.stmts ss') →
      ∃ rs rs' r, f (ss, failed) = (rs, r) ∧ f' (ss', failed) = (rs', r) ∧
        Node.Like F.place F.type (.stmts rs) (.stmts rs')) :
    ItemsAbreast F T b w (x.map f) (x'.map f') := by
  cases h with
  | @done ss ss' failed t t' u u' hss ht hu hw =>
    obtain ⟨rs, rs', r, he, he', hrs⟩ := hf ss ss' failed hss
    rw [Reply.map, Reply.map, he, he']
    exact .done hrs ht (hu.trans hv) hw
  | failed hd ht hu hw => exact .failed hd ht (hu.trans hv) hw

theorem itemsWithin_abreast {item item' : Rule Stmt} {i j : Nat} {w w' : List Token}
    {s s' : ParserState} (hitem : InStep F F.Behind n 1 (Stmt.Like F.place F.type) item item')
    (hm : m ≤ n) (hi : m ≤ i) (hj : m ≤ j) (hs : s.Abreast F T (b + 1) w w' s')
    (hw : Inside F (b + 1) w) (hlength : w.length ≤ m) :
    ItemsAbreast F T b w (itemsWithin item i s) (itemsWithin item' j s') := by
  induction m generalizing T i j s s' w w' with
  | zero =>
    obtain rfl : w = [] := List.eq_nil_of_length_eq_zero (by omega)
    have heof : s.kind = .eof := congrArg Token.kind (hs.nil hw.ahead).2.2.1
    have hrefuse {item : Rule Stmt} {i : Nat} {u : ParserState} (hu : u.kind = .eof) :
        itemsWithin item i u = refuse (.unexpectedToken .closeCurly) u := by
      cases i with
      | zero => rfl
      | succ i => simp only [itemsWithin, hu]
    rw [hrefuse heof, hrefuse (hs.kind hw.ahead ▸ heof)]
    exact .failed (hs.unexpected hw.ahead _) hs List.suffix_rfl (hw.whole_of_eof hs heof)
  | succ m ih =>
    obtain ⟨i, rfl⟩ : ∃ k, i = k + 1 := ⟨i - 1, by omega⟩
    obtain ⟨j, rfl⟩ : ∃ k, j = k + 1 := ⟨j - 1, by omega⟩
    unfold itemsWithin
    rw [hs.kind hw.ahead]
    split
    next hk =>
      obtain ⟨t, v, t', v', rfl, rfl, hkind, _, _, _, hrest⟩ :=
        hs.exists_cons hw.ahead (hk ▸ by decide)
      exact .done .noStmt hrest (List.suffix_cons t v) (hw.close (hkind ▸ hk))
    next hk =>
      exact .failed (hs.unexpected hw.ahead _) hs List.suffix_rfl (hw.whole_of_eof hs hk)
    next hclose heof =>
      have hr := hitem T hs hw.ahead (by omega)
      generalize item s = x, item' s' = x' at hr
      cases hr with
      | @done a a' t t' v v' ha ht hv hk hbehind =>
        have hrest := ih (Nat.le_of_succ_le hm) (Nat.le_of_succ_le_succ hi)
          (Nat.le_of_succ_le_succ hj) ht (hw.of_behind hbehind) (by omega)
        exact hrest.map hv fun _ _ _ hss => ⟨_, _, _, rfl, rfl, .moreStmts ha hss⟩
      | @failed d d' t t' v v' hd ht hv hahead =>
        have hlt : (recover true 0 v).length < w.length := by
          obtain ⟨u, x, _, _, rfl, _, hkind, _⟩ := hs.exists_cons hw.ahead heof
          exact length_recover_lt_of_suffix hv (hkind ▸ heof) (.inl (hkind ▸ hclose))
        obtain ⟨hsync, hin⟩ := (ht.report hd).synchronize (Nat.succ_pos b) (hw.of_ahead hahead)
        have hrest := ih (Nat.le_of_succ_le hm) (Nat.le_of_succ_le_succ hi)
          (Nat.le_of_succ_le_succ hj) hsync hin (by omega)
        exact hrest.map ((recover_suffix _ _ _).trans hv) fun _ _ _ hss =>
          ⟨_, _, _, rfl, rfl, hss⟩

section Operand

variable {operand operand' : Operand}
  (h : ∀ bp, InStep F F.Ahead n 1 (Expr.Like F.place F.type) (operand bp) (operand' bp))
include h

theorem block_inStep : InStep F F.Ahead (n + 1) 1
    (fun c c' => Node.Like F.place F.type (.stmts c.1) (.stmts c'.1) ∧ F.place c.2 c'.2)
    (block .full operand) (block .full operand') := by
  intro T b w w' s s' hs hw hn
  by_cases hk : s.kind = .openCurly
  · rw [block_of_brace hk, block_of_brace (hs.kind hw ▸ hk)]
    obtain ⟨t, v, t', v', rfl, rfl, hkind, hc, hc', ht, hrest⟩ :=
      hs.exists_cons hw (hk ▸ by decide)
    have hlength : v.length ≤ n := Nat.le_of_succ_le_succ hn
    have hitems := itemsWithin_abreast (blockItem_inStep h) hlength hrest.length_le
      hrest.length_le' hrest.enterBlock (.of_brace hw (hkind ▸ hk)) (Nat.le_refl _)
    rw [hc, hc']
    generalize itemsWithin (blockItem .full operand) _ s.advance.enterBlock = x,
      itemsWithin (blockItem .full operand') _ s'.advance.enterBlock = x' at hitems
    cases hitems with
    | failed hd hu hv hspan =>
      exact .failed hd hu.exitBlock (hv.trans (List.suffix_cons t v)) (F.ahead_of_whole hspan _ _)
    | @done ss ss' failed u u' _ _ hss hu hv hahead =>
      cases failed with
      | true =>
        exact .failed ⟨rfl, ht.place⟩ hu.exitBlock (hv.trans (List.suffix_cons t v)) hahead
      | false =>
        have hle := hv.length_le
        exact .done ⟨hss, ht.place⟩ hu.exitBlock (hv.trans (List.suffix_cons t v))
          (Nat.succ_le_succ hle) hahead
  · rw [block_of_other hk, block_of_other (hs.kind hw ▸ hk)]
    exact .failed (hs.unexpected hw _) hs List.suffix_rfl hw

theorem exprOfLead_abreast {w w' : List Token} {s s' : ParserState} {form : LeadForm}
    (hform : Vocabulary.full.lead? s.kind = some form) (hs : s.Abreast F T b w w' s')
    (hw : F.Ahead b w) (hn : w.length ≤ n + 1) :
    (exprOfLead .full operand form s).Abreast F T b (F.Ahead b) 1
      (fun _ => Expr.Like F.place F.type) w (exprOfLead .full operand' form s') := by
  cases form with
  | primary =>
    have hlead : s.kind ∈ TokenKind.literals := by
      revert hform
      cases s.kind <;> decide
    have hplain : IsPlain s.kind := by
      revert hlead
      cases s.kind <;> decide
    have hr := advance_abreast hs hw hplain
    simp only [exprOfLead, primary_done hlead, primary_done (hs.kind hw ▸ hlead)]
    cases hr with
    | done ha ht hv hk hw => exact .done (.leaf (.fresh ha.place) ha) ht hv hk hw
  | prefixed =>
    have hk : IsPlain s.kind := by
      revert hform
      cases s.kind <;> decide
    exact advance_bind_abreast hs hw hn hk fun T t t' ht =>
      ((h _ T).of_le (Nat.zero_le 1)).bind_pure fun _ _ _ _ he => .unary (.fresh ht.place) ht he
  | grouping =>
    exact (expect_inStep (by decide)).bind_of_le (Nat.le_refl _) (fun _ _ _ => (h _).bind
      fun _ _ he => (expect_inStep (by decide)).bind fun _ _ _ => .pure he) T hs hw hn
  | block =>
    exact (block_inStep h).bind_pure (fun _ _ hb => .block (.fresh hb.2) hb.1) T hs hw hn
  | conditional =>
    refine (expect_inStep (by decide)).bind_of_le (Nat.le_refl _) (fun _ _ hstart => (h _).bind
      fun _ _ hc => (expect_inStep (by decide)).bind fun _ _ _ => (h _).bind fun _ _ ht =>
      (advanceIf_inStep (by decide)).bind fun _ _ heq => .ite heq ?_ ?_) T hs hw hn
    · exact ((h _).of_le (Nat.zero_le 1)).bind_pure fun _ _ he =>
        .ifElse (.fresh hstart.place) hc ht he
    · exact .pure (.ifThen (.fresh hstart.place) hc ht)
  | returned =>
    exact (expect_inStep (by decide)).bind_of_le (Nat.le_refl _) (fun _ _ hstart =>
      ((h _).of_le (Nat.zero_le 1)).bind_pure fun _ _ he => .result (.fresh hstart.place) he)
      T hs hw hn
  | yielded =>
    exact (expect_inStep (by decide)).bind_of_le (Nat.le_refl _) (fun _ _ hstart =>
      ((h _).of_le (Nat.zero_le 1)).bind_pure fun _ _ he => .result (.fresh hstart.place) he)
      T hs hw hn

theorem exprOfTail_abreast {w w' : List Token} {s s' : ParserState} {form : TailForm}
    {bp : BindingPower} {l l' : Expr} (hform : Vocabulary.full.tail? s.kind = some (bp, form))
    (hl : l.Like F.place F.type l') (hs : s.Abreast F T b w w' s') (hw : F.Ahead b w)
    (hn : w.length ≤ n + 1) :
    (exprOfTail operand l bp form s).Abreast F T b (F.Ahead b) 1
      (fun _ => Expr.Like F.place F.type) w (exprOfTail operand' l' bp form s') := by
  have hk : IsPlain s.kind := by
    revert hform
    cases s.kind <;> cases bp <;> cases form <;> decide
  have hbinary (binaryForm : BinaryForm) :
      (binaryTail operand binaryForm l bp s).Abreast F T b (F.Ahead b) 1
        (fun _ => Expr.Like F.place F.type) w (binaryTail operand' binaryForm l' bp s') :=
    advance_bind_abreast hs hw hn hk fun T t t' ht =>
      ((h _ T).of_le (Nat.zero_le 1)).bind_pure fun _ _ _ _ hr =>
        .binary (.fresh ht.place) ht hl hr
  cases form with
  | comparison => exact hbinary .comparison
  | arithmetic => exact hbinary .arithmetic
  | call =>
    have harguments : InStep F F.Ahead n 0 (List.Forall₂ (Expr.Like F.place F.type))
        (itemsBefore .closeParen (operand .lowest)) (itemsBefore .closeParen (operand' .lowest)) :=
      fun T => itemsBefore_inStep (R := fun _ => Expr.Like F.place F.type)
        (fun _ _ _ _ _ he => he) (h .lowest) _
    exact (expect_inStep (by decide)).bind_of_le (Nat.le_refl _) (fun _ _ _ => harguments.bind
      fun _ _ has => (expect_inStep (by decide)).bind fun _ _ _ =>
      .pure (.call (.fresh hl.place) hl (Node.Like.exprs.mpr has))) T hs hw hn

theorem tailsWithin_inStep (bp : BindingPower) {l l' : Expr} {i j : Nat} (hm : m ≤ n + 1)
    (hi : m ≤ i) (hj : m ≤ j) (hl : l.Like F.place F.type l') :
    InStep F F.Ahead m 0 (Expr.Like F.place F.type) (tailsWithin .full operand bp i l)
      (tailsWithin .full operand' bp j l') := by
  induction m generalizing i j l l' with
  | zero =>
    intro T b w w' s s' hs hw hn
    obtain rfl : w = [] := List.eq_nil_of_length_eq_zero (by omega)
    have heof : s.kind = .eof := congrArg Token.kind (hs.nil hw).2.2.1
    have hstop {operand : Operand} {i : Nat} {l : Expr} {u : ParserState} (hu : u.kind = .eof) :
        tailsWithin .full operand bp i l u = .done l u := by
      cases i with
      | zero => rfl
      | succ i => simp only [tailsWithin, hu, Vocabulary.tail?]
    rw [hstop heof, hstop (hs.kind hw ▸ heof)]
    exact .done hl hs List.suffix_rfl (Nat.le_refl _) hw
  | succ m ih =>
    obtain ⟨i, rfl⟩ : ∃ k, i = k + 1 := ⟨i - 1, by omega⟩
    obtain ⟨j, rfl⟩ : ∃ k, j = k + 1 := ⟨j - 1, by omega⟩
    intro T b w w' s s' hs hw hn
    unfold tailsWithin
    rw [hs.kind hw]
    cases hform : Vocabulary.full.tail? s.kind with
    | none => exact .done hl hs List.suffix_rfl (Nat.le_refl _) hw
    | some tail =>
      obtain ⟨next, form⟩ := tail
      by_cases hnext : bp < next
      · have hr := exprOfTail_abreast h hform hl hs hw (by omega)
        simp only [hnext, if_true, bind_apply]
        generalize exprOfTail operand l next form s = x,
          exprOfTail operand' l' next form s' = x' at hr
        cases hr with
        | failed hd ht hv hw => exact .failed hd ht hv hw
        | done ha ht hv hk hw =>
          have hrest := ih (Nat.le_of_succ_le hm) (Nat.le_of_succ_le_succ hi)
            (Nat.le_of_succ_le_succ hj) ha _ ht.self hw (by omega)
          exact (hrest.of_suffix ht.grows hv hk).of_le (Nat.zero_le _)
      · simp only [hnext, if_false]
        exact .done hl hs List.suffix_rfl (Nat.le_refl _) hw

end Operand

theorem exprWithin_inStep {bp : BindingPower} {i j : Nat} (hi : n ≤ i) (hj : n ≤ j) :
    InStep F F.Ahead n 1 (Expr.Like F.place F.type) (exprWithin .full i bp)
      (exprWithin .full j bp) := by
  induction n generalizing i j bp with
  | zero =>
    intro T b w w' s s' hs hw hn
    obtain rfl : w = [] := List.eq_nil_of_length_eq_zero (by omega)
    have heof : s.kind = .eof := congrArg Token.kind (hs.nil hw).2.2.1
    have hrefuse {i : Nat} {u : ParserState} (hu : u.kind = .eof) :
        exprWithin .full i bp u = refuse .noExpression u := by
      cases i with
      | zero => rfl
      | succ i => simp only [exprWithin, hu, Vocabulary.lead?]
    rw [hrefuse heof, hrefuse (hs.kind hw ▸ heof)]
    exact InStepFrom.refuse hs hw hn
  | succ n ih =>
    obtain ⟨i, rfl⟩ : ∃ k, i = k + 1 := ⟨i - 1, by omega⟩
    obtain ⟨j, rfl⟩ : ∃ k, j = k + 1 := ⟨j - 1, by omega⟩
    have hoperand (bp : BindingPower) : InStep F F.Ahead n 1 (Expr.Like F.place F.type)
        (exprWithin .full i bp) (exprWithin .full j bp) :=
      ih (Nat.le_of_succ_le_succ hi) (Nat.le_of_succ_le_succ hj)
    intro T b w w' s s' hs hw hn
    unfold exprWithin
    rw [hs.kind hw]
    cases hform : Vocabulary.full.lead? s.kind with
    | none => exact InStepFrom.refuse hs hw hn
    | some form =>
      have hr := exprOfLead_abreast hoperand hform hs hw hn
      simp only [bind_apply]
      generalize exprOfLead .full (exprWithin .full i) form s = x,
        exprOfLead .full (exprWithin .full j) form s' = x' at hr
      cases hr with
      | failed hd ht hv hw => exact .failed hd ht hv hw
      | done ha ht hv hk hw =>
        have hrest := tailsWithin_inStep hoperand bp (by omega) ht.length_le ht.length_le' ha _
          ht.self hw (Nat.le_refl _)
        exact hrest.of_suffix ht.grows hv hk

theorem expr_inStep (bp : BindingPower) :
    InStep F F.Ahead n 1 (Expr.Like F.place F.type) (expr .full bp) (expr .full bp) := by
  intro T b w w' s s' hs hw hn
  exact exprWithin_inStep hs.length_le hs.length_le' T hs hw (Nat.le_refl _)

theorem topLevel_inStep :
    InStep F F.Behind n 1 (Decl.Like F.place F.type) (topLevel .full) (topLevel .full) := by
  intro T b w w' s s' hs hw hn
  unfold topLevel
  rw [hs.kind hw]
  split
  · exact declaration_inStep expr_inStep T hs hw hn
  · exact InStepFrom.refuse hs hw hn

/-- Over all that is left of two texts the declarations are read alike. -/
theorem declarationsWithin_abreast {i j : Nat} {w w' : List Token} {s s' : ParserState}
    (hspan : F.span = .whole) (hi : m ≤ i) (hj : m ≤ j) (hs : s.Abreast F T 0 w w' s')
    (hm : w.length ≤ m) :
    Node.Like F.place F.type (.decls (declarationsWithin .full i s).1)
        (.decls (declarationsWithin .full j s').1) ∧
      ∃ v v', (declarationsWithin .full i s).2.Abreast F T 0 v v'
        (declarationsWithin .full j s').2 := by
  induction m generalizing T i j s s' w w' with
  | zero =>
    obtain rfl : w = [] := List.eq_nil_of_length_eq_zero (by omega)
    have hahead := F.ahead_of_whole hspan 0 []
    have heof : s.kind = .eof := congrArg Token.kind (hs.nil hahead).2.2.1
    have hstop {i : Nat} {u : ParserState} (hu : u.kind = .eof) :
        declarationsWithin .full i u = ([], u) := by
      cases i with
      | zero => rfl
      | succ i => simp [declarationsWithin, ParserState.hasTokens, hu]
    rw [hstop heof, hstop (hs.kind hahead ▸ heof)]
    exact ⟨.noDecl, _, _, hs⟩
  | succ m ih =>
    obtain ⟨i, rfl⟩ : ∃ k, i = k + 1 := ⟨i - 1, by omega⟩
    obtain ⟨j, rfl⟩ : ∃ k, j = k + 1 := ⟨j - 1, by omega⟩
    have hi := Nat.le_of_succ_le_succ hi
    have hj := Nat.le_of_succ_le_succ hj
    have hahead := F.ahead_of_whole hspan 0 w
    unfold declarationsWithin ParserState.hasTokens
    rw [hs.kind hahead]
    by_cases heof : s.kind = .eof
    · simp only [heof, bne_self_eq_false, Bool.false_eq_true, if_false]
      exact ⟨.noDecl, _, _, hs⟩
    · have hr := topLevel_inStep T hs hahead (Nat.le_refl _)
      simp only [bne_iff_ne, ne_eq, heof, not_false_eq_true, if_true]
      generalize topLevel .full s = x, topLevel .full s' = x' at hr
      cases hr with
      | done hd ht hv hk _ =>
        obtain ⟨hds, hrest⟩ := ih hi hj ht (by omega)
        exact ⟨.moreDecls hd hds, hrest⟩
      | @failed d d' t t' v v' hd ht hv _ =>
        have hlt : (recover false 0 v).length < w.length := by
          obtain ⟨u, x, _, _, rfl, _, hkind, _⟩ := hs.exists_cons hahead heof
          exact length_recover_lt_of_suffix hv (hkind ▸ heof) (.inr rfl)
        have hsync := (ht.report hd).synchronize_of_whole hspan
        rw [show decide (0 < 0) = false from rfl] at hsync
        exact ih hi hj hsync (by omega)

end FrontEnd.Rule
