import FrontEnd.Proofs.Grammar.Accepting
import FrontEnd.Proofs.Syntax.Mapping

/-! Reading tokens that say something else. The grammar looks at what a token is and hands on what
it says, so a rule reads what it reads from the tokens as they were, with the new tokens in it. -/

namespace FrontEnd

/-- The state before the tokens that `f` makes of those that are left. -/
def ParserState.relabel (f : Token → Token) (s : ParserState) : ParserState :=
  { s with tokens := s.tokens.map f }

variable {α β : Type} {f : Token → Token}

namespace ParserState

theorem current_relabel (hf : Relabels f) (s : ParserState) :
    (s.relabel f).current = f s.current := by
  unfold relabel current
  cases s.tokens with
  | nil => exact (hf.endAt _).symm
  | cons k ks => rfl

theorem kind_relabel (hf : Relabels f) (s : ParserState) : (s.relabel f).kind = s.kind := by
  rw [kind, current_relabel hf, hf.kind, kind]

theorem advance_relabel (s : ParserState) : (s.relabel f).advance = s.advance.relabel f := by
  simp only [relabel, advance, List.map_tail]

theorem length_relabel (s : ParserState) : (s.relabel f).tokens.length = s.tokens.length :=
  List.length_map ..

end ParserState

namespace Rule

/-- Where `r` reads something, `r'` reads from the new tokens what `g` makes of it. -/
def Carries (f : Token → Token) (g : α → β) (r : Rule α) (r' : Rule β) : Prop :=
  ∀ ⦃s a t⦄, r s = .done a t → r' (s.relabel f) = .done (g a) (t.relabel f)

namespace Carries

variable {γ δ : Type} {g : α → β} {h : γ → δ} {r : Rule α} {r' : Rule β} {q : α → Rule γ}
  {q' : β → Rule δ}

theorem pure {a : α} {b : β} (hb : g a = b) : Carries f g (Pure.pure a) (Pure.pure b) := by
  intro s x t hs
  obtain ⟨rfl, rfl⟩ := of_pure_done hs
  rw [pure_apply, hb]

theorem fail {d : Diagnostic} : Carries f g (Rule.fail d) r' := fun _ _ _ hs => nomatch hs

theorem refuse {w : String → Fault} : Carries f g (Rule.refuse w) r' := fun _ _ _ hs => nomatch hs

theorem bind (hr : Carries f g r r') (hq : ∀ a, Carries f h (q a) (q' (g a))) :
    Carries f h (r >>= q) (r' >>= q') := by
  intro s c u hs
  obtain ⟨a, t, ha, hc⟩ := of_bind_done hs
  rw [bind_done _ (hr ha)]
  exact hq a hc

theorem enterType (shape : TypeShape) :
    Carries f id (Rule.enterType shape) (Rule.enterType shape) := by
  intro s a t hs
  injection hs with ha ht
  subst ha ht
  rfl

theorem fitSignature {n : Token} {ps : List Token} (signature : Option TypeId) :
    Carries f id (Rule.fitSignature n ps signature)
      (Rule.fitSignature (f n) (ps.map f) signature) := by
  intro s a t hs
  obtain ⟨rfl, hfits⟩ := of_fitSignature_done hs
  cases signature with
  | none => rfl
  | some u =>
    obtain ⟨as, r, hfunction, hlength⟩ := hfits u rfl
    have hfunction : (t.relabel f).types.function? u = some (as, r) := hfunction
    simp only [Rule.fitSignature, hfunction, List.length_map, hlength, if_true, id]

variable (hf : Relabels f)
include hf

theorem current : Carries f f Rule.current Rule.current := by
  intro s a t hs
  injection hs with ha ht
  subst ha ht
  rw [Rule.current, ParserState.current_relabel hf]

theorem advance : Carries f f Rule.advance Rule.advance := by
  intro s a t hs
  injection hs with ha ht
  subst ha ht
  rw [Rule.advance, ParserState.current_relabel hf, ParserState.advance_relabel]

theorem expect (k : TokenKind) : Carries f f (Rule.expect k) (Rule.expect k) := by
  intro s a t hs
  by_cases hk : s.kind = k
  · rw [expect_done hk] at hs
    rw [expect_done ((ParserState.kind_relabel hf s).trans hk)]
    exact advance hf hs
  · rw [expect_failed hk] at hs
    exact nomatch hs

theorem advanceIf (k : TokenKind) : Carries f id (Rule.advanceIf k) (Rule.advanceIf k) := by
  intro s a t hs
  unfold Rule.advanceIf at hs ⊢
  rw [ParserState.kind_relabel hf]
  split at hs
  next hk =>
    injection hs with ha ht
    subst ha ht
    rw [if_pos hk, ParserState.advance_relabel]
    rfl
  next hk =>
    injection hs with ha ht
    subst ha ht
    rw [if_neg hk]
    rfl

theorem commaSeparated {item : Rule α} {item' : Rule β} (hi : Carries f g item item') (n : Nat) :
    Carries f (List.map g) (Rule.commaSeparated item n) (Rule.commaSeparated item' n) := by
  induction n with
  | zero => exact hi.bind fun _ => .pure rfl
  | succ n ih =>
    refine hi.bind fun _ => (advanceIf hf _).bind fun more => ?_
    cases more with
    | true => exact ih.bind fun _ => .pure rfl
    | false => exact .pure rfl

theorem itemsBefore {item : Rule α} {item' : Rule β} (hi : Carries f g item item')
    (close : TokenKind) :
    Carries f (List.map g) (Rule.itemsBefore close item) (Rule.itemsBefore close item') := by
  intro s a t hs
  unfold Rule.itemsBefore at hs ⊢
  rw [ParserState.kind_relabel hf, ParserState.length_relabel]
  split at hs
  next hk =>
    injection hs with ha ht
    subst ha ht
    rw [if_pos hk]
    rfl
  next hk =>
    rw [if_neg hk]
    exact commaSeparated hf hi _ hs

section Signatures

theorem primitiveType : Carries f id Rule.primitiveType Rule.primitiveType := by
  intro s a t hs
  unfold Rule.primitiveType at hs ⊢
  rw [ParserState.kind_relabel hf]
  split at hs
  next p hp =>
    injection hs with ha ht
    subst ha ht
    rw [ParserState.advance_relabel]
    rfl
  next => exact nomatch hs

theorem typeOfForm {part : Rule TypeId} (hpart : Carries f id part part) (form : TypeForm) :
    Carries f id (Rule.typeOfForm part form) (Rule.typeOfForm part form) := by
  cases form with
  | primitive => exact primitiveType hf
  | pointer => exact (expect hf _).bind fun _ => hpart.bind fun _ => enterType _
  | function =>
    refine (expect hf _).bind fun _ => (itemsBefore hf hpart _).bind fun as => ?_
    rw [List.map_id]
    exact (expect hf _).bind fun _ => (expect hf _).bind fun _ => hpart.bind fun _ => enterType _

theorem typeWithin (v : Vocabulary) (n : Nat) :
    Carries f id (Rule.typeWithin v n) (Rule.typeWithin v n) := by
  induction n with
  | zero => exact .refuse
  | succ n ih =>
    intro s a t hs
    unfold Rule.typeWithin at hs ⊢
    rw [ParserState.kind_relabel hf]
    split at hs
    next form _ => exact typeOfForm hf ih form hs
    next => exact nomatch hs

theorem type (v : Vocabulary) : Carries f id (Rule.type v) (Rule.type v) := by
  intro s a t hs
  unfold Rule.type
  rw [ParserState.length_relabel]
  exact typeWithin hf v _ hs

theorem signature? (v : Vocabulary) : Carries f id (Rule.signature? v) (Rule.signature? v) := by
  refine (advanceIf hf _).bind fun signed => ?_
  cases signed with
  | true => exact (type hf v).bind fun _ => .pure rfl
  | false => exact .pure rfl

end Signatures

section Operand

variable {v : Vocabulary} {operand : Operand}
  (ho : ∀ bp, Carries f (Expr.map (.ofToken f)) (operand bp) (operand bp))
include ho

theorem statement : Carries f (Stmt.map (.ofToken f)) (Rule.statement operand)
    (Rule.statement operand) := by
  refine (ho _).bind fun e => (advanceIf hf _).bind fun assigned => ?_
  cases assigned with
  | false =>
    exact (expect hf _).bind fun _ => .pure (by rw [Expr.place_map_ofToken]; rfl)
  | true =>
    rw [if_pos rfl, id, if_pos rfl, Expr.name?_map_ofToken hf]
    cases e.name? with
    | none => exact .fail
    | some n =>
      exact (ho _).bind fun _ => (expect hf _).bind fun _ =>
        .pure (by rw [Expr.place_map_ofToken]; rfl)

theorem varDecl (p : Position) (signature : Option TypeId) : Carries f (Decl.map (.ofToken f))
    (Rule.varDecl operand p signature) (Rule.varDecl operand p signature) :=
  (expect hf _).bind fun _ => (expect hf _).bind fun _ => (expect hf _).bind fun _ =>
    (ho _).bind fun _ => (expect hf _).bind fun _ => .pure (by rw [hf.place]; rfl)

theorem fnDecl (p : Position) (signature : Option TypeId) : Carries f (Decl.map (.ofToken f))
    (Rule.fnDecl operand p signature) (Rule.fnDecl operand p signature) :=
  (expect hf _).bind fun _ => (expect hf _).bind fun _ => (expect hf _).bind fun _ =>
    (itemsBefore hf (expect hf _) _).bind fun _ => (expect hf _).bind fun _ =>
    (fitSignature signature).bind fun _ => (expect hf _).bind fun _ => (ho _).bind fun _ =>
    (expect hf _).bind fun _ => .pure rfl

theorem declaration : Carries f (Decl.map (.ofToken f)) (Rule.declaration v operand)
    (Rule.declaration v operand) := by
  refine (current hf).bind fun start => (signature? hf v).bind fun signature =>
    (current hf).bind fun k => ?_
  rw [hf.kind, hf.place, id]
  cases k.kind
  case kwVar => exact varDecl hf ho _ _
  case kwFun => exact fnDecl hf ho _ _
  all_goals exact .refuse

theorem blockItem : Carries f (Stmt.map (.ofToken f)) (Rule.blockItem v operand)
    (Rule.blockItem v operand) := by
  intro s a t hs
  unfold Rule.blockItem at hs ⊢
  rw [ParserState.kind_relabel hf]
  split at hs
  next hk =>
    rw [if_pos hk]
    cases hd : Rule.declaration v operand s with
    | failed d u =>
      rw [hd] at hs
      exact nomatch hs
    | done d u =>
      rw [hd] at hs
      injection hs with ha ht
      subst ha ht
      rw [declaration hf ho hd, Reply.map, Decl.place_map_ofToken]
      rfl
  next hk =>
    rw [if_neg hk]
    exact statement hf ho hs

omit ho in
theorem of_itemsWithin_done {item : Rule Stmt} (hi : Carries f (Stmt.map (.ofToken f)) item item)
    {n : Nat} {s t : ParserState} {ss : List Stmt}
    (hs : Rule.itemsWithin item n s = .done (ss, false) t) :
    Rule.itemsWithin item n (s.relabel f) =
      .done (Stmt.mapAll (.ofToken f) ss, false) (t.relabel f) := by
  induction n generalizing s ss with
  | zero => cases hs
  | succ n ih =>
    unfold Rule.itemsWithin at hs ⊢
    rw [ParserState.kind_relabel hf]
    split at hs
    next hk =>
      injection hs with hss ht
      injection hss with hss _
      subst hss ht
      rw [ParserState.advance_relabel]
      rfl
    next => cases hs
    next =>
      split at hs
      next a s₁ ha =>
        simp only [hi ha]
        cases hr : Rule.itemsWithin item n s₁ with
        | failed d u =>
          rw [hr] at hs
          cases hs
        | done x u =>
          obtain ⟨as, failed⟩ := x
          rw [hr] at hs
          injection hs with hss ht
          injection hss with hss hfailed
          subst hss ht hfailed
          rw [ih hr]
          rfl
      next d s₁ _ =>
        cases hr : Rule.itemsWithin item n (s₁.report d).synchronize with
        | failed d u =>
          rw [hr] at hs
          cases hs
        | done x u =>
          rw [hr] at hs
          injection hs with hss _
          injection hss with _ hfailed
          cases hfailed

theorem block : Carries f (Prod.map (Stmt.mapAll (.ofToken f)) id) (Rule.block v operand)
    (Rule.block v operand) := by
  refine (expect hf _).bind fun brace => ?_
  intro s b u hs
  dsimp only at hs ⊢
  split at hs
  next => exact nomatch hs
  next => exact nomatch hs
  next ss t ht =>
    injection hs with hb hu
    subst hb hu
    have hitems : Rule.itemsWithin (Rule.blockItem v operand) s.tokens.length
        (s.relabel f).enterBlock = _ := of_itemsWithin_done hf (blockItem hf ho) ht
    rw [ParserState.length_relabel, hitems, hf.place]
    rfl

omit ho in
theorem primary : Carries f (Expr.map (.ofToken f)) Rule.primary Rule.primary := by
  intro s e t hs
  obtain ⟨hk, rfl, rfl⟩ := of_primary_done hs
  rw [primary_done ((ParserState.kind_relabel hf s).symm ▸ hk), ParserState.current_relabel hf,
    ParserState.advance_relabel, hf.place]
  rfl

theorem exprOfLead (form : LeadForm) : Carries f (Expr.map (.ofToken f))
    (Rule.exprOfLead v operand form) (Rule.exprOfLead v operand form) := by
  cases form with
  | primary => exact primary hf
  | prefixed => exact (advance hf).bind fun _ => (ho _).bind fun _ => .pure (by rw [hf.place]; rfl)
  | grouping =>
    exact (expect hf _).bind fun _ => (ho _).bind fun _ => (expect hf _).bind fun _ => .pure rfl
  | block => exact (block hf ho).bind fun _ => .pure rfl
  | conditional =>
    refine (expect hf _).bind fun _ => (ho _).bind fun _ => (expect hf _).bind fun _ =>
      (ho _).bind fun _ => (advanceIf hf _).bind fun more => ?_
    rw [hf.place]
    cases more with
    | true => exact (ho _).bind fun _ => .pure rfl
    | false => exact .pure rfl
  | returned => exact (expect hf _).bind fun _ => (ho _).bind fun _ => .pure (by rw [hf.place]; rfl)
  | yielded => exact (expect hf _).bind fun _ => (ho _).bind fun _ => .pure (by rw [hf.place]; rfl)

theorem binaryTail (form : BinaryForm) (left : Expr) (bp : BindingPower) :
    Carries f (Expr.map (.ofToken f)) (Rule.binaryTail operand form left bp)
      (Rule.binaryTail operand form (left.map (.ofToken f)) bp) :=
  (advance hf).bind fun _ => (ho _).bind fun _ => .pure (by rw [hf.place]; rfl)

theorem callTail (callee : Expr) : Carries f (Expr.map (.ofToken f)) (Rule.callTail operand callee)
    (Rule.callTail operand (callee.map (.ofToken f))) :=
  (expect hf _).bind fun _ => (itemsBefore hf (ho _) _).bind fun as => (expect hf _).bind fun _ =>
    .pure (by rw [Expr.place_map_ofToken, ← Expr.mapAll_eq_map]; rfl)

theorem exprOfTail (left : Expr) (bp : BindingPower) (form : TailForm) :
    Carries f (Expr.map (.ofToken f)) (Rule.exprOfTail operand left bp form)
      (Rule.exprOfTail operand (left.map (.ofToken f)) bp form) := by
  cases form with
  | comparison => exact binaryTail hf ho _ _ _
  | arithmetic => exact binaryTail hf ho _ _ _
  | call => exact callTail hf ho _

theorem tailsWithin (bp : BindingPower) (n : Nat) (left : Expr) :
    Carries f (Expr.map (.ofToken f)) (Rule.tailsWithin v operand bp n left)
      (Rule.tailsWithin v operand bp n (left.map (.ofToken f))) := by
  induction n generalizing left with
  | zero => exact .pure rfl
  | succ n ih =>
    intro s e t hs
    unfold Rule.tailsWithin at hs ⊢
    rw [ParserState.kind_relabel hf]
    split at hs
    next next form _ =>
      split at hs
      next hlt =>
        rw [if_pos hlt]
        exact (exprOfTail hf ho left next form).bind ih hs
      next hlt =>
        rw [if_neg hlt]
        injection hs with he ht
        rw [he, ht]
    next =>
      injection hs with he ht
      rw [he, ht]

end Operand

theorem exprWithin (v : Vocabulary) (n : Nat) (bp : BindingPower) :
    Carries f (Expr.map (.ofToken f)) (Rule.exprWithin v n bp) (Rule.exprWithin v n bp) := by
  induction n generalizing bp with
  | zero => exact .refuse
  | succ n ih =>
    have htails (left : Expr) : Carries f (Expr.map (.ofToken f))
        (Rule.tails v (Rule.exprWithin v n) bp left)
        (Rule.tails v (Rule.exprWithin v n) bp (left.map (.ofToken f))) := by
      intro s e t hs
      unfold Rule.tails
      rw [ParserState.length_relabel]
      exact tailsWithin hf ih bp _ left hs
    intro s e t hs
    unfold Rule.exprWithin at hs ⊢
    rw [ParserState.kind_relabel hf]
    split at hs
    next form _ => exact (exprOfLead hf ih form).bind htails hs
    next => exact nomatch hs

theorem expr (v : Vocabulary) (bp : BindingPower) :
    Carries f (Expr.map (.ofToken f)) (Rule.expr v bp) (Rule.expr v bp) := by
  intro s e t hs
  unfold Rule.expr
  rw [ParserState.length_relabel]
  exact exprWithin hf v _ bp hs

theorem topLevel (v : Vocabulary) :
    Carries f (Decl.map (.ofToken f)) (Rule.topLevel v) (Rule.topLevel v) := by
  intro s d t hs
  unfold Rule.topLevel at hs ⊢
  rw [ParserState.kind_relabel hf]
  split at hs
  next hk =>
    rw [if_pos hk]
    exact declaration hf (expr hf v) hs
  next => exact nomatch hs

end Carries

theorem declarationsWithin_relabel (hf : Relabels f) (v : Vocabulary) {n : Nat} {s t : ParserState}
    {ds : List Decl} (hs : declarationsWithin v n s = (ds, t)) (ht : t.reported = []) :
    declarationsWithin v n (s.relabel f) = (ds.map (Decl.map (.ofToken f)), t.relabel f) := by
  induction n generalizing s ds with
  | zero =>
    injection hs with hds hst
    subst hds hst
    rfl
  | succ n ih =>
    have htokens : (s.relabel f).hasTokens = s.hasTokens := by
      rw [ParserState.hasTokens, ParserState.kind_relabel hf, ParserState.hasTokens]
    unfold declarationsWithin at hs ⊢
    rw [htokens]
    split at hs
    next hmore =>
      rw [if_pos hmore]
      split at hs
      next d s₁ hd =>
        injection hs with hds hst
        subst hds
        simp only [Carries.topLevel hf v hd, ih (Prod.ext rfl hst)]
        rfl
      next d s₁ hd =>
        -- what was reported stays reported
        obtain ⟨ds, hds, _⟩ :=
          (continues_declarationsWithin v n (s₁.report d).synchronize).reported
        rw [hs] at hds
        simp [ht, ParserState.synchronize, ParserState.report] at hds
    next hmore =>
      rw [if_neg hmore]
      injection hs with hds hst
      subst hds hst
      rfl

end Rule

namespace Program

theorem ofState_relabel (hf : Relabels f) {s : ParserState} {p : Program} {T : TypeTable}
    (h : ofState s = (.ok p, T)) : ofState (s.relabel f) = (.ok (p.map (.ofToken f)), T) := by
  obtain ⟨⟨ds, t⟩, hdt⟩ : ∃ r, Rule.declarations .full s = r := ⟨_, rfl⟩
  unfold ofState at h ⊢
  rw [hdt] at h
  dsimp only at h
  split at h
  next ht =>
    injection h with hp hT
    injection hp with hp
    subst hp hT
    unfold Rule.declarations at hdt ⊢
    rw [ParserState.length_relabel, Rule.declarationsWithin_relabel hf .full hdt ht]
    simp only [ParserState.relabel, ht]
    rfl
  next => exact nomatch congrArg Prod.fst h

end Program

end FrontEnd
