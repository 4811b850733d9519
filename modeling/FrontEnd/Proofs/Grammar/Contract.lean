import FrontEnd.Proofs.Grammar.Agreement

/-! What a rule owes to the state it is called in. Whatever comes of it, it leaves the blocks that
are open, forgets no diagnostic and no type, and goes forward only. If it succeeds, it reported
nothing and went forward by a token. -/

namespace FrontEnd.Rule

variable {α β : Type}

/-- Success adds nothing to what is reported. -/
def Silent (r : Rule α) : Prop := ∀ ⦃s a t⦄, r s = .done a t → t.reported = s.reported

namespace Silent

theorem compositional : Compositional fun _ r => r.Silent where
  pure a s b t h := by rw [(Reply.done.inj h).2]
  bind hr hf s b u h := by
    obtain ⟨a, t, ha, hb⟩ := of_bind_done h
    exact (hf a hb).trans (hr ha)
  look h s a t hs := by
    obtain ⟨r', hr', he⟩ := h s
    exact hr' (he.symm.trans hs)
  refuse _ _ _ _ h := nomatch h
  fail _ _ _ _ h := nomatch h
  advance s a t h := by
    rw [← (Reply.done.inj h).2]
    rfl

theorem expect (k : TokenKind) : Silent (Rule.expect k) := compositional.expect k

theorem enterType (shape : TypeShape) : Silent (Rule.enterType shape) := by
  intro s a t h
  rw [← (Reply.done.inj h).2]

theorem primitiveType : Rule.primitiveType.Silent := compositional.primitiveType

theorem pointerType {part : Rule TypeId} (h : part.Silent) : (Rule.pointerType part).Silent :=
  compositional.bind (expect _) fun _ => compositional.bind h fun _ => enterType _

theorem functionType {part : Rule TypeId} (h : part.Silent) : (Rule.functionType part).Silent :=
  compositional.bind (expect _) fun _ => compositional.bind (compositional.itemsBefore h _)
    fun _ => compositional.bind (expect _) fun _ => compositional.bind (expect _) fun _ =>
      compositional.bind h fun _ => enterType _

theorem typeWithin (v : Vocabulary) (n : Nat) : (Rule.typeWithin v n).Silent := by
  induction n with
  | zero => exact compositional.refuse fun _ => .of_bare rfl rfl
  | succ n ih =>
    intro s a t h
    unfold Rule.typeWithin at h
    split at h
    next form _ =>
      cases form with
      | primitive => exact primitiveType h
      | pointer => exact pointerType ih h
      | function => exact functionType ih h
    next => exact nomatch h

/-- The flag is what keeps a block with reports inside it from succeeding. -/
theorem itemsWithin {item : Rule Stmt} (hi : item.Silent) {n : Nat} {s t : ParserState}
    {sts : List Stmt} (hs : Rule.itemsWithin item n s = .done (sts, false) t) :
    t.reported = s.reported := by
  induction n generalizing s sts with
  | zero => exact nomatch hs
  | succ n ih =>
    unfold Rule.itemsWithin at hs
    split at hs
    · rw [← (Reply.done.inj hs).2]
      rfl
    · exact nomatch hs
    · cases hreply : item s with
      | done st u =>
        simp only [hreply] at hs
        cases hrest : Rule.itemsWithin item n u with
        | done x w =>
          obtain ⟨rest, failed⟩ := x
          simp only [hrest, Reply.map, Reply.done.injEq, Prod.mk.injEq] at hs
          obtain ⟨⟨-, rfl⟩, rfl⟩ := hs
          exact (ih hrest).trans (hi hreply)
        | failed d w => simp [hrest, Reply.map] at hs
      | failed d u =>
        simp only [hreply] at hs
        cases hrest : Rule.itemsWithin item n (u.report d).synchronize <;>
          simp [hrest, Reply.map] at hs

theorem pervasive : Pervasive fun _ r => r.Silent where
  toCompositional := compositional
  type v _ _ _ h := typeWithin v _ h
  block hi := by
    refine compositional.bind (expect _) fun brace s a t hs => ?_
    split at hs
    next => exact nomatch hs
    next => exact nomatch hs
    next sts u hitems =>
      have hreported : u.reported = s.enterBlock.reported := itemsWithin hi hitems
      rw [← (Reply.done.inj hs).2]
      exact hreported

end Silent

namespace Consuming

variable {part : Rule TypeId} {v : Vocabulary} {operand : Operand}

theorem primitiveType : Consuming Rule.primitiveType := by
  intro s a t h
  unfold Rule.primitiveType at h
  split at h
  next p hp =>
    have hkind : s.kind ≠ .eof := by
      intro he
      rw [he] at hp
      exact nomatch hp
    rw [← (Reply.done.inj h).2]
    exact ParserState.consumes_advance (ParserState.tokens_ne_nil hkind)
  next => exact nomatch h

theorem pointerType (h : part.Steady) : Consuming (Rule.pointerType part) :=
  (expect (by decide)).bind fun _ => h.bind fun _ => .enterType _

theorem functionType (h : part.Steady) : Consuming (Rule.functionType part) :=
  (expect (by decide)).bind fun _ => (h.itemsBefore _).bind fun _ => (Steady.expect _).bind fun _ =>
    (Steady.expect _).bind fun _ => h.bind fun _ => .enterType _

theorem typeWithin (v : Vocabulary) (n : Nat) : Consuming (Rule.typeWithin v n) := by
  cases n with
  | zero => exact fun s a t h => nomatch h
  | succ n =>
    intro s a t h
    unfold Rule.typeWithin at h
    split at h
    next form _ =>
      cases form with
      | primitive => exact primitiveType h
      | pointer => exact pointerType (.typeWithin v n) h
      | function => exact functionType (.typeWithin v n) h
    next => exact nomatch h

theorem next_closeBlock (p : Position) (x : Reply (List Stmt × Bool)) :
    (closeBlock p x).next = x.next.exitBlock := by
  rcases x with ⟨⟨_, _ | _⟩, _⟩ | _ <;> rfl

section Operand

variable (h : ∀ bp, (operand bp).Steady)
include h

theorem block : Consuming (Rule.block v operand) := by
  intro s a t ha
  by_cases hs : s.kind = .openCurly
  · have hne : s.kind ≠ .eof := by simp [hs]
    have hitems := (Steady.itemsWithin (.blockItem h (v := v)) s.advance.tokens.length
      s.advance.enterBlock).next.exitBlock
    rw [block_of_brace hs] at ha
    rw [← next_closeBlock s.current.place, ha] at hitems
    exact (ParserState.consumes_advance (ParserState.tokens_ne_nil hne)).continues hitems
  · rw [block_of_other hs] at ha
    exact nomatch ha

/-- An operator may be any token, even the end of the text, which nothing steps over. What follows
it still takes a token. -/
theorem exprOfLead (hc : ∀ bp, Consuming (operand bp)) (form : LeadForm) :
    Consuming (Rule.exprOfLead v operand form) := by
  cases form with
  | primary =>
    intro s a t hs
    by_cases hk : s.kind ∈ TokenKind.literals
    · have hne : s.kind ≠ .eof := by
        intro he
        rw [he] at hk
        exact absurd hk (by decide)
      obtain ⟨-, rfl⟩ := Reply.done.inj ((primary_done hk).symm.trans hs)
      exact ParserState.consumes_advance (ParserState.tokens_ne_nil hne)
    · simp only [Rule.exprOfLead, Rule.primary] at hs
      simp_all [TokenKind.literals, Rule.refuse]
  | prefixed => exact bind_right .advance fun _ => (hc _).bind fun _ => .pure _
  | grouping =>
    exact (expect (by decide)).bind fun _ => (h _).bind fun _ => (Steady.expect _).bind fun _ =>
      .pure _
  | block => exact (block h).bind fun _ => .pure _
  | conditional =>
    exact (expect (by decide)).bind fun _ => (h _).bind fun _ => (Steady.expect _).bind fun _ =>
      (h _).bind fun _ => (Steady.advanceIf _).bind fun _ =>
        .ite ((h _).bind fun _ => .pure _) (.pure _)
  | returned => exact (expect (by decide)).bind fun _ => (h _).bind fun _ => .pure _
  | yielded => exact (expect (by decide)).bind fun _ => (h _).bind fun _ => .pure _

theorem exprOfTail_of_operand (hc : ∀ bp, Consuming (operand bp)) (left : Expr) (bp : BindingPower)
    (form : TailForm) : Consuming (Rule.exprOfTail operand left bp form) := by
  cases form with
  | comparison => exact bind_right .advance fun _ => (hc _).bind fun _ => .pure _
  | arithmetic => exact bind_right .advance fun _ => (hc _).bind fun _ => .pure _
  | call =>
    exact (expect (by decide)).bind fun _ => ((h _).itemsBefore _).bind fun _ =>
      (Steady.expect _).bind fun _ => .pure _

end Operand

theorem exprWithin (v : Vocabulary) (n : Nat) (bp : BindingPower) :
    Consuming (Rule.exprWithin v n bp) := by
  induction n generalizing bp with
  | zero => exact fun s a t h => nomatch h
  | succ n ih =>
    intro s a t hs
    unfold Rule.exprWithin at hs
    split at hs
    · exact ((exprOfLead (.exprWithin v n) ih _).bind fun e u =>
        Steady.tailsWithin (.exprWithin v n) bp _ e u) hs
    · exact nomatch hs

theorem expr (v : Vocabulary) (bp : BindingPower) : Consuming (Rule.expr v bp) :=
  fun _ _ _ h => exprWithin v _ bp h

end Consuming

/-- What a rule may do to a state: as much if it fails as if it succeeds, and no report behind a
success. -/
structure Contract (r : Rule α) : Prop where
  openBlocks : ∀ s, (r s).next.openBlocks = s.openBlocks
  reported : ∀ s, s.reported <+: (r s).next.reported
  types : ∀ s, s.types.shapes.toList <+: (r s).next.types.shapes.toList
  tokens : ∀ s, (r s).next.tokens <:+ s.tokens
  silent : ∀ s a t, r s = .done a t → t.reported = s.reported
  consumes : ∀ s a t, r s = .done a t → t.tokens.length < s.tokens.length

theorem Contract.of_steady {r : Rule α} (h : r.Steady) (hr : r.Silent) (hc : Consuming r) :
    r.Contract where
  openBlocks s := (h s).next.openBlocks
  reported s := by
    obtain ⟨ds, hds, -⟩ := (h s).next.reported
    exact ⟨ds, hds.symm⟩
  types s := (h s).next.types
  tokens s := (h s).next.tokens
  silent _ _ _ hs := hr hs
  consumes _ _ _ hs := (hc hs).length_lt

/-- Every rule that others may call keeps the contract, in every state, whatever its vocabulary. -/
theorem contract_rules (v : Vocabulary) :
    (type v).Contract ∧ primitiveType.Contract ∧ (pointerType (type v)).Contract ∧
    (functionType (type v)).Contract ∧ (statement (expr v)).Contract ∧
    (declaration v (expr v)).Contract ∧ (block v (expr v)).Contract ∧
    (∀ bp, (expr v bp).Contract) ∧ (∀ form, (exprOfLead v (expr v) form).Contract) ∧
    ∀ left bp form, (exprOfTail (expr v) left bp form).Contract := by
  have hsteady := Steady.expr v
  have hsilent : ∀ bp, (expr v bp).Silent := Silent.pervasive.expr v
  have hconsuming := Consuming.expr v
  have htype := Steady.type v
  have hquiet : (type v).Silent := Silent.pervasive.type v
  refine ⟨.of_steady htype hquiet fun s _ _ h => Consuming.typeWithin v _ h,
    .of_steady .primitiveType .primitiveType .primitiveType,
    .of_steady (.pointerType htype) (.pointerType hquiet) (.pointerType htype),
    .of_steady (.functionType htype) (.functionType hquiet) (.functionType htype),
    .of_steady (.statement hsteady) (Silent.compositional.statement hsilent) (.statement hsteady),
    .of_steady (.declaration hsteady) (Silent.pervasive.declaration hsilent) (.declaration hsteady),
    .of_steady (.block hsteady) (Silent.pervasive.block (Silent.pervasive.blockItem hsilent))
      (.block hsteady),
    fun bp => .of_steady (hsteady bp) (hsilent bp) (hconsuming bp),
    fun form => .of_steady (.exprOfLead hsteady form) (Silent.pervasive.exprOfLead hsilent form)
      (.exprOfLead hsteady hconsuming form),
    fun left bp form => .of_steady (.exprOfTail hsteady left bp form)
      (Silent.compositional.exprOfTail hsilent left bp form)
      (.exprOfTail_of_operand hsteady hconsuming left bp form)⟩

end FrontEnd.Rule
