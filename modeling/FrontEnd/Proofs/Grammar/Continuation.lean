import FrontEnd.Proofs.Grammar.Composition

/-! What every rule keeps, whether it reads what it stands for or fails: the tokens that are left
are the last ones of those before, types and diagnostics are only added, and blocks are closed
again. -/

namespace FrontEnd

/-- The faults that a token carries. -/
def Fault.isLexical : Fault → Bool
  | unrecognised _ | unterminatedString | numberTooLarge _ => true
  | _ => false

theorem Fault.isSyntactic_of_isLexical {f : Fault} (h : f.isLexical = true) :
    f.isSyntactic = true := by
  cases f <;> first | rfl | exact nomatch h

namespace ParserState

/-- A rule tells a fault of its own or one that a token ahead carries. -/
def Blames (s : ParserState) (f : Fault) : Prop :=
  f.isSyntactic = true ∨ ∃ t ∈ s.tokens, t.lexicalFault? = some f

structure Continues (s t : ParserState) : Prop where
  tokens : t.tokens <:+ s.tokens
  finish : t.finish = s.finish
  openBlocks : t.openBlocks = s.openBlocks
  types : s.types.shapes.toList <+: t.types.shapes.toList
  reported : ∃ ds, t.reported = s.reported ++ ds ∧ ∀ d ∈ ds, s.Blames d.fault

theorem Blames.of_continues {s t : ParserState} {f : Fault} (h : s.Continues t)
    (hf : t.Blames f) : s.Blames f :=
  hf.imp_right fun ⟨u, hu, he⟩ => ⟨u, h.tokens.subset hu, he⟩

namespace Continues

theorem refl (s : ParserState) : s.Continues s :=
  ⟨List.suffix_rfl, rfl, rfl, List.prefix_rfl, [], by simp, by simp⟩

theorem trans {s t u : ParserState} (h : s.Continues t) (h' : t.Continues u) : s.Continues u := by
  obtain ⟨ds, hds, hb⟩ := h.reported
  obtain ⟨es, hes, hb'⟩ := h'.reported
  refine ⟨h'.tokens.trans h.tokens, h'.finish.trans h.finish, h'.openBlocks.trans h.openBlocks,
    h.types.trans h'.types, ds ++ es, by rw [hes, hds, List.append_assoc], ?_⟩
  intro d hd
  rcases List.mem_append.mp hd with hd | hd
  · exact hb d hd
  · exact (hb' d hd).of_continues h

theorem of_tokens {s : ParserState} {ts : List Token} (h : ts <:+ s.tokens) :
    s.Continues { s with tokens := ts } :=
  ⟨h, rfl, rfl, List.prefix_rfl, [], by simp, by simp⟩

theorem advance (s : ParserState) : s.Continues s.advance := of_tokens (List.tail_suffix _)

theorem synchronize (s : ParserState) : s.Continues s.synchronize :=
  of_tokens (recover_suffix _ _ _)

theorem report {s t : ParserState} {d : Diagnostic} (h : s.Continues t)
    (hd : s.Blames d.fault) : s.Continues (t.report d) := by
  obtain ⟨ds, hds, hb⟩ := h.reported
  refine ⟨h.tokens, h.finish, h.openBlocks, h.types, ds ++ [d],
    by rw [ParserState.report, hds, List.append_assoc], ?_⟩
  intro e he
  rcases List.mem_append.mp he with he | he
  · exact hb e he
  · rw [List.eq_of_mem_singleton he]; exact hd

theorem exitBlock {s t : ParserState} (h : s.enterBlock.Continues t) : s.Continues t.exitBlock :=
  ⟨h.tokens, h.finish, by simp [ParserState.exitBlock, h.openBlocks, enterBlock], h.types,
    h.reported⟩

end Continues

theorem blames_unexpected {s : ParserState} {f : Fault} (hf : f.isSyntactic = true) :
    s.Blames (s.unexpected f).fault := by
  unfold unexpected
  cases h : s.current.lexicalFault? with
  | none => exact .inl hf
  | some g =>
    refine .inr ⟨s.current, ?_, h⟩
    cases hs : s.tokens with
    | nil => simp [current, hs, Token.endAt, Token.lexicalFault?] at h
    | cons t ts => simp [current, hs]

end ParserState

/-- The state left behind continues `s`, and a failure is to blame on what stood ahead. -/
def Reply.Continues {α : Type} (s : ParserState) : Reply α → Prop
  | .done _ t => s.Continues t
  | .failed d t => s.Continues t ∧ s.Blames d.fault

theorem Reply.Continues.next {α : Type} {s : ParserState} {r : Reply α} (h : r.Continues s) :
    s.Continues r.next := by
  cases r with
  | done _ _ => exact h
  | failed _ _ => exact h.1

theorem Reply.Continues.map {α β : Type} {s : ParserState} {r : Reply α} (f : α → β)
    (h : r.Continues s) : (r.map f).Continues s := by
  cases r <;> exact h

theorem Reply.Continues.of_continues {α : Type} {s t : ParserState} {r : Reply α}
    (h : s.Continues t) (hr : r.Continues t) : r.Continues s := by
  cases r with
  | done _ _ => exact h.trans hr
  | failed _ _ => exact ⟨h.trans hr.1, hr.2.of_continues h⟩

def Rule.Steady {α : Type} (r : Rule α) : Prop := ∀ s, (r s).Continues s

namespace Rule.Steady

variable {α β : Type}

theorem pure (a : α) : Steady (Pure.pure a : Rule α) := fun s => .refl s

theorem bind {r : Rule α} {f : α → Rule β} (hr : r.Steady) (hf : ∀ a, (f a).Steady) :
    (r >>= f).Steady := by
  intro s
  have h := hr s
  rw [bind_apply]
  cases hs : r s with
  | done a t => rw [hs] at h; exact (hf a t).of_continues h
  | failed d t => rw [hs] at h; exact h

theorem refuse {f : String → Fault} (hf : ∀ found, (f found).isSyntactic = true) :
    Steady (Rule.refuse f : Rule α) :=
  fun s => ⟨.refl s, ParserState.blames_unexpected (hf _)⟩

theorem fail {d : Diagnostic} (h : d.fault.isSyntactic = true) : Steady (Rule.fail d : Rule α) :=
  fun s => ⟨.refl s, .inl h⟩

theorem current : Steady Rule.current := fun s => .refl s

theorem advance : Steady Rule.advance := fun s => .advance s

theorem compositional : Compositional fun _ r => r.Steady where
  pure := pure
  bind := bind
  look h s := by
    obtain ⟨r', hr', he⟩ := h s
    exact he ▸ hr' s
  refuse h := refuse fun found => (h found).syntactic
  fail h := fail h.syntactic
  advance := advance

theorem advanceIf (k : TokenKind) : Steady (Rule.advanceIf k) := compositional.advanceIf k

theorem expect (k : TokenKind) : Steady (Rule.expect k) := compositional.expect k

theorem enterType (shape : TypeShape) : Steady (Rule.enterType shape) :=
  fun s => ⟨List.suffix_rfl, rfl, rfl, by simp, [], by simp, by simp⟩

theorem ite {c : Prop} [Decidable c] {r r' : Rule α} (h : r.Steady) (h' : r'.Steady) :
    Steady (if c then r else r') := Compositional.ite h h'

theorem commaSeparated {item : Rule α} (h : item.Steady) (n : Nat) :
    (Rule.commaSeparated item n).Steady := compositional.commaSeparated h n

theorem itemsBefore {item : Rule α} (h : item.Steady) (close : TokenKind) :
    (Rule.itemsBefore close item).Steady := compositional.itemsBefore h close

theorem primitiveType : Rule.primitiveType.Steady := compositional.primitiveType

theorem pointerType {part : Rule TypeId} (h : part.Steady) : (Rule.pointerType part).Steady :=
  (expect _).bind fun _ => h.bind fun _ => enterType _

theorem functionType {part : Rule TypeId} (h : part.Steady) : (Rule.functionType part).Steady :=
  (expect _).bind fun _ => (h.itemsBefore _).bind fun _ => (expect _).bind fun _ =>
    (expect _).bind fun _ => h.bind fun _ => enterType _

theorem typeWithin (v : Vocabulary) (n : Nat) : (Rule.typeWithin v n).Steady := by
  induction n with
  | zero => exact refuse fun _ => rfl
  | succ n ih =>
    intro s
    unfold Rule.typeWithin
    split
    next form _ =>
      cases form with
      | primitive => exact primitiveType s
      | pointer => exact pointerType ih s
      | function => exact functionType ih s
    next => exact refuse (fun _ => rfl) s

theorem type (v : Vocabulary) : (Rule.type v).Steady := fun s => typeWithin v _ s

theorem itemsWithin {item : Rule Stmt} (hi : item.Steady) (n : Nat) :
    (Rule.itemsWithin item n).Steady := by
  induction n with
  | zero => exact refuse fun _ => rfl
  | succ n ih =>
    intro s
    unfold Rule.itemsWithin
    split
    · exact .advance s
    · exact refuse (fun _ => rfl) s
    · have hs := hi s
      split
      next st t he => rw [he] at hs; exact ((ih t).map _).of_continues hs
      next d t he =>
        rw [he] at hs
        exact ((ih _).map _).of_continues ((hs.1.report hs.2).trans (.synchronize _))

theorem pervasive : Pervasive fun _ r => r.Steady where
  toCompositional := compositional
  type := type
  block hi := by
    refine (expect _).bind fun brace s => ?_
    have hs := itemsWithin hi s.tokens.length s.enterBlock
    split
    next d t he => rw [he] at hs; exact ⟨hs.1.exitBlock, hs.2⟩
    next sts t he => rw [he] at hs; exact ⟨hs.exitBlock, .inl rfl⟩
    next sts t he => rw [he] at hs; exact hs.exitBlock

theorem signature? (v : Vocabulary) : (Rule.signature? v).Steady := pervasive.signature? v

theorem fitSignature (name : Token) (params : List Token) (signature : Option TypeId) :
    (Rule.fitSignature name params signature).Steady :=
  compositional.fitSignature name params signature

section Operand

variable {v : Vocabulary} {operand : Operand} (h : ∀ bp, (operand bp).Steady)
include h

theorem statement : (Rule.statement operand).Steady := compositional.statement h

theorem varDecl (p : Position) (signature : Option TypeId) :
    (Rule.varDecl operand p signature).Steady := compositional.varDecl h p signature

theorem fnDecl (p : Position) (signature : Option TypeId) :
    (Rule.fnDecl operand p signature).Steady := compositional.fnDecl h p signature

theorem declaration : (Rule.declaration v operand).Steady := pervasive.declaration h

theorem blockItem : (Rule.blockItem v operand).Steady := pervasive.blockItem h

theorem block : (Rule.block v operand).Steady := pervasive.block (blockItem h)

theorem exprOfLead (form : LeadForm) : (Rule.exprOfLead v operand form).Steady :=
  pervasive.exprOfLead h form

theorem exprOfTail (left : Expr) (bp : BindingPower) (form : TailForm) :
    (Rule.exprOfTail operand left bp form).Steady := compositional.exprOfTail h left bp form

theorem tailsWithin (bp : BindingPower) (n : Nat) (left : Expr) :
    (Rule.tailsWithin v operand bp n left).Steady := compositional.tailsWithin h bp n left

end Operand

theorem exprWithin (v : Vocabulary) (n : Nat) (bp : BindingPower) :
    (Rule.exprWithin v n bp).Steady := pervasive.exprWithin v n bp

theorem expr (v : Vocabulary) (bp : BindingPower) : (Rule.expr v bp).Steady := pervasive.expr v bp

theorem topLevel (v : Vocabulary) : (Rule.topLevel v).Steady := pervasive.topLevel v

end Rule.Steady

theorem Rule.continues_declarationsWithin (v : Vocabulary) (n : Nat) (s : ParserState) :
    s.Continues (declarationsWithin v n s).2 := by
  induction n generalizing s with
  | zero => exact .refl s
  | succ n ih =>
    unfold declarationsWithin
    split
    · have hs := Steady.topLevel v s
      split
      next d t he => rw [he] at hs; exact hs.trans (ih t)
      next d t he =>
        rw [he] at hs
        exact ((hs.1.report hs.2).trans (.synchronize _)).trans (ih _)
    · exact .refl s

theorem Lexeme.isLexical_of_fault {c : Char} {cs : List Char} {f : Fault}
    (h : (atHead c cs).payload = .fault f) : f.isLexical = true := by
  unfold atHead at h
  split at h
  next => exact nomatch h
  next =>
    split at h
    · unfold ofDigits at h
      split at h
      · exact nomatch h
      · exact Payload.fault.inj h ▸ rfl
    · split at h
      · unfold ofQuote at h
        split at h
        · exact Payload.fault.inj h ▸ rfl
        · exact nomatch h
      · split at h
        · unfold ofWord at h
          split at h <;> exact nomatch h
        · exact Payload.fault.inj h ▸ rfl

theorem isLexical_of_mem_tokensFrom {p : Position} {cs : List Char} {t : Token} {f : Fault}
    (ht : t ∈ tokensFrom p cs) (hf : t.lexicalFault? = some f) : f.isLexical = true := by
  have hscan : ∀ p cs, (scan p cs).token.lexicalFault? = some f → f.isLexical = true := by
    intro p cs h
    unfold scan at h
    cases hrest : (splitTrivia false cs).2 with
    | nil => simp [hrest, Lexeme.first?, Token.endAt, Token.lexicalFault?] at h
    | cons c rest =>
      simp only [hrest, Lexeme.first?, Token.lexicalFault?] at h
      split at h
      next g hg =>
        obtain rfl := Option.some.inj h
        exact Lexeme.isLexical_of_fault hg
      next => cases h
  fun_induction tokensFrom p cs with
  | case1 p cs s _ =>
    obtain rfl := List.eq_of_mem_singleton ht
    exact hscan p cs hf
  | case2 p cs s _ ih =>
    rcases List.mem_cons.mp ht with rfl | ht
    · exact hscan p cs hf
    · exact ih ht

/-- A program that cannot be read is only told what is wrong with its text. -/
theorem Program.isSyntactic_of_parse {source : String} {T : TypeTable} {ds : List Diagnostic}
    (h : (parse source T).1 = .error ds) {d : Diagnostic} (hd : d ∈ ds) :
    d.fault.isSyntactic = true := by
  obtain ⟨new, hnew, hblames⟩ :=
    (Rule.continues_declarationsWithin .full _ (.ofSource source T)).reported
  have hreported : (Rule.declarations .full (.ofSource source T)).2.reported = new := hnew
  simp only [parse, ofState, hreported] at h
  split at h
  next => exact nomatch h
  next =>
    obtain rfl := Except.error.inj h
    rcases List.mem_append.mp hd with hd | hd
    · rcases hblames d hd with hf | ⟨t, ht, hf⟩
      · exact hf
      · exact Fault.isSyntactic_of_isLexical
          (isLexical_of_mem_tokensFrom (List.dropLast_subset _ ht) hf)
    · obtain rfl := List.eq_of_mem_singleton hd
      rfl

end FrontEnd
