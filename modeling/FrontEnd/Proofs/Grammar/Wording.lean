import FrontEnd.Proofs.Grammar.Continuation
import FrontEnd.Proofs.Token.Layout

/-! What is told of a text that cannot be read is shown on one line. The rules word their faults so
by themselves; a fault that a token carries cites digits at most. -/

namespace FrontEnd

/-- A name has no line break, and neither has a fault that the token carries. -/
structure Token.InLine (t : Token) : Prop where
  name : t.kind = .identifier → Text.InLine t.text
  fault : ∀ f ∈ t.lexicalFault?, f.InLine

theorem Token.inLine_endAt (p : Position) : (endAt p).InLine := ⟨nofun, nofun⟩

theorem Spelling.inLine {k : TokenKind} {p : Payload} {text rest : List Char}
    (h : Spelling k p text rest) (place : Position) : Token.InLine ⟨k, p, place⟩ := by
  refine ⟨fun hk => ?_, fun f hf => ?_⟩
  · cases h with
    | @name c cs _ hc hcs _ =>
      have hpart : ∀ d ∈ c :: cs, Lexeme.isWordPart d = true :=
        List.forall_mem_cons.mpr ⟨Lexeme.isWordPart_of_isWordStart hc, hcs⟩
      exact .fixed fun hmem => absurd (hpart _ hmem) (by decide)
    | fixed _ => exact .fixed (by decide)
    | _ => exact nomatch hk
  · cases h with
    | @tooLarge ds _ _ hds _ =>
      obtain rfl := Option.some.inj hf
      refine List.forall_mem_singleton.mpr (.fixed fun hmem => ?_)
      exact absurd (hds _ hmem) (by decide)
    | unterminated _ | unrecognised =>
      obtain rfl := Option.some.inj hf
      exact Fault.inLine_of_bare_eq_nil rfl
    | _ => exact nomatch hf

theorem Layout.inLine {front cs : List Char} {ts : List Token} (h : Layout front cs ts) :
    ∀ t ∈ ts, t.InLine := by
  induction h with
  | finish _ => exact List.forall_mem_singleton.mpr (Token.inLine_endAt _)
  | token _ hspelling _ _ _ ih => exact List.forall_mem_cons.mpr ⟨hspelling.inLine _, ih⟩

/-- All that was reported is in line, and so is what the tokens left carry. -/
structure ParserState.InLine (s : ParserState) : Prop where
  tokens : ∀ t ∈ s.tokens, t.InLine
  reported : ∀ d ∈ s.reported, d.fault.InLine

namespace ParserState.InLine

variable {s : ParserState}

theorem of_suffix (h : s.InLine) {ts : List Token} (hts : ts <:+ s.tokens) :
    InLine { s with tokens := ts } :=
  ⟨fun t ht => h.tokens t (hts.subset ht), h.reported⟩

theorem report (h : s.InLine) {d : Diagnostic} (hd : d.fault.InLine) : (s.report d).InLine := by
  refine ⟨h.tokens, fun e he => ?_⟩
  rcases List.mem_append.mp he with he | he
  · exact h.reported e he
  · rw [List.eq_of_mem_singleton he]
    exact hd

theorem unexpected (h : s.InLine) {f : Fault} (hf : f.InLine) : (s.unexpected f).fault.InLine := by
  have hcurrent : s.current.InLine := by
    unfold current
    cases hs : s.tokens with
    | nil => exact Token.inLine_endAt _
    | cons t w => exact h.tokens t (hs ▸ List.mem_cons_self)
  unfold ParserState.unexpected
  cases hfault : s.current.lexicalFault? with
  | none => exact hf
  | some g => exact hcurrent.fault g hfault

end ParserState.InLine

/-- What the reply leaves behind is in line, and so is the failure. -/
def Reply.InLine {α : Type} : Reply α → Prop
  | done _ t => t.InLine
  | failed d t => t.InLine ∧ d.fault.InLine

theorem Reply.InLine.map {α β : Type} {x : Reply α} (h : x.InLine) (f : α → β) :
    (x.map f).InLine := by
  cases x <;> exact h

def Rule.InLine {α : Type} (r : Rule α) : Prop := ∀ s : ParserState, s.InLine → (r s).InLine

namespace Rule.InLine

theorem compositional : Compositional fun _ r => r.InLine where
  pure _ _ hs := hs
  bind {_ _ r f} hr hf s hs := by
    have h := hr s hs
    rw [bind_apply]
    cases hreply : r s with
    | done a t =>
      rw [hreply] at h
      exact hf a t h
    | failed d t =>
      rw [hreply] at h
      exact h
  look h s hs := by
    obtain ⟨r', hr', he⟩ := h s
    exact he ▸ hr' s hs
  refuse hf s hs := ⟨hs, hs.unexpected (hf _).inLine⟩
  fail hd _ hs := ⟨hs, hd.inLine⟩
  advance _ hs := hs.of_suffix (List.tail_suffix _)

theorem enterType (shape : TypeShape) : Rule.InLine (Rule.enterType shape) :=
  fun _ hs => ⟨hs.tokens, hs.reported⟩

theorem typeWithin (v : Vocabulary) (n : Nat) : (Rule.typeWithin v n).InLine := by
  induction n with
  | zero => exact compositional.refuse fun _ => .of_bare rfl rfl
  | succ n ih =>
    refine compositional.look fun s => ?_
    unfold Rule.typeWithin
    split
    next form _ =>
      refine ⟨_, ?_, rfl⟩
      cases form with
      | primitive => exact compositional.primitiveType
      | pointer =>
        exact compositional.bind (compositional.expect _) fun _ => compositional.bind ih fun _ =>
          enterType _
      | function =>
        exact compositional.bind (compositional.expect _) fun _ =>
          compositional.bind (compositional.itemsBefore ih _) fun _ =>
          compositional.bind (compositional.expect _) fun _ =>
          compositional.bind (compositional.expect _) fun _ => compositional.bind ih fun _ =>
          enterType _
    next => exact ⟨_, compositional.refuse fun _ => .of_bare rfl rfl, rfl⟩

theorem itemsWithin {item : Rule Stmt} (hi : item.InLine) (n : Nat) :
    (Rule.itemsWithin item n).InLine := by
  induction n with
  | zero => exact compositional.refuse fun _ => .of_bare rfl rfl
  | succ n ih =>
    intro s hs
    have hitem := hi s hs
    unfold Rule.itemsWithin
    split
    · exact hs.of_suffix (List.tail_suffix _)
    · exact compositional.refuse (fun _ => .of_bare rfl rfl) s hs
    · split
      next st t he =>
        rw [he] at hitem
        exact (ih t hitem).map _
      next d t he =>
        rw [he] at hitem
        exact (ih _ ((hitem.1.report hitem.2).of_suffix (recover_suffix _ _ _))).map _

theorem pervasive : Pervasive fun _ r => r.InLine where
  toCompositional := compositional
  type v := compositional.look fun s => ⟨_, typeWithin v s.tokens.length, rfl⟩
  block hi := by
    refine compositional.bind (compositional.expect _) fun brace s hs => ?_
    have hitems := itemsWithin hi s.tokens.length s.enterBlock ⟨hs.tokens, hs.reported⟩
    split
    next d t he =>
      rw [he] at hitems
      exact ⟨⟨hitems.1.tokens, hitems.1.reported⟩, hitems.2⟩
    next sts t he =>
      rw [he] at hitems
      exact ⟨⟨hitems.tokens, hitems.reported⟩, Fault.inLine_of_bare_eq_nil rfl⟩
    next sts t he =>
      rw [he] at hitems
      exact ⟨hitems.tokens, hitems.reported⟩

end Rule.InLine

end FrontEnd
