import FrontEnd.Proofs.Grammar.Soundness

/-! The table of types while a program is read. Types are entered only once their parts are in the
table, whether or not what is read around them succeeds. -/

namespace FrontEnd

namespace Rule

variable {α β : Type} {part : Rule TypeId} {r : Rule α} {s t : ParserState}

theorem Steady.grows (hr : r.Steady) {a : α} (h : r s = .done a t) : s.types.Grows t.types := by
  have hcontinues := (hr s).next
  rw [h] at hcontinues
  exact hcontinues.types

/-- The table that the rule leaves behind is one that a program can come to have. -/
def Entering (r : Rule α) : Prop := ∀ s, s.types.Reachable → (r s).next.types.Reachable

namespace Entering

theorem reachable_of_done (hr : r.Entering) (hs : s.types.Reachable) {a : α}
    (h : r s = .done a t) : t.types.Reachable := by
  have hnext := hr s hs
  rwa [h] at hnext

theorem bind_of_done {f : α → Rule β} (hr : r.Entering) (hs : s.types.Reachable)
    (hf : ∀ a t, r s = .done a t → t.types.Reachable → (f a t).next.types.Reachable) :
    ((r >>= f) s).next.types.Reachable := by
  have hnext := hr s hs
  cases hreply : r s with
  | done a t =>
    rw [bind_done f hreply]
    exact hf a t hreply (hr.reachable_of_done hs hreply)
  | failed d t =>
    rw [hreply] at hnext
    rwa [bind_failed f hreply]

theorem compositional : Compositional fun _ r => r.Entering where
  pure _ _ h := h
  bind hr hf _ hs := hr.bind_of_done hs fun a t _ ht => hf a t ht
  look h s hs := by
    obtain ⟨r', hr', he⟩ := h s
    exact he ▸ hr' s hs
  refuse _ _ h := h
  fail _ _ h := h
  advance _ h := h

section Part

variable (h : part.Entering) (hp : part.Yields fun T w t => Reads T w (.type t))
include h hp

/-- The target is in the table by the time the pointer is entered. -/
theorem pointerType : (Rule.pointerType part).Entering := by
  refine compositional.bind (compositional.expect _) fun _ s hs => ?_
  refine h.bind_of_done hs fun target t ht hreachable => ?_
  obtain ⟨w, -, hreads⟩ := hp ht
  exact .pointer hreachable (hreads.index_lt hreachable)

/-- The arguments stay in the table until the result is there too. -/
theorem functionType (hsteady : part.Steady) : (Rule.functionType part).Entering := by
  refine compositional.bind (compositional.expect _) fun _ s hs => ?_
  refine (compositional.itemsBefore h .closeBracket).bind_of_done hs fun as s₁ has hs₁ => ?_
  refine (compositional.expect _).bind_of_done hs₁ fun _ s₂ h₂ hs₂ => ?_
  refine (compositional.expect _).bind_of_done hs₂ fun _ s₃ h₃ hs₃ => ?_
  refine h.bind_of_done hs₃ fun r s₄ h₄ hs₄ => ?_
  obtain ⟨w, -, hreads⟩ := itemsBefore_yields (persistent_reads .type) hp _ has
  obtain ⟨v, -, hresult⟩ := hp h₄
  have hgrows := (((Steady.expect _).grows h₂).trans ((Steady.expect _).grows h₃)).trans
    (hsteady.grows h₄)
  exact .function hs₄ ((hreads.types.mono hgrows).index_lt_of_types hs₄) (hresult.index_lt hs₄)

end Part

theorem typeWithin (v : Vocabulary) (n : Nat) : (Rule.typeWithin v n).Entering := by
  cases v with
  | bare => cases n <;> exact compositional.refuse fun _ => .of_bare rfl rfl
  | full =>
    induction n with
    | zero => exact compositional.refuse fun _ => .of_bare rfl rfl
    | succ n ih =>
      refine compositional.look fun s => ?_
      unfold Rule.typeWithin
      split
      next form _ =>
        refine ⟨_, ?_, rfl⟩
        cases form with
        | primitive => exact compositional.primitiveType
        | pointer => exact pointerType ih (typeWithin_yields n)
        | function => exact functionType ih (typeWithin_yields n) (.typeWithin .full n)
      next => exact ⟨_, compositional.refuse fun _ => .of_bare rfl rfl, rfl⟩

theorem itemsWithin {item : Rule Stmt} (hi : item.Entering) (n : Nat) :
    (Rule.itemsWithin item n).Entering := by
  have hmap {α β : Type} {x : Reply α} (f : α → β) (hx : x.next.types.Reachable) :
      (x.map f).next.types.Reachable := by cases x <;> exact hx
  induction n with
  | zero => exact compositional.refuse fun _ => .of_bare rfl rfl
  | succ n ih =>
    intro s hs
    have hitem := hi s hs
    unfold Rule.itemsWithin
    split
    · exact hs
    · exact hs
    · split
      next st t he =>
        rw [he] at hitem
        exact hmap _ (ih t hitem)
      next d t he =>
        rw [he] at hitem
        exact hmap _ (ih (t.report d).synchronize hitem)

theorem pervasive : Pervasive fun _ r => r.Entering where
  toCompositional := compositional
  type v := compositional.look fun s => ⟨_, typeWithin v s.tokens.length, rfl⟩
  block hi := by
    refine compositional.bind (compositional.expect _) fun brace s hs => ?_
    have hitems := itemsWithin hi s.tokens.length s.enterBlock hs
    split
    all_goals
      next he =>
        rw [he] at hitems
        exact hitems

end Entering

theorem reachable_declarationsWithin (v : Vocabulary) (n : Nat) {s : ParserState}
    (hs : s.types.Reachable) : (declarationsWithin v n s).2.types.Reachable := by
  induction n generalizing s with
  | zero => exact hs
  | succ n ih =>
    have htop := Entering.pervasive.topLevel v s hs
    unfold declarationsWithin
    split
    · split
      next d t he =>
        rw [he] at htop
        exact ih htop
      next d t he =>
        rw [he] at htop
        exact ih (s := (t.report d).synchronize) htop
    · exact hs

end Rule

/-- The types of a source stand behind their parts, even if the source cannot be read. -/
theorem Program.reachable_of_parse (source : String) {T : TypeTable} (hT : T.Reachable) :
    (parse source T).2.Reachable := by
  have h := Rule.reachable_declarationsWithin .full (ParserState.ofSource source T).tokens.length
    (s := .ofSource source T) hT
  unfold parse ofState
  dsimp only
  split <;> exact h

end FrontEnd
