import FrontEnd.Grammar.Program
import FrontEnd.Proofs.Grammar.Soundness
import FrontEnd.Proofs.Grammar.Language

/-! Rules that read a phrase wherever it stands, given what follows it. A success of such a rule
also tells what it did not start with. -/

namespace FrontEnd

open Phrase

def ParserState.kinds (s : ParserState) : List TokenKind := s.tokens.map Token.kind

namespace ParserState

theorem kind_of_kinds_cons {s : ParserState} {k : TokenKind} {w : List TokenKind}
    (h : s.kinds = k :: w) : s.kind = k := by
  unfold kinds at h
  cases hs : s.tokens with
  | nil => simp [hs] at h
  | cons t ts =>
    rw [hs, List.map_cons] at h
    injection h with h _
    simpa [kind, current, hs] using h

theorem kind_of_kinds_nil {s : ParserState} (h : s.kinds = []) : s.kind = .eof := by
  have hs : s.tokens = [] := List.map_eq_nil_iff.mp h
  simp [kind, current, hs]

theorem kinds_advance {s : ParserState} {k : TokenKind} {w : List TokenKind}
    (h : s.kinds = k :: w) : s.advance.kinds = w := by
  simpa [kinds, advance] using congrArg List.tail h

theorem kinds_length (s : ParserState) : s.kinds.length = s.tokens.length := by simp [kinds]

theorem length_le_tokens {s : ParserState} {w rest : List TokenKind}
    (h : s.kinds = w ++ rest) : w.length ≤ s.tokens.length := by
  rw [← s.kinds_length, h, List.length_append]
  omega

end ParserState

namespace Rule

variable {α β : Type}

/-- In front of `w` and `rest` the rule reads `w`, and what it reads and leaves fulfils `Q`. -/
def AcceptsAs (r : Rule α) (w rest : List TokenKind) (Q : α → ParserState → Prop) : Prop :=
  ∀ s : ParserState, s.kinds = w ++ rest → ∃ a t, r s = .done a t ∧ t.kinds = rest ∧ Q a t

abbrev Accepts (r : Rule α) (w rest : List TokenKind) : Prop := r.AcceptsAs w rest fun _ _ => True

/-- The rule never succeeds in front of a token of kind `k`. -/
def Refuses (r : Rule α) (k : TokenKind) : Prop :=
  ∀ s : ParserState, s.kind = k → ∀ a t, r s ≠ .done a t

theorem AcceptsAs.kind_ne {r : Rule α} {w rest : List TokenKind} {Q : α → ParserState → Prop}
    (h : r.AcceptsAs w rest Q) {s : ParserState} (hs : s.kinds = w ++ rest) {k : TokenKind}
    (hr : r.Refuses k) : s.kind ≠ k := by
  obtain ⟨a, t, ha, _⟩ := h s hs
  exact fun hk => hr s hk a t ha

theorem Refuses.bind {r : Rule α} {k : TokenKind} (h : r.Refuses k) (f : α → Rule β) :
    (r >>= f).Refuses k := by
  intro s hk b t hb
  obtain ⟨a, u, ha, _⟩ := of_bind_done hb
  exact h s hk a u ha

theorem expect_refuses {k l : TokenKind} (h : l ≠ k) : (expect k).Refuses l := by
  intro s hl t u ht
  unfold expect expectOr at ht
  rw [if_neg (by rw [hl]; exact h)] at ht
  exact nomatch ht

theorem expect_done {k : TokenKind} {s : ParserState} (h : s.kind = k) :
    expect k s = .done s.current s.advance := by
  simp only [expect, expectOr, h, if_true]
  rfl

theorem expect_failed {k : TokenKind} {s : ParserState} (h : s.kind ≠ k) :
    expect k s = .failed (s.unexpected (.unexpectedToken k s.current.shown)) s := by
  simp only [expect, expectOr, h, if_false]
  rfl

theorem advanceIf_done_true {k : TokenKind} {s : ParserState} (h : s.kind = k) :
    advanceIf k s = .done true s.advance := by
  simp only [advanceIf, h, if_true]

theorem advanceIf_done_false {k : TokenKind} {s : ParserState} (h : s.kind ≠ k) :
    advanceIf k s = .done false s := by
  simp only [advanceIf, if_neg h]

theorem primary_done {s : ParserState} (h : s.kind ∈ TokenKind.literals) :
    primary s = .done (.leaf (exprSite s.current.place) .literal s.current) s.advance := by
  unfold primary
  split
  iterate 5 rfl
  next => simp_all [TokenKind.literals]

/-- What becomes of a block whose brace stands at `p` once its items are read. -/
def closeBlock (p : Position) : Reply (List Stmt × Bool) → Reply (List Stmt × Position)
  | .failed d s => .failed d s.exitBlock
  | .done (_, true) s => .failed ⟨.brokenBlock, p⟩ s.exitBlock
  | .done (ss, false) s => .done (ss, p) s.exitBlock

theorem block_of_brace {v : Vocabulary} {operand : Operand} {s : ParserState}
    (h : s.kind = .openCurly) :
    block v operand s = closeBlock s.current.place
      (itemsWithin (blockItem v operand) s.advance.tokens.length s.advance.enterBlock) :=
  bind_done _ (expect_done h)

theorem block_of_other {v : Vocabulary} {operand : Operand} {s : ParserState}
    (h : s.kind ≠ .openCurly) :
    block v operand s =
      .failed (s.unexpected (.unexpectedToken .openCurly s.current.shown)) s :=
  bind_failed _ (expect_failed h)

namespace AcceptsAs

variable {w v rest : List TokenKind} {k l : TokenKind} {P : α → ParserState → Prop}
  {Q : β → ParserState → Prop}

theorem pure {b : β} (h : ∀ s, Q b s) : AcceptsAs (Pure.pure b : Rule β) [] rest Q :=
  fun s hs => ⟨b, s, rfl, hs, h s⟩

theorem mono {r : Rule α} {P' : α → ParserState → Prop} (h : r.AcceptsAs w rest P)
    (hP : ∀ a t, P a t → P' a t) : r.AcceptsAs w rest P' := by
  intro s hs
  obtain ⟨a, t, ha, ht, hp⟩ := h s hs
  exact ⟨a, t, ha, ht, hP a t hp⟩

theorem bind {r : Rule α} {f : α → Rule β} (hr : r.AcceptsAs w (v ++ rest) P)
    (hf : ∀ a t, P a t → (f a).AcceptsAs v rest Q) : (r >>= f).AcceptsAs (w ++ v) rest Q := by
  intro s hs
  obtain ⟨a, t, ha, ht, hp⟩ := hr s (by rw [hs, List.append_assoc])
  obtain ⟨b, u, hb, hu⟩ := hf a t hp t ht
  exact ⟨b, u, by rw [bind_done f ha, hb], hu⟩

theorem bind_last {r : Rule α} {f : α → Rule β} (hr : r.AcceptsAs w rest P)
    (hf : ∀ a t, P a t → (f a).AcceptsAs [] rest Q) : (r >>= f).AcceptsAs w rest Q := by
  have h := bind (v := []) hr hf
  rwa [List.append_nil] at h

theorem expect_bind {f : Token → Rule β} (hf : ∀ t, (f t).AcceptsAs w rest Q) :
    (expect k >>= f).AcceptsAs (k :: w) rest Q := by
  intro s hs
  obtain ⟨b, u, hb, hu⟩ := hf s.current s.advance (ParserState.kinds_advance hs)
  exact ⟨b, u, by rw [bind_done f (expect_done (ParserState.kind_of_kinds_cons hs)), hb], hu⟩

theorem advanceIf_true {f : Bool → Rule β} (hf : (f true).AcceptsAs w rest Q) :
    (advanceIf k >>= f).AcceptsAs (k :: w) rest Q := by
  intro s hs
  obtain ⟨b, u, hb, hu⟩ := hf s.advance (ParserState.kinds_advance hs)
  have hk := advanceIf_done_true (ParserState.kind_of_kinds_cons hs)
  exact ⟨b, u, by rw [bind_done f hk, hb], hu⟩

theorem advanceIf_false {f : Bool → Rule β} (hl : l ≠ k) (hw : (w ++ rest).head? = some l)
    (hf : (f false).AcceptsAs w rest Q) : (advanceIf k >>= f).AcceptsAs w rest Q := by
  intro s hs
  obtain ⟨b, u, hb, hu⟩ := hf s hs
  obtain ⟨v, hv⟩ := List.head?_eq_some_iff.mp hw
  have hk : s.kind ≠ k := by rwa [ParserState.kind_of_kinds_cons (hs.trans hv)]
  exact ⟨b, u, by rw [bind_done f (advanceIf_done_false hk), hb], hu⟩

end AcceptsAs

theorem expect_accepts {k : TokenKind} {rest : List TokenKind} : (expect k).Accepts [k] rest :=
  fun s hs => ⟨s.current, s.advance, expect_done (ParserState.kind_of_kinds_cons hs),
    ParserState.kinds_advance hs, trivial⟩

theorem advance_accepts {k : TokenKind} {rest : List TokenKind} : advance.Accepts [k] rest :=
  fun s hs => ⟨s.current, s.advance, rfl, ParserState.kinds_advance hs, trivial⟩

theorem AcceptsAs.of_tokens {r : Nat → Rule α} {w rest : List TokenKind}
    {Q : α → ParserState → Prop} (h : ∀ n, w.length ≤ n → (r n).AcceptsAs w rest Q) :
    AcceptsAs (fun s => r s.tokens.length s) w rest Q := by
  intro s hs
  exact h s.tokens.length (ParserState.length_le_tokens hs) s hs

/-- In front of `w` and `rest` the rule reads a part of `w`, and what it leaves of `w` fulfils
`Q`. -/
def Leaves (r : Rule α) (w rest : List TokenKind) (Q : List TokenKind → Prop) : Prop :=
  ∀ s : ParserState, s.kinds = w ++ rest →
    ∃ a t v, r s = .done a t ∧ t.kinds = v ++ rest ∧ Q v

namespace Leaves

variable {w v rest : List TokenKind} {P Q : List TokenKind → Prop}

theorem pure {b : β} (h : Q w) : Leaves (Pure.pure b : Rule β) w rest Q :=
  fun s hs => ⟨b, s, w, rfl, hs, h⟩

theorem bind {r : Rule α} {f : α → Rule β} (hr : r.Leaves w rest P)
    (hf : ∀ a v, P v → (f a).Leaves v rest Q) : (r >>= f).Leaves w rest Q := by
  intro s hs
  obtain ⟨a, t, v, ha, ht, hp⟩ := hr s hs
  obtain ⟨b, u, x, hb, hu⟩ := hf a v hp t ht
  exact ⟨b, u, x, by rw [bind_done f ha, hb], hu⟩

theorem mono {r : Rule α} (h : r.Leaves w rest P) (hP : ∀ v, P v → Q v) :
    r.Leaves w rest Q := by
  intro s hs
  obtain ⟨a, t, v, ha, ht, hp⟩ := h s hs
  exact ⟨a, t, v, ha, ht, hP v hp⟩

theorem of_accepts_bind {r : Rule α} {f : α → Rule β} (hr : r.Accepts w (v ++ rest))
    (hf : ∀ a, (f a).Leaves v rest Q) : (r >>= f).Leaves (w ++ v) rest Q := by
  intro s hs
  obtain ⟨a, t, ha, ht, _⟩ := hr s (by rw [hs, List.append_assoc])
  obtain ⟨b, u, x, hb, hu⟩ := hf a t ht
  exact ⟨b, u, x, by rw [bind_done f ha, hb], hu⟩

theorem accepts {r : Rule α} (h : r.Leaves w rest (· = [])) : r.Accepts w rest := by
  intro s hs
  obtain ⟨a, t, v, ha, ht, rfl⟩ := h s hs
  exact ⟨a, t, ha, ht, trivial⟩

theorem of_accepts {r : Rule α} (h : r.Accepts w (v ++ rest)) (hv : Q v) :
    r.Leaves (w ++ v) rest Q := by
  intro s hs
  obtain ⟨a, t, ha, ht, _⟩ := h s (by rw [hs, List.append_assoc])
  exact ⟨a, t, v, ha, ht, hv⟩

end Leaves

/-- Nothing that follows can belong to an expression before it. -/
def Closed (rest : List TokenKind) : Prop :=
  ∀ k ∈ rest.head?, Vocabulary.full.tail? k = none ∧ k ≠ .kwElse

theorem Closed.cons {k : TokenKind} (h : Vocabulary.full.tail? k = none) (hk : k ≠ .kwElse)
    (rest : List TokenKind) : Closed (k :: rest) := by
  intro l hl
  obtain rfl := Option.some.inj hl
  exact ⟨h, hk⟩

section Items

variable {item : Rule α} {p : Phrase} {l : Nat}
  (h : ∀ {w rest}, p.Derives w → w.length ≤ l → Closed rest → item.Accepts w rest)
include h

theorem commaSeparated_accepts {n m : Nat} {w rest : List TokenKind} {k : TokenKind}
    (hw : (items p (m + 1)).Derives w) (hl : w.length ≤ l) (hn : w.length ≤ n)
    (hk : k ≠ .comma) (hrest : Closed (k :: rest)) :
    (commaSeparated item n).AcceptsAs w (k :: rest) fun as _ => as.length = m + 1 := by
  induction n generalizing m w with
  | zero =>
    cases hw with
    | lastItem hw => exact (h hw hl hrest).bind_last fun _ _ _ => .pure fun _ => rfl
    | moreItems _ _ => simp at hn
  | succ n ih =>
    cases hw with
    | lastItem hw =>
      exact (h hw hl hrest).bind_last fun _ _ _ =>
        .advanceIf_false hk rfl (.pure fun _ => rfl)
    | @moreItems _ _ x xs hx hxs =>
      simp only [List.length_append, List.length_cons] at hl hn
      refine (h hx (by omega) (.cons rfl (by decide) _)).bind fun a _ _ => .advanceIf_true ?_
      exact (ih hxs (by omega) (by omega)).bind_last fun as _ has =>
        .pure fun _ => congrArg Nat.succ has

theorem itemsBefore_accepts {m : Nat} {w rest : List TokenKind} {close : TokenKind}
    (hclose : item.Refuses close) (hw : (items p m).Derives w) (hl : w.length ≤ l)
    (hk : close ≠ .comma) (hrest : Closed (close :: rest)) :
    (itemsBefore close item).AcceptsAs w (close :: rest) fun as _ => as.length = m := by
  intro s hs
  unfold itemsBefore
  have hn := ParserState.length_le_tokens hs
  cases m with
  | zero =>
    cases hw
    rw [if_pos (ParserState.kind_of_kinds_cons hs)]
    exact ⟨[], s, rfl, hs, rfl⟩
  | succ m =>
    have hc : (commaSeparated item s.tokens.length).Refuses close := by
      cases s.tokens.length <;> exact hclose.bind _
    have haccepts := commaSeparated_accepts h hw hl hn hk hrest
    rw [if_neg (haccepts.kind_ne hs hc)]
    exact haccepts s hs

end Items

end Rule

end FrontEnd
