import Mathlib
import FrontEnd.Proofs.Grammar.Chunk

/-! Where recovery stops. Groups in braces are skipped whole, outside all blocks a closing brace
that nothing opened is skipped too, and the first token behind them that ends a statement, a block
or the text decides. -/

namespace FrontEnd

/-- The braces match, every semicolon stands inside braces, and the text does not end. -/
structure Matched (w : List Token) : Prop where
  closed_le (front : List TokenKind) (h : front <+: w.map Token.kind) :
    front.count .closeCurly ≤ front.count .openCurly
  balanced : (w.map Token.kind).count .closeCurly = (w.map Token.kind).count .openCurly
  inside (front rest : List TokenKind) (h : w.map Token.kind = front ++ .semicolon :: rest) :
    front.count .closeCurly ≠ front.count .openCurly
  noEnd : .eof ∉ w.map Token.kind

/-- Matched stretches and, between them, closing braces that nothing opened. -/
inductive Strewn : List Token → Prop where
  | matched {w : List Token} (h : Matched w) : Strewn w
  | brace {w v : List Token} {t : Token} (h : Matched w) (ht : t.kind = .closeCurly)
      (hv : Strewn v) : Strewn (w ++ t :: v)

namespace Matched

variable {t : Token} {w : List Token}

theorem closedBy (h : Matched w) (ht : t.kind = .semicolon) : ClosedBy 0 (w ++ [t]) := by
  have hks : (w ++ [t]).map Token.kind = w.map Token.kind ++ [.semicolon] := by simp [ht]
  refine ⟨?_, by simpa [hks] using h.noEnd⟩
  rw [hks]
  refine ⟨fun front hfront => ?_, by simpa using h.balanced, List.getLast?_concat, ?_⟩
  · rw [Nat.zero_add]
    rcases List.prefix_concat_iff.mp hfront with rfl | hfront
    · simpa using Nat.le_of_eq h.balanced
    · exact h.closed_le front hfront
  · intro front rest hsplit hd
    rcases List.eq_nil_or_concat rest with rfl | ⟨rest, k, rfl⟩
    · rfl
    · rw [List.concat_eq_append, ← List.cons_append, ← List.append_assoc] at hsplit
      have hw := (List.append_inj' hsplit rfl).1
      exact absurd (by simpa using hd) (h.inside front rest hw)

theorem of_closedBy (h : ClosedBy 0 (w ++ [t])) : Matched w := by
  have hks : (w ++ [t]).map Token.kind = w.map Token.kind ++ [.semicolon] := by
    simp [h.kind_last]
  have hcloses := h.closes
  rw [hks] at hcloses
  refine ⟨fun front hfront => ?_, by simpa using hcloses.balanced, fun front rest hw hd => ?_,
    fun he => h.noEnd (by simp [hks, he])⟩
  · simpa using hcloses.closed_le front (hfront.trans (List.prefix_append _ _))
  · have hrest := hcloses.only front (rest ++ [.semicolon]) (by simp [hw]) (by simpa using hd)
    simp at hrest

instance : Decidable (Matched w) :=
  decidable_of_iff (ClosedBy 0 (w ++ [⟨.semicolon, .none, .origin⟩]))
    ⟨of_closedBy, fun h => h.closedBy rfl⟩

theorem recover_append (h : Matched w) (inBlock : Bool) (rest : List Token) :
    recover inBlock 0 (w ++ rest) = recover inBlock 0 rest :=
  (h.closedBy (t := ⟨.semicolon, .none, .origin⟩) rfl).recover_init inBlock rest

end Matched

theorem Strewn.recover_append {w : List Token} (h : Strewn w) (rest : List Token) :
    recover false 0 (w ++ rest) = recover false 0 rest := by
  induction h with
  | matched h => exact h.recover_append false rest
  | brace h ht _ ih =>
    rw [List.append_assoc, h.recover_append, List.cons_append, recover, ht]
    -- with no brace open, the count stays at zero
    exact ih

theorem recover_concat (inBlock : Bool) (n : Nat) (w : List Token) {e : Token}
    (he : e.kind = .eof) : recover inBlock n (w ++ [e]) = recover inBlock n w ++ [e] := by
  induction w generalizing n with
  | nil => simp [recover, he]
  | cons t w ih =>
    rw [List.cons_append]
    unfold recover
    split
    next => rfl
    next =>
      split
      · rfl
      · exact ih n
    next => exact ih (n + 1)
    next =>
      split
      · rfl
      · exact ih (n - 1)
    next => exact ih n

namespace ParserState

variable {s : ParserState} {w r : List Token} {t : Token}

/-- All tokens that are left, with the one that marks the end of the text. -/
def ahead (s : ParserState) : List Token := s.tokens ++ [.endAt s.finish]

theorem ahead_synchronize (s : ParserState) :
    s.synchronize.ahead = recover (0 < s.openBlocks) 0 s.ahead :=
  (recover_concat _ _ _ rfl).symm

/-- What recovery passes over: a matched stretch, and outside all blocks closing braces in it that
nothing opened. -/
def Skippable (s : ParserState) (w : List Token) : Prop :=
  Matched w ∨ s.openBlocks = 0 ∧ Strewn w

theorem Skippable.ahead_synchronize (hw : s.Skippable w) (h : s.ahead = w ++ r) :
    s.synchronize.ahead = recover (0 < s.openBlocks) 0 r := by
  rw [s.ahead_synchronize, h]
  rcases hw with hw | ⟨hs, hw⟩
  · exact hw.recover_append _ r
  · rw [hs]
    exact hw.recover_append r

theorem exists_drop_synchronize (s : ParserState) : ∃ n ≤ s.tokens.length,
    s.synchronize = { s with tokens := s.tokens.drop n } ∧
      (s.openBlocks = 0 → s.hasTokens = true → 0 < n) := by
  have hdrop := List.suffix_iff_eq_drop.mp (recover_suffix (0 < s.openBlocks) 0 s.tokens)
  refine ⟨_, Nat.sub_le .., congrArg (fun ts => { s with tokens := ts }) hdrop, fun hs hleft => ?_⟩
  cases htokens : s.tokens with
  | nil => simp [hasTokens, kind, current, htokens] at hleft
  | cons t w =>
    have ht : t.kind ≠ .eof := by simpa [hasTokens, kind, current, htokens] using hleft
    exact Nat.sub_pos_of_lt (length_recover_lt ht (.inr (by simp [hs])))

/-- Recovery only steps over tokens, and outside all blocks over one at least. Behind what can be
skipped it stops after a semicolon, and before the end of a block or of the text. -/
theorem synchronize_stops (s : ParserState) :
    (∀ w t r, s.ahead = w ++ t :: r → s.Skippable w →
      (t.kind = .semicolon → s.synchronize.ahead = r) ∧
      (t.kind = .closeCurly → 0 < s.openBlocks → s.synchronize.ahead = t :: r) ∧
      (t.kind = .eof → s.synchronize.ahead = t :: r)) ∧
    ∃ n ≤ s.tokens.length, s.synchronize = { s with tokens := s.tokens.drop n } ∧
      (s.openBlocks = 0 → s.hasTokens = true → 0 < n) := by
  refine ⟨fun w t r h hw => ?_, s.exists_drop_synchronize⟩
  have hskipped := hw.ahead_synchronize h
  refine ⟨fun ht => ?_, fun ht hopen => ?_, fun ht => ?_⟩ <;> rw [hskipped, recover, ht]
  · rfl
  · simp [hopen]

/-- Inside a block recovery stops before the second closing brace, which closes it. Outside all
blocks it goes on to the semicolon. -/
theorem synchronize_stops_of_stray_brace :
    let s : ParserState := .ofSource "= \x7b b; \x7d \x7d c; d" .initial
    ∃ v t u k r, s.ahead = (v ++ t :: u) ++ k :: r ∧ s.Skippable (v ++ t :: u) ∧
      s.enterBlock.Skippable v ∧ t.kind = .closeCurly ∧ k.kind = .semicolon ∧
      s.synchronize.ahead = r ∧ s.enterBlock.synchronize.ahead = t :: (u ++ k :: r) ∧
      s.hasTokens = true ∧ ∃ n ≤ s.tokens.length, 0 < n ∧
        s.synchronize = { s with tokens := s.tokens.drop n } := by
  intro s
  let v : List Token := [⟨.assign, .none, ⟨0, 0, 0⟩⟩, ⟨.openCurly, .none, ⟨2, 0, 2⟩⟩,
    ⟨.identifier, .text "b", ⟨4, 0, 4⟩⟩, ⟨.semicolon, .none, ⟨5, 0, 5⟩⟩,
    ⟨.closeCurly, .none, ⟨7, 0, 7⟩⟩]
  let t : Token := ⟨.closeCurly, .none, ⟨9, 0, 9⟩⟩
  let u : List Token := [⟨.identifier, .text "c", ⟨11, 0, 11⟩⟩]
  let k : Token := ⟨.semicolon, .none, ⟨12, 0, 12⟩⟩
  let r : List Token := [⟨.identifier, .text "d", ⟨14, 0, 14⟩⟩, .endAt ⟨15, 0, 15⟩]
  have hahead : s.ahead = (v ++ t :: u) ++ k :: r := by cbv
  have hahead' : s.enterBlock.ahead = v ++ t :: (u ++ k :: r) := hahead
  have hleft : s.hasTokens = true := by cbv
  have hv : Matched v := by decide
  have hw : s.Skippable (v ++ t :: u) := .inr ⟨rfl, .brace hv rfl (.matched (by decide))⟩
  obtain ⟨hstops, n, hn, hdrop, hpos⟩ := synchronize_stops s
  refine ⟨v, t, u, k, r, hahead, hw, .inl hv, rfl, rfl, (hstops _ _ _ hahead hw).1 rfl, ?_, hleft,
    n, hn, hpos rfl hleft, hdrop⟩
  exact ((synchronize_stops s.enterBlock).1 _ _ _ hahead' (.inl hv)).2.1 rfl (Nat.succ_pos _)

end ParserState

end FrontEnd
