import FrontEnd.Token.Lexeme

/-! The tokens of a source text, in order, closed by the token that marks its end. -/

namespace FrontEnd

/-- One token, the place behind it, and the text that is left. -/
structure Scan where
  token : Token
  place : Position
  rest : List Char
deriving DecidableEq, Repr, Inhabited

/-- Reads one token from the text `cs` that starts at `p`. -/
def scan (p : Position) (cs : List Char) : Scan :=
  let (skipped, rest) := splitTrivia false cs
  let start := p.afterAll skipped
  match Lexeme.first? rest with
  | none => ⟨.endAt start, start, rest⟩
  | some l =>
    ⟨⟨l.kind, l.payload, start⟩, start.afterAll l.text, rest.drop l.text.length⟩

theorem length_rest_scan_lt {p : Position} {cs : List Char}
    (h : (scan p cs).token.kind ≠ .eof) : (scan p cs).rest.length < cs.length := by
  have hsplit := congrArg List.length (splitTrivia_append false cs)
  rw [List.length_append] at hsplit
  unfold scan at h ⊢
  cases hl : Lexeme.first? (splitTrivia false cs).2 with
  | none => simp [hl] at h
  | some l =>
    have hne : (splitTrivia false cs).2 ≠ [] := by
      intro hnil
      rw [hnil] at hl
      simp [Lexeme.first?] at hl
    have hpos := List.length_pos_iff.mpr hne
    have htext := List.length_pos_iff.mpr (Lexeme.text_ne_nil hl)
    simp only [hl, List.length_drop]
    omega

/-- The tokens of the text `cs` that starts at `p`. -/
def tokensFrom (p : Position) (cs : List Char) : List Token :=
  let s := scan p cs
  if _h : s.token.kind = .eof then [s.token] else s.token :: tokensFrom s.place s.rest
termination_by cs.length
decreasing_by exact length_rest_scan_lt _h

/-- The tokens of a whole source. -/
def tokenize (source : String) : List Token := tokensFrom .origin source.toList

theorem tokensFrom_ne_nil (p : Position) (cs : List Char) : tokensFrom p cs ≠ [] := by
  rw [tokensFrom]
  split <;> simp

end FrontEnd
