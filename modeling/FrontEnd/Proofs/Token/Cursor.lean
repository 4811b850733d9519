import FrontEnd.Proofs.Token.Layout
import Mathlib.Logic.Function.Iterate

/-! Reading tokens on demand is moving a cursor over all tokens of the source. The token behind the
one that comes next is scanned when that one is taken, and what is asked in between shows nothing
of it. -/

namespace FrontEnd

namespace Lookahead

inductive Call where
  | peek | previous | advance
  | advanceIf (k : TokenKind)
deriving DecidableEq, Repr

inductive Answer where
  | token (t : Token)
  | flag (taken : Bool)
deriving DecidableEq, Repr

/-- A token is taken by making it the previous one. -/
def reply : Call → Lookahead → Answer × Lookahead
  | .peek, l => (.token l.peeked, l)
  | .previous, l => (.token l.previous, l)
  | .advance, l => (.token l.advance.previous, l.advance)
  | .advanceIf k, l => (.flag (l.advanceIf k).1, (l.advanceIf k).2)

end Lookahead

open Lookahead (Call Answer)

/-- The answers to one call after the other. -/
def answers {σ : Type} (reply : Call → σ → Answer × σ) : List Call → σ → List Answer
  | [], _ => []
  | call :: calls, s => (reply call s).1 :: answers reply calls (reply call s).2

/-- The token with the index `n`; behind the last one comes that one again. -/
def tokenAt (ts : List Token) (n : Nat) : Token := ts.getD n (ts.getLastD (.endAt .origin))

/-- Of the tokens so many were taken. -/
structure Cursor where
  tokens : List Token
  taken : Nat

namespace Cursor

def next (c : Cursor) : Token := tokenAt c.tokens c.taken

def previous (c : Cursor) : Token :=
  match c.taken with
  | 0 => .endAt .origin
  | n + 1 => tokenAt c.tokens n

def move (c : Cursor) : Cursor := { c with taken := c.taken + 1 }

def reply : Call → Cursor → Answer × Cursor
  | .peek, c => (.token c.next, c)
  | .previous, c => (.token c.previous, c)
  | .advance, c => (.token c.next, c.move)
  | .advanceIf k, c => if c.next.kind = k then (.flag true, c.move) else (.flag false, c)

end Cursor

def Scan.next (s : Scan) : Scan := scan s.place s.rest

theorem next_scan_of_eof {p : Position} {cs : List Char} (h : (scan p cs).token.kind = .eof) :
    (scan p cs).next = scan p cs := by
  cases hrest : (splitTrivia false cs).2 with
  | nil => simp [Scan.next, scan, hrest, Lexeme.first?, splitTrivia]
  | cons c rest =>
    obtain ⟨_, _, hspelling⟩ := Spelling.of_atHead c rest
    simp only [scan, hrest, Lexeme.first?] at h
    exact absurd h hspelling.kind_ne_eof

theorem tokenAt_cons_succ {ts : List Token} (h : ts ≠ []) (t : Token) (n : Nat) :
    tokenAt (t :: ts) (n + 1) = tokenAt ts n := by
  obtain ⟨u, us, rfl⟩ := List.exists_cons_of_ne_nil h
  rfl

theorem tokenAt_tokensFrom (p : Position) (cs : List Char) (n : Nat) :
    tokenAt (tokensFrom p cs) n = (Scan.next^[n] (scan p cs)).token := by
  fun_induction tokensFrom p cs generalizing n with
  | case1 p cs s h =>
    have hfixed : Scan.next^[n] (scan p cs) = scan p cs :=
      Function.iterate_fixed (next_scan_of_eof h) n
    rw [hfixed]
    cases n <;> rfl
  | case2 p cs s h ih =>
    cases n with
    | zero => rfl
    | succ n => rw [tokenAt_cons_succ (tokensFrom_ne_nil _ _), ih, Function.iterate_succ_apply]; rfl

namespace Lookahead

variable {source : String} {l l' : Lookahead} {c : Cursor}

/-- The reader has scanned one token more than the cursor has taken. -/
structure Follows (source : String) (l : Lookahead) (c : Cursor) : Prop where
  tokens : c.tokens = tokenize source
  scanned : (⟨l.peeked, l.place, l.rest⟩ : Scan) = Scan.next^[c.taken] (scan .origin source.toList)
  previous : l.previous = c.previous

theorem follows_ofSource (source : String) :
    Follows source (.ofSource source) ⟨tokenize source, 0⟩ :=
  ⟨rfl, rfl, rfl⟩

theorem Follows.peeked (h : Follows source l c) : l.peeked = c.next := by
  rw [Cursor.next, h.tokens, tokenize, tokenAt_tokensFrom, ← h.scanned]

theorem Follows.advance (h : Follows source l c) : Follows source l.advance c.move where
  tokens := h.tokens
  scanned := by
    change scan l.place l.rest = Scan.next^[c.taken + 1] (scan .origin source.toList)
    rw [Function.iterate_succ_apply', ← h.scanned]
    rfl
  previous := h.peeked

/-- A call gets the same answer of both, and behind it the reader follows the cursor still. -/
theorem Follows.reply (h : Follows source l c) (call : Call) :
    (l.reply call).1 = (c.reply call).1 ∧ Follows source (l.reply call).2 (c.reply call).2 := by
  cases call with
  | peek => exact ⟨congrArg Answer.token h.peeked, h⟩
  | previous => exact ⟨congrArg Answer.token h.previous, h⟩
  | advance => exact ⟨congrArg Answer.token h.peeked, h.advance⟩
  | advanceIf k =>
    by_cases hk : c.next.kind = k
    · have hk' : l.peeked.kind = k := by rw [h.peeked, hk]
      simp only [Lookahead.reply, Lookahead.advanceIf, Cursor.reply, hk, hk', if_true]
      exact ⟨trivial, h.advance⟩
    · have hk' : ¬ l.peeked.kind = k := by rwa [h.peeked]
      simp only [Lookahead.reply, Lookahead.advanceIf, Cursor.reply, hk, hk', if_false]
      exact ⟨trivial, h⟩

theorem Follows.answers (h : Follows source l c) (calls : List Call) :
    answers Lookahead.reply calls l = answers Cursor.reply calls c := by
  induction calls generalizing l c with
  | nil => rfl
  | cons call calls ih =>
    obtain ⟨hanswer, hnext⟩ := h.reply call
    exact congrArg₂ List.cons hanswer (ih hnext)

theorem advanceIf_fst (l : Lookahead) (k : TokenKind) :
    (l.advanceIf k).1 = decide (l.peeked.kind = k) := by
  unfold advanceIf
  split
  next h => exact (decide_eq_true h).symm
  next h => exact (decide_eq_false h).symm

theorem reply_skipBytes {n : Nat} (h : l.skipBytes? n = some l') (call : Call) :
    (l'.reply call).1 = (l.reply call).1 := by
  obtain ⟨⟨front, rest⟩, _, rfl⟩ := Option.map_eq_some_iff.mp h
  cases call with
  | advanceIf k => simp only [reply, advanceIf_fst]
  | _ => rfl

theorem exists_skipBytes {skipped rest : List Char} (h : l.rest = skipped ++ rest) :
    ∃ l', l.skipBytes? (String.ofList skipped).utf8ByteSize = some l' ∧ l'.rest = rest := by
  unfold skipBytes?
  rw [h, splitBytes?_append]
  exact ⟨_, rfl, rfl⟩

end Lookahead

/-- Whatever is asked of a reader, it answers as a cursor over the tokens of the source does, where
the last token repeats. Skipping any text that lies ahead, at any time, leaves the next answer what
it was. -/
theorem answers_ofSource (source : String) :
    (∀ calls, answers Lookahead.reply calls (.ofSource source) =
      answers Cursor.reply calls ⟨tokenize source, 0⟩) ∧
    ∀ (l : Lookahead) skipped rest, l.rest = skipped ++ rest →
      ∃ l', l.skipBytes? (String.ofList skipped).utf8ByteSize = some l' ∧ l'.rest = rest ∧
        ∀ call, (l'.reply call).1 = (l.reply call).1 := by
  refine ⟨(Lookahead.follows_ofSource source).answers, fun l skipped rest hrest => ?_⟩
  obtain ⟨l', hskip, hrest'⟩ := Lookahead.exists_skipBytes hrest
  exact ⟨l', hskip, hrest', Lookahead.reply_skipBytes hskip⟩

/-- Behind the `=` that comes next a string is skipped, with a character of two bytes in it. -/
theorem answers_of_skipped_string :
    (Lookahead.ofSource "a = \"é\";").advance.rest = " \"é\"".toList ++ [';'] ∧
    ∃ l', (Lookahead.ofSource "a = \"é\";").advance.skipBytes? 5 = some l' ∧ l'.rest = [';'] ∧
      ∀ call, (l'.reply call).1 = ((Lookahead.ofSource "a = \"é\";").advance.reply call).1 := by
  have hrest : (Lookahead.ofSource "a = \"é\";").advance.rest = " \"é\"".toList ++ [';'] := by
    decide +kernel
  exact ⟨hrest, (answers_ofSource "a = \"é\";").2 _ _ _ hrest⟩

end FrontEnd
