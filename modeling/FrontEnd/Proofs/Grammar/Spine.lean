import FrontEnd.Proofs.Grammar.Language

/-! The expressions of the language from left to right. Behind a complete operand there may come
arguments, an operator with another operand, or the `else` of a condition that still lacks one. -/

namespace FrontEnd.Phrase

/-- Where a reader from left to right stands inside an expression, and how many conditions around
it could still take an `else`. -/
inductive Spot where
  | operand (conditions : Nat)
  | behind (conditions : Nat)

/-- What an expression can go on with at a spot. -/
inductive Spine : Spot → List TokenKind → Prop
  | literal {n : Nat} {k : TokenKind} {w : List TokenKind} (h : k ∈ TokenKind.literals) :
      Spine (.behind n) w → Spine (.operand n) (k :: w)
  | group {n : Nat} {e w : List TokenKind} : Derives expr e → Spine (.behind n) w →
      Spine (.operand n) (.openParen :: (e ++ .closeParen :: w))
  | block {n : Nat} {ss w : List TokenKind} : Derives stmts ss → Spine (.behind n) w →
      Spine (.operand n) (.openCurly :: (ss ++ .closeCurly :: w))
  | condition {n : Nat} {c w : List TokenKind} : Derives expr c → Spine (.operand (n + 1)) w →
      Spine (.operand n) (.kwIf :: (c ++ .kwThen :: w))
  | returned {n : Nat} {w : List TokenKind} : Spine (.operand n) w →
      Spine (.operand n) (.kwReturn :: w)
  | yielded {n : Nat} {w : List TokenKind} : Spine (.operand n) w →
      Spine (.operand n) (.kwYield :: w)
  | prefixed {n : Nat} {k : TokenKind} {w : List TokenKind} (h : k ∈ TokenKind.prefixOperators) :
      Spine (.operand n) w → Spine (.operand n) (k :: w)
  | finish {n : Nat} : Spine (.behind n) []
  | binary {n : Nat} {k : TokenKind} {w : List TokenKind} (h : k ∈ TokenKind.binaryOperators) :
      Spine (.operand n) w → Spine (.behind n) (k :: w)
  | call {n m : Nat} {as w : List TokenKind} : Derives (items expr m) as → Spine (.behind n) w →
      Spine (.behind n) (.openParen :: (as ++ .closeParen :: w))
  | otherwise {n : Nat} {w : List TokenKind} : Spine (.operand n) w →
      Spine (.behind (n + 1)) (.kwElse :: w)

namespace Spot

/-- The same spot inside `m` more conditions. -/
def within (m : Nat) : Spot → Spot
  | operand n => operand (n + m)
  | behind n => behind (n + m)

end Spot

namespace Spine

theorem exists_cons {n : Nat} {w : List TokenKind} (h : Spine (.operand n) w) :
    ∃ k v, w = k :: v := by
  cases h <;> exact ⟨_, _, rfl⟩

/-- What can follow inside any number of conditions can follow the end of an expression. -/
theorem append_of_forall {a : Spot} {m : Nat} {w v : List TokenKind} (h : Spine a w)
    (hv : ∀ n, Spine (.behind (n + m)) v) : Spine (a.within m) (w ++ v) := by
  induction h with
  | literal h _ ih => exact .literal h ih
  | group he _ ih => simpa [Spot.within] using .group he ih
  | block hs _ ih => simpa [Spot.within] using .block hs ih
  | condition hc _ ih =>
    rw [Spot.within, Nat.add_right_comm] at ih
    simpa [Spot.within] using .condition hc ih
  | returned _ ih => exact .returned ih
  | yielded _ ih => exact .yielded ih
  | prefixed h _ ih => exact .prefixed h ih
  | finish => exact hv _
  | binary h _ ih => exact .binary h ih
  | call ha _ ih => simpa [Spot.within] using .call ha ih
  | otherwise _ ih =>
    rw [Spot.within, Nat.add_right_comm]
    exact .otherwise ih

theorem within {a : Spot} {w : List TokenKind} (h : Spine a w) (m : Nat) :
    Spine (a.within m) w := by
  simpa using h.append_of_forall fun _ => .finish

theorem append {a : Spot} {m : Nat} {w v : List TokenKind} (h : Spine a w)
    (hv : Spine (.behind m) v) : Spine (a.within m) (w ++ v) :=
  h.append_of_forall fun n => by simpa [Spot.within, Nat.add_comm] using hv.within n

end Spine

theorem Derives.spine {w : List TokenKind} (h : expr.Derives w) : Spine (.operand 0) w := by
  generalize hp : expr = p at h
  induction h with
  | literal h => exact .literal h .finish
  | group h => exact .group h .finish
  | block h => exact .block h .finish
  | ifThen hc _ _ iht => exact .condition hc ((iht rfl).within 1)
  | ifElse hc _ _ _ iht ihe =>
    exact .condition hc ((iht rfl).append (.otherwise (ihe rfl)))
  | returned _ ih => exact .returned (ih rfl)
  | yielded _ ih => exact .yielded (ih rfl)
  | prefixed h _ ih => exact .prefixed h (ih rfl)
  | binary h _ _ ihl ihr => exact (ihl rfl).append (.binary h (ihr rfl))
  | call _ ha ihf _ => exact (ihf rfl).append (m := 0) (.call ha .finish)
  | _ => exact nomatch hp

end FrontEnd.Phrase
