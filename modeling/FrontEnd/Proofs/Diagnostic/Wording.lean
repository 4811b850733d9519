import FrontEnd.Diagnostic.Excerpt
import FrontEnd.Types.Table

/-! What a fault says has no line break in it. Text of the source stands between quotes, where a
line break is escaped; the few texts that a fault shows as they are must have none of their own. -/

namespace FrontEnd

namespace Text

/-- The text fits on one line. -/
def InLine (s : String) : Prop := '\n' ∉ s.toList

variable {s t : String}

theorem InLine.fixed {cs : List Char} (h : '\n' ∉ cs) : InLine (String.ofList cs) := by
  rw [InLine, String.toList_ofList]
  exact h

@[simp] theorem inLine_append : InLine (s ++ t) ↔ InLine s ∧ InLine t := by
  rw [InLine, String.toList_append, List.mem_append, not_or]
  exact Iff.rfl

theorem inLine_intercalate (hs : InLine s) {ts : List String} (h : ∀ t ∈ ts, InLine t) :
    InLine (s.intercalate ts) := by
  induction ts with
  | nil => exact List.not_mem_nil
  | cons t ts ih =>
    obtain ⟨ht, hts⟩ := List.forall_mem_cons.mp h
    cases ts with
    | nil => simpa using ht
    | cons u ts =>
      rw [String.intercalate_cons_cons]
      exact inLine_append.mpr ⟨inLine_append.mpr ⟨ht, hs⟩, ih hts⟩

theorem newline_not_mem_toDigits {b : Nat} (hb : 1 < b) (n : Nat) :
    '\n' ∉ Nat.toDigits b n := by
  have hdigit (m : Nat) : '\n' ≠ m.digitChar := by
    by_cases hm : 16 ≤ m
    · rw [Nat.digitChar_eq_star.mpr hm]
      decide
    · have hsmall : ∀ k < 16, '\n' ≠ Nat.digitChar k := by decide
      exact hsmall m (Nat.lt_of_not_le hm)
  induction n using Nat.strongRecOn with
  | _ n ih =>
    by_cases hn : n < b
    · rw [Nat.toDigits_of_lt_base hn, List.mem_singleton]
      exact hdigit n
    · have hle : b ≤ n := Nat.le_of_not_lt hn
      rw [Nat.toDigits_of_base_le hb hle, List.mem_append, List.mem_singleton]
      exact not_or.mpr ⟨ih _ (Nat.div_lt_self (by omega) hb), hdigit _⟩

@[simp] theorem inLine_repr (n : Nat) : InLine n.repr := by
  rw [← Nat.toString_eq_repr, Nat.toString_eq_ofList_toDigits]
  exact .fixed (newline_not_mem_toDigits (by decide) n)

theorem newline_not_mem_escapeChar (c : Char) : '\n' ∉ escapeChar c := by
  by_cases hc : c = '\n'
  · subst hc
    decide
  · have hcode : '\n' ∉ escapeCode c := by simp [escapeCode, newline_not_mem_toDigits]
    have hself : '\n' ∉ [c] := by simpa using Ne.symm hc
    unfold escapeChar
    repeat' split
    any_goals decide
    · exact hself
    · exact hcode

@[simp] theorem inLine_quote (s : String) : InLine (quote s) := by
  simp [InLine, quote, newline_not_mem_escapeChar]

end Text

open Text

@[simp] theorem TokenKind.inLine_spelling (k : TokenKind) : InLine k.spelling := by
  cases k <;> exact .fixed (by decide)

@[simp] theorem TypeTable.inLine_shown (T : TypeTable) (t : TypeId) : InLine (T.shown t) := by
  suffices hwithin : ∀ n t, InLine (T.shownWithin n t) from hwithin _ t
  intro n
  induction n with
  | zero => exact fun _ => .fixed (by decide)
  | succ n ih =>
    intro t
    unfold shownWithin
    split
    next => exact .fixed (by decide)
    next p _ => cases p <;> exact .fixed (by decide)
    next target _ => exact inLine_append.mpr ⟨.fixed (by decide), ih target⟩
    next arguments result _ =>
      have harguments : InLine (", ".intercalate (arguments.map (T.shownWithin n))) := by
        refine inLine_intercalate (.fixed (by decide)) fun s hs => ?_
        obtain ⟨t, _, rfl⟩ := List.mem_map.mp hs
        exact ih t
      simp only [inLine_append, harguments, ih result, and_true]
      exact ⟨.fixed (by decide), .fixed (by decide)⟩

@[simp] theorem Position.inLine_shown (p : Position) : InLine p.shown := by
  simp only [Position.shown, Nat.toString_eq_repr, inLine_append, inLine_repr, and_true]
  exact ⟨.fixed (by decide), .fixed (by decide)⟩

namespace Fault

/-- The texts that a fault shows as they are, in its message or in its hint. -/
def bare : Fault → List String
  | numberTooLarge digits => [digits]
  | signatureNotFunction _ signature => [signature]
  | undefinedSymbol symbol => [symbol]
  | conditionNotBool found => [found]
  | branchesDiffer thenType elseType => [thenType, elseType]
  | notCallable found => [found]
  | argumentType _ expected received => [expected, received]
  | returnType expected received => [expected, received]
  | assignedType expected received => [expected, received]
  | initialType expected received => [expected, received]
  | untypedSymbol symbol => [symbol]
  | missingSignature function => [function]
  | internal message => [message]
  | _ => []

/-- What the fault shows as it is has no line break. -/
def InLine (f : Fault) : Prop := ∀ s ∈ f.bare, Text.InLine s

theorem inLine_against {expected received : String} (he : Text.InLine expected)
    (hr : Text.InLine received) : Text.InLine (against expected received) := by
  simp only [against, inLine_append, he, hr, and_true]
  exact ⟨.fixed (by decide), .fixed (by decide)⟩

theorem InLine.message {f : Fault} (h : f.InLine) : Text.InLine f.message := by
  unfold Fault.message
  cases f <;> simp only [Fault.InLine, bare, List.forall_mem_cons] at h <;> dsimp only
  case unterminatedString | brokenBlock | notAssignable | operandNotInt | returnOutsideFunction
      | badTarget => exact .fixed (by decide)
  case argumentType | returnType | assignedType | initialType =>
    have hagainst := inLine_against h.1 h.2.1
    simp only [Nat.toString_eq_repr, inLine_append, inLine_repr, hagainst, and_true]
    repeat' apply And.intro
    all_goals exact .fixed (by decide)
  all_goals
    simp only [Nat.toString_eq_repr, inLine_append, inLine_quote, inLine_repr,
      TokenKind.inLine_spelling, inLine_against, h, and_true]
    repeat' apply And.intro
    all_goals exact .fixed (by decide)

theorem InLine.hint? {f : Fault} (h : f.InLine) {s : String} (hs : f.hint? = some s) :
    Text.InLine s := by
  unfold Fault.hint? at hs
  split at hs
  case h_9 => exact nomatch hs
  all_goals obtain rfl := Option.some.inj hs
  case h_2 | h_6 | h_7 | h_8 =>
    have hbare := h _ List.mem_cons_self
    simp only [inLine_append, hbare, and_true]
    exact ⟨.fixed (by decide), .fixed (by decide)⟩
  all_goals exact .fixed (by decide)

theorem inLine_of_bare_eq_nil {f : Fault} (h : f.bare = []) : f.InLine := by
  rw [Fault.InLine, h]
  exact nofun

end Fault

namespace Diagnostic

variable {d : Diagnostic}

theorem inLine_shown (h : d.fault.InLine) : InLine d.shown := by
  simp only [shown, inLine_append, h.message, Position.inLine_shown, and_true, true_and]
  exact .fixed (by decide)

end Diagnostic

end FrontEnd
