import FrontEnd.Grammar.Expression
import FrontEnd.Proofs.Grammar.Language

/-! Trees of binary operators. Where every operator binds at least as tight as the operators around
it demand, the tree is given by its operands and operators in the order of the text. -/

namespace FrontEnd

/-- How tight a binary operator binds: equality least, products most. -/
def TokenKind.level : TokenKind → Nat
  | .less | .greater => 1
  | .plus | .minus => 2
  | .star | .slash => 3
  | _ => 0

inductive OperatorTree where
  | operand (e : Expr)
  | node (operator : Token) (left right : OperatorTree)

namespace OperatorTree

/-- The operands and operators from left to right. -/
def reading : OperatorTree → List (Expr ⊕ Token)
  | operand e => [.inl e]
  | node k l r => l.reading ++ .inr k :: r.reading

def top? : OperatorTree → Option Token
  | operand _ => none
  | node k _ _ => some k

/-- The operator of a left operand binds at least as tight as the one it is an operand of, that of a
right operand tighter. -/
def Levelled : OperatorTree → Prop
  | operand _ => True
  | node k l r => l.Levelled ∧ r.Levelled ∧ (∀ j ∈ l.top?, k.kind.level ≤ j.kind.level) ∧
      ∀ j ∈ r.top?, k.kind.level < j.kind.level

/-- Comparisons and arithmetic have nodes of their own. The node stands where the operator does. -/
def toExpr : OperatorTree → Expr
  | operand e => e
  | node k l r =>
    .binary (Rule.exprSite k.place)
      (if k.kind ∈ TokenKind.comparisons then .comparison else .arithmetic) k l.toExpr r.toExpr

variable {t u l r : OperatorTree} {j k : Token} {e : Expr}

theorem Levelled.le_of_mem (h : t.Levelled) (hk : k ∈ t.top?) (hj : .inr j ∈ t.reading) :
    k.kind.level ≤ j.kind.level := by
  induction t generalizing k with
  | operand e => exact nomatch hk
  | node i l r ihl ihr =>
    obtain rfl := Option.some.inj hk
    obtain ⟨hl, hr, hleft, hright⟩ := h
    have part {t : OperatorTree} (ih : ∀ {k}, t.Levelled → k ∈ t.top? → .inr j ∈ t.reading →
        k.kind.level ≤ j.kind.level) (ht : t.Levelled)
        (htop : ∀ j ∈ t.top?, i.kind.level ≤ j.kind.level) (hmem : .inr j ∈ t.reading) :
        i.kind.level ≤ j.kind.level := by
      cases t with
      | operand e => simp [reading] at hmem
      | node m _ _ => exact Nat.le_trans (htop m rfl) (ih ht rfl hmem)
    rcases List.mem_append.mp hj with hj | hj
    · exact part ihl hl hleft hj
    · rcases List.mem_cons.mp hj with hj | hj
      · exact Nat.le_of_eq (by rw [Sum.inr.inj hj])
      · exact part ihr hr (fun m hm => Nat.le_of_lt (hright m hm)) hj

theorem Levelled.lt_of_mem_right (h : (node k l r).Levelled) (hj : .inr j ∈ r.reading) :
    k.kind.level < j.kind.level := by
  obtain ⟨-, hr, -, hright⟩ := h
  cases r with
  | operand e => simp [reading] at hj
  | node m _ _ => exact Nat.lt_of_lt_of_le (hright m rfl) (hr.le_of_mem rfl hj)

theorem Levelled.le_of_mem_left (h : (node k l r).Levelled) (hj : .inr j ∈ l.reading) :
    k.kind.level ≤ j.kind.level :=
  h.le_of_mem rfl (List.mem_append_left _ hj)

/-- Of two levelled trees with one reading neither has its root further left. -/
theorem Levelled.eq_nil_of_append {l' r' : OperatorTree} {w : List (Expr ⊕ Token)}
    (h : (node k l r).Levelled) (h' : (node j l' r').Levelled)
    (hl : l'.reading = l.reading ++ w)
    (hr : .inr k :: r.reading = w ++ .inr j :: r'.reading) : w = [] := by
  cases w with
  | nil => rfl
  | cons x w =>
    obtain ⟨rfl, hrest⟩ := List.cons.inj hr
    have hk : .inr k ∈ l'.reading := by simp [hl]
    have hj : .inr j ∈ r.reading := hrest ▸ List.mem_append_right w List.mem_cons_self
    have hle := h'.le_of_mem_left hk
    have hlt := h.lt_of_mem_right hj
    omega

/-- The operator at the root is the last one of those that bind least. -/
theorem Levelled.root_unique {l' r' : OperatorTree} (h : (node k l r).Levelled)
    (h' : (node j l' r').Levelled) (heq : (node k l r).reading = (node j l' r').reading) :
    l.reading = l'.reading ∧ k = j ∧ r.reading = r'.reading := by
  have hroot (hl : l.reading = l'.reading) (hr : .inr k :: r.reading = .inr j :: r'.reading) :
      l.reading = l'.reading ∧ k = j ∧ r.reading = r'.reading := by
    obtain ⟨hk, hr⟩ := List.cons.inj hr
    exact ⟨hl, Sum.inr.inj hk, hr⟩
  rcases List.append_eq_append_iff.mp heq with ⟨w, hl, hr⟩ | ⟨w, hl, hr⟩
  · obtain rfl := h.eq_nil_of_append h' hl hr
    exact hroot (by rw [hl, List.append_nil]) hr
  · obtain rfl := h'.eq_nil_of_append h hl hr
    exact hroot (by rw [hl, List.append_nil]) hr.symm

theorem reading_node_ne : (node k l r).reading ≠ (operand e).reading := by
  intro h
  have hk : .inr k ∈ (operand e).reading := h ▸ List.mem_append_right _ List.mem_cons_self
  simp [reading] at hk

theorem Levelled.eq_of_reading_eq (h : t.Levelled) (h' : u.Levelled)
    (heq : t.reading = u.reading) : t = u := by
  induction t generalizing u with
  | operand e =>
    cases u with
    | operand e' =>
      obtain ⟨he, -⟩ := List.cons.inj heq
      rw [Sum.inl.inj he]
    | node k l r => exact absurd heq.symm reading_node_ne
  | node k l r ihl ihr =>
    cases u with
    | operand e => exact absurd heq reading_node_ne
    | node j l' r' =>
      obtain ⟨hl, rfl, hr⟩ := h.root_unique h' heq
      rw [ihl h.1 h'.1 hl, ihr h.2.1 h'.2.1 hr]

end OperatorTree

end FrontEnd
