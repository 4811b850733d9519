import Mathlib
import FrontEnd.Proofs.Scope.Mirroring

/-! Where in the text the variables without a signature stand. Each of them begins with a word `var`
of its own, which does not stand behind a type. -/

namespace FrontEnd

namespace Node

def isUnsignedAt (q : Position) : Node → Bool
  | decl (.var s _ none _ _) => s.place = q
  | _ => false

theorem isUnsignedAt_iff {q : Position} {b : Node} : b.isUnsignedAt q = true ↔
    ∃ s n e p, b = .decl (.var s n none e p) ∧ s.place = q := by
  constructor
  · intro h
    unfold isUnsignedAt at h
    split at h
    next s n e p => exact ⟨s, n, e, p, rfl, of_decide_eq_true h⟩
    next => exact absurd h Bool.false_ne_true
  · rintro ⟨s, n, e, p, rfl, hq⟩
    exact decide_eq_true hq

def unsignedAt (q : Position) (a : Node) : Nat := a.nodes.countP (isUnsignedAt q)

end Node

/-- The word `var` stands at `q` and not behind a type. -/
def BeginsAt (q : Position) (w : List Token) : Prop :=
  ∃ u k v, w = u ++ k :: v ∧ k.kind = .kwVar ∧ k.place = q ∧
    ∀ l ∈ u.getLast?, l.kind ∉ TokenKind.primitives

namespace BeginsAt

variable {q : Position} {w v : List Token} {k : Token}

theorem append (h : BeginsAt q w) (v : List Token) : BeginsAt q (w ++ v) := by
  obtain ⟨u, k, x, rfl, hk, hq, hu⟩ := h
  exact ⟨u, k, x ++ v, by simp, hk, hq, hu⟩

theorem behind (h : BeginsAt q w) (hk : k.kind ∉ TokenKind.primitives) (v : List Token) :
    BeginsAt q (v ++ k :: w) := by
  obtain ⟨u, l, x, rfl, hl, hq, hu⟩ := h
  refine ⟨v ++ k :: u, l, x, by simp, hl, hq, fun m hm => ?_⟩
  rw [List.getLast?_append_cons] at hm
  cases u with
  | nil =>
    obtain rfl : k = m := by simpa using hm
    exact hk
  | cons y u => exact hu m (by rwa [List.getLast?_cons_cons] at hm)

theorem cons (h : BeginsAt q w) (hk : k.kind ∉ TokenKind.primitives) : BeginsAt q (k :: w) :=
  h.behind hk []

end BeginsAt

namespace Reads

variable {T : TypeTable} {w : List Token} {q : Position}

theorem decl_eq_concat {d : Decl} (h : Reads T w (.decl d)) :
    ∃ v k, w = v ++ [k] ∧ k.kind = .semicolon := by
  cases h with
  | @var k n a c w v g e hk hn ha hc _ _ => exact ⟨w ++ k :: n :: a :: v, c, by simp, hc⟩
  | @fn k n o c a f w u v g ps e hk hn ho hc ha hf _ _ _ _ =>
    exact ⟨w ++ k :: n :: o :: (u ++ c :: a :: v), f, by simp, hf⟩

theorem stmt_eq_concat {s : Stmt} (h : Reads T w (.stmt s)) :
    ∃ v k, w = v ++ [k] ∧ k.kind = .semicolon := by
  cases h with
  | evaluated hc _ => exact ⟨_, _, rfl, hc⟩
  | @assigned k c n w v l e _ hc _ _ _ => exact ⟨w ++ k :: v, c, by simp, hc⟩
  | declared h => exact h.decl_eq_concat

theorem type_eq_concat {t : TypeId} (h : Reads T w (.type t)) :
    ∃ v k, w = v ++ [k] ∧ k.kind ∈ TokenKind.primitives := by
  generalize ha : Node.type t = a at h
  induction h generalizing t with
  | @primitive k p hk =>
    refine ⟨[], k, rfl, ?_⟩
    revert hk
    cases k.kind <;> simp [TokenKind.primitive?, TokenKind.primitives]
  | pointer hk ht _ ih =>
    obtain ⟨v, l, rfl, hl⟩ := ih rfl
    exact ⟨_ :: v, l, rfl, hl⟩
  | @function o c k w _ _ _ _ ho hc hk ht _ _ _ ih =>
    obtain ⟨v, l, rfl, hl⟩ := ih rfl
    exact ⟨o :: (w ++ c :: k :: v), l, by simp, hl⟩
  | _ => cases ha

/-- The first words of variables without a signature are different tokens. -/
theorem unsignedAt_le {a : Node} (h : Reads T w a) (q : Position) :
    a.unsignedAt q ≤ w.countP fun k => k.place = q := by
  unfold Node.unsignedAt
  induction h with
  | var _ _ _ _ hg _ _ ih =>
    cases hg <;>
      simp only [Node.nodes, Decl.nodes, List.countP_append, List.countP_cons, List.countP_nil,
        Node.isUnsignedAt, Rule.site, List.headD_nil, List.nil_append] at ih ⊢ <;>
      grind
  | _ =>
    simp only [Node.nodes, Expr.nodes, Expr.nodesOfAll, Stmt.nodes, Stmt.nodesOfAll, Decl.nodes,
      List.flatMap_nil, List.flatMap_cons, List.countP_append, List.countP_cons, List.countP_nil,
      Node.isUnsignedAt] at *
    grind

theorem beginsAt_of_concat {v : List Token} (hw : ∃ u k, w = u ++ [k] ∧ k.kind = .semicolon)
    (h : BeginsAt q v) : BeginsAt q (w ++ v) := by
  obtain ⟨u, k, rfl, hk⟩ := hw
  rw [List.append_assoc, List.singleton_append]
  exact h.behind (hk ▸ by decide) u

theorem beginsAt {a : Node} (h : Reads T w a) (ha : 0 < a.unsignedAt q) : BeginsAt q w := by
  unfold Node.unsignedAt at ha
  induction h <;>
    simp only [Node.nodes, Expr.nodes, Expr.nodesOfAll, Stmt.nodes, Stmt.nodesOfAll, Decl.nodes,
      List.flatMap_nil, List.flatMap_cons, List.append_nil, List.countP_append, List.countP_cons,
      List.countP_nil, Node.isUnsignedAt, Bool.false_eq_true, if_false, Nat.add_zero,
      Nat.lt_irrefl, Nat.add_pos_iff_pos_or_pos] at ha
  case group ho _ _ ih | block ho _ _ ih => exact ((ih ha).append _).cons (ho ▸ by decide)
  case ifThen hi hk _ _ ih ih' =>
    refine BeginsAt.cons ?_ (hi ▸ by decide)
    rcases ha with ha | ha
    · exact (ih ha).append _
    · exact (ih' ha).behind (hk ▸ by decide) _
  case ifElse hi hk hl _ _ _ ih ih' ih'' =>
    refine BeginsAt.cons ?_ (hi ▸ by decide)
    rcases ha with ha | ha | ha
    · exact (ih ha).append _
    · exact ((ih' ha).append _).behind (hk ▸ by decide) _
    · exact ((ih'' ha).behind (hl ▸ by decide) _).behind (hk ▸ by decide) _
  case returned hk _ ih | yielded hk _ ih => exact (ih ha).cons (hk ▸ by decide)
  case prefixed hk _ ih => exact (ih ha).cons (by revert hk; cases Token.kind _ <;> decide)
  case binary form k _ _ _ _ hk _ _ ih ih' =>
    rcases ha with ha | ha
    · exact (ih ha).append _
    · refine (ih' ha).behind ?_ _
      revert hk
      cases form <;> cases k.kind <;> decide
  case call ho _ _ _ ih ih' =>
    rcases ha with ha | ha
    · exact (ih ha).append _
    · exact ((ih' ha).append _).behind (ho ▸ by decide) _
  case lastExpr ih => exact ih ha
  case moreExprs hk _ _ ih ih' =>
    rcases ha with ha | ha
    · exact (ih ha).append _
    · refine (ih' ?_).behind (hk ▸ by decide) _
      simpa only [Node.nodes, Expr.nodesOfAll, List.countP_append, Nat.add_pos_iff_pos_or_pos]
        using ha
  case evaluated ih => exact (ih ha).append _
  case assigned hk _ _ _ _ ih ih' =>
    rcases ha with ha | ha
    · exact (ih ha).append _
    · exact ((ih' ha).append _).behind (hk ▸ by decide) _
  case declared ih => exact ih ha
  case moreStmts hs _ ih ih' =>
    rcases ha with ha | ha
    · exact (ih ha).append _
    · exact beginsAt_of_concat hs.stmt_eq_concat (ih' ha)
  case moreDecls hd _ ih ih' =>
    rcases ha with ha | ha
    · exact (ih ha).append _
    · exact beginsAt_of_concat hd.decl_eq_concat (ih' ha)
  case var k n a c w v g e hk hn hassign _ hg _ _ ih =>
    have hinitial (he : 0 < e.nodes.countP (Node.isUnsignedAt q)) :
        BeginsAt q (w ++ k :: n :: a :: (v ++ [c])) :=
      ((((ih he).append _).cons (hassign ▸ by decide)).cons (hn ▸ by decide)).behind
        (hk ▸ by decide) w
    rcases ha with ha | ha
    · exact hinitial ha
    · cases hg with
      | signed => exact absurd ha (by simp)
      | unsigned =>
        have hq : k.place = q := by
          by_contra hne
          simp [Rule.site, hne] at ha
        exact ⟨[], k, n :: a :: (v ++ [c]), rfl, hk, hq, fun l hl => absurd hl (by simp)⟩
  case fn hk hn ho hc hassign _ _ _ _ _ _ ih =>
    exact ((((((ih ha).append _).cons (hassign ▸ by decide)).behind (hc ▸ by decide) _).cons
      (ho ▸ by decide)).cons (hn ▸ by decide)).behind (hk ▸ by decide) _

end Reads

end FrontEnd
